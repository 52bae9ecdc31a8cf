import MonsterMQ.KafkaBridgeCodec

/-!
# What the codec of the Kafka bridge keeps

A message that the bridge encodes is read back, what a broker message carries comes through both
conversions, and no JSON text of less than 2^29 bytes is taken for the binary layout.
-/

namespace MonsterMQ.KafkaBridge

open LittleEndian
open List hiding get

/-- A reader finds `x` in the bytes `s`, whatever follows them. -/
def Reads {α : Type} (f : Wire α) (s : Bytes) (x : α) : Prop :=
  ∀ r t, r.err = none → r.rest = s ++ t → ∃ r', f r = (x, r') ∧ r'.err = none ∧ r'.rest = t

section Combine

variable {α β : Type} {f : Wire α} {x : α} {y : β} {s t : Bytes}

theorem Reads.bind {g : α → Wire β} (hf : Reads f s x) (hg : Reads (g x) t y) : Reads (andThen f g) (s ++ t) y := by
  intro r u herr hrest
  rw [append_assoc] at hrest
  obtain ⟨r₁, h₁, herr₁, hrest₁⟩ := hf r _ herr hrest
  obtain ⟨r₂, h₂, herr₂, hrest₂⟩ := hg r₁ u herr₁ hrest₁
  exact ⟨r₂, by rw [andThen, h₁, h₂], herr₂, hrest₂⟩

theorem reads_ret : Reads (ret x) [] x := fun r t herr hrest => ⟨r, rfl, herr, hrest⟩

theorem Reads.map {g : α → β} (hf : Reads f s x) : Reads (andThen f fun a => ret (g a)) s (g x) := by
  have := hf.bind (g := fun a => ret (g a)) reads_ret
  rwa [append_nil] at this

theorem Reads.silent {g : α → Wire β} (hf : Reads f [] x) (hg : Reads (g x) t y) : Reads (andThen f g) t y :=
  hf.bind hg

end Combine

theorem reads_takeN (b : Bytes) : Reads (takeN b.length) b (some b) := by
  intro r t herr hrest
  have hlen : ¬((b.length : ℤ) < 0 ∨ (r.rest.length : ℤ) < b.length) := by
    rw [hrest, length_append]
    omega
  have htake : r.rest.take b.length = b := by rw [hrest, take_left]
  have hdrop : r.rest.drop b.length = t := by rw [hrest, drop_left]
  refine ⟨{ r with rest := t, pos := r.pos + b.length }, ?_, herr, rfl⟩
  rw [takeN, if_neg (not_not.mpr herr), if_neg hlen, Int.toNat_natCast, htake, hdrop]

theorem reads_allocate (n : ℕ) : Reads (allocate n) [] () := fun _ _ herr hrest => ⟨_, rfl, herr, hrest⟩

theorem reads_hasErr : Reads hasErr [] false := fun r _ herr hrest => ⟨r, by simp [hasErr, herr], herr, hrest⟩

theorem reads_byte (b : UInt8) : Reads getByte [b] b := (reads_takeN [b]).map

theorem reads_i32 (v : Int32) : Reads getI32 (putI32 v) v := by
  have h : Reads (takeN 4) (putI32 v) (some (putI32 v)) := by
    have := reads_takeN (putI32 v)
    rwa [putI32, length_reverse, put_length] at this
  have hv := h.map (g := fun b => b.elim 0 fun b => (UInt32.ofNat (get b.reverse)).toInt32)
  rwa [Option.elim_some, putI32, reverse_reverse, get_put_of_lt v.toUInt32.toNat_lt, UInt32.ofNat_toNat,
    Int32.toInt32_toUInt32] at hv

theorem reads_i64 (v : Int64) : Reads getI64 (putI64 v) v := by
  have h : Reads (takeN 8) (putI64 v) (some (putI64 v)) := by
    have := reads_takeN (putI64 v)
    rwa [putI64, length_reverse, put_length] at this
  have hv := h.map (g := fun b => b.elim 0 fun b => (UInt64.ofNat (get b.reverse)).toInt64)
  rwa [Option.elim_some, putI64, reverse_reverse, get_put_of_lt v.toUInt64.toNat_lt, UInt64.ofNat_toNat,
    Int64.toInt64_toUInt64] at hv

theorem reads_raw (b : Bytes) : Reads (raw b.length) b (some b) := by
  have := (reads_takeN b).bind (g := fun b => andThen (allocate (b.getD []).length) fun _ => ret b)
    ((reads_allocate _).silent reads_ret)
  rwa [append_nil] at this

theorem reads_toStr (b : Option Bytes) : Reads (toStr b) [] (b.getD []) := (reads_allocate _).silent reads_ret

def Short (b : Bytes) : Prop := b.length < 2 ^ 31

variable {b : Bytes}

theorem Short.toInt (h : Short b) : (Int32.ofNat b.length).toInt = b.length := Int32.toInt_ofNat_of_lt h

theorem ofNat_ne_neg_one {n : ℕ} (h : n < 2 ^ 31) : Int32.ofNat n ≠ -1 := by
  intro h0
  have hn := Int32.toInt_ofNat_of_lt h
  rw [h0, show (-1 : Int32).toInt = -1 by decide] at hn
  omega

theorem reads_bytes (h : Short b) : Reads getBytes (putBytes b) (some b) := by
  have hr := reads_raw b
  rw [← h.toInt] at hr
  exact (reads_i32 _).bind hr

theorem reads_str (h : Short b) : Reads getStr (putBytes b) b := by
  have := (reads_bytes h).bind (reads_toStr (some b))
  rwa [append_nil] at this

theorem reads_nstr {o : Option Bytes} (h : ∀ b ∈ o, Short b) : Reads getNstr (putNstr o) o := by
  cases o with
  | none =>
    have := (reads_i32 (-1)).bind (g := fun n => andThen hasErr fun e =>
      if n = -1 ∨ e then ret none else andThen (raw n.toInt) fun b => andThen (toStr b) fun s => ret (some s))
      (reads_hasErr.silent (by rw [if_pos (Or.inl rfl)]; exact reads_ret))
    rwa [append_nil] at this
  | some b =>
    have hb := h b rfl
    have hr := reads_raw b
    rw [← hb.toInt] at hr
    refine (reads_i32 _).bind (reads_hasErr.silent ?_)
    rw [if_neg (by simpa using ofNat_ne_neg_one hb)]
    have := hr.bind (g := fun b => andThen (toStr b) fun s => ret (some s)) (reads_toStr (some b)).map
    rwa [append_nil] at this

theorem reads_correlation {o : Option Bytes} (h : ∀ b ∈ o, Short b) : Reads getCorrelation (putNstr o) o := by
  cases o with
  | none =>
    have := (reads_i32 (-1)).bind (g := fun n => if n = -1 then ret none else raw n.toInt)
      (by rw [if_pos rfl]; exact reads_ret)
    rwa [append_nil] at this
  | some b =>
    have hb := h b rfl
    have hr := reads_raw b
    rw [← hb.toInt] at hr
    refine (reads_i32 _).bind ?_
    rwa [if_neg (ofNat_ne_neg_one hb)]

private theorem reads_properties {ps : List UserProperty} (h : ∀ p ∈ ps, Short p.key ∧ Short p.value) :
    Reads (getProperties ps.length) (putProperties ps) ps := by
  induction ps with
  | nil => exact reads_ret
  | cons p ps ih =>
    have hp := h p mem_cons_self
    have htail := ih fun q hq => h q (mem_cons_of_mem _ hq)
    rw [putProperties, flatMap_cons, append_assoc]
    refine reads_hasErr.silent ?_
    rw [if_neg Bool.false_ne_true]
    exact (reads_str hp.1).bind ((reads_str hp.2).bind htail.map)

/-- A property takes at least a byte, so their number is not more than the bytes that follow. -/
theorem length_le_putProperties (ps : List UserProperty) : ps.length ≤ (putProperties ps).length := by
  induction ps with
  | nil => exact Nat.le_refl 0
  | cons p ps ih =>
    have hpos : 0 < (putBytes p.key).length := by simp [putBytes, putI32]
    rw [putProperties, flatMap_cons, length_append, length_append, length_cons]
    rw [putProperties] at ih
    omega

private theorem peerFlags_bits (p : PeerForward) : decide (peerFlags p &&& 4 ≠ 0) = p.dup ∧
    decide (peerFlags p &&& 2 ≠ 0) = p.will ∧ decide (peerFlags p &&& 1 ≠ 0) = p.snapshot := by
  obtain ⟨_, _, _, _, _, _, dup, will, snapshot⟩ := p
  cases dup <;> cases will <;> cases snapshot <;> simp [peerFlags, boolBit] <;> decide

theorem reads_peer {o : Option PeerForward}
    (h : ∀ p ∈ o, Short p.sourceNode ∧ Short p.clientID ∧ ∀ b ∈ p.username, Short b) : Reads getPeer (putPeer o) o := by
  cases o with
  | none => exact (reads_byte 0).bind (t := []) (by rw [if_neg (by decide)]; exact reads_ret)
  | some p =>
    obtain ⟨hs, hc, hu⟩ := h p rfl
    refine (reads_byte 1).bind ?_
    rw [if_pos rfl]
    refine (reads_str hs).bind ((reads_str hc).bind ((reads_nstr hu).bind ((reads_i64 _).bind
      ((reads_i64 _).bind ((reads_i64 _).bind ?_)))))
    obtain ⟨hdup, hwill, hsnapshot⟩ := peerFlags_bits p
    have := (reads_byte (peerFlags p)).map (g := fun flags => some (⟨p.sourceNode, p.clientID, p.username, p.timeNs,
      p.epoch, p.offset, flags &&& 4 ≠ 0, flags &&& 2 ≠ 0, flags &&& 1 ≠ 0⟩ : PeerForward))
    rwa [hdup, hwill, hsnapshot] at this

def WireMessage.strings (m : WireMessage) : List Bytes :=
  [m.messageUUID, m.topicName, m.clientID, m.payload.getD []] ++ (m.originNode.toList ++ m.senderID.toList ++
    m.contentType.toList ++ m.responseTopic.toList ++ m.correlationData.toList ++ m.username.toList ++
    m.peerSource.toList ++ (m.userProperties.getD []).flatMap (fun p => [p.key, p.value]) ++
    m.peer.toList.flatMap fun p => [p.sourceNode, p.clientID] ++ p.username.toList)

structure WireMessage.Fits (m : WireMessage) : Prop where
  qoS : 0 ≤ m.qoS ∧ m.qoS ≤ 3
  expiry : m.messageExpiryInterval ≠ some (-1)
  format : m.payloadFormatIndicator ≠ some (-1)
  strings : ∀ s ∈ m.strings, Short s
  properties : (m.userProperties.getD []).length < 2 ^ 31

def WireMessage.carriesProperties (m : WireMessage) : Bool := m.hasUserProperties || m.userProperties.isSome

/-- The message with what the layout does not tell apart: no payload and an empty one, no list of user
properties and an empty one, and with the mark of the user properties set where they are written. -/
def WireMessage.readBack (m : WireMessage) : WireMessage :=
  { m with
    payload := some (m.payload.getD [])
    userProperties := if m.carriesProperties then some (m.userProperties.getD []) else none
    hasUserProperties := m.carriesProperties }

def WireMessage.head (m : WireMessage) : WireMessage :=
  { m with
    payload := some (m.payload.getD [])
    senderID := none
    messageExpiryInterval := none
    payloadFormatIndicator := none
    contentType := none
    responseTopic := none
    correlationData := none
    userProperties := none
    hasUserProperties := false
    isWill := false
    username := none
    peerSource := none
    peer := none }

variable {m : WireMessage}

private theorem status_bits (h : 0 ≤ m.qoS ∧ m.qoS ≤ 3) :
    ((statusOf m >>> 3 &&& 3).toNat : ℤ) = m.qoS ∧ decide (statusOf m >>> 1 &&& 1 = 1) = m.isRetain ∧
      decide (statusOf m >>> 2 &&& 1 = 1) = m.isDup ∧ decide (statusOf m &&& 1 = 1) = m.isQueued := by
  have hq : m.qoS = 0 ∨ m.qoS = 1 ∨ m.qoS = 2 ∨ m.qoS = 3 := by omega
  rcases hq with hq | hq | hq | hq <;> simp only [statusOf, hq] <;>
    cases m.isDup <;> cases m.isRetain <;> cases m.isQueued <;> decide

section

variable (h : m.Fits)
include h

theorem reads_head : Reads decodeHead (encodeHead m) m.head := by
  have hs := h.strings
  obtain ⟨hq, hr, hd, hqueued⟩ := status_bits h.qoS
  refine (reads_str (hs _ (by simp [WireMessage.strings]))).bind ((reads_i32 _).bind ((reads_byte _).bind
    ((reads_str (hs _ (by simp [WireMessage.strings]))).bind ((reads_str (hs _ (by simp [WireMessage.strings]))).bind
    ((reads_i64 _).bind ((reads_bytes (hs _ (by simp [WireMessage.strings]))).bind ?_))))))
  rw [hq, hr, hd, hqueued]
  exact (reads_nstr fun b hb => hs b (by simp [WireMessage.strings, Option.mem_def.mp hb])).map

theorem WireMessage.Fits.property (p : UserProperty) (hp : p ∈ m.userProperties.getD []) :
    Short p.key ∧ Short p.value := by
  have hmem : ∀ s ∈ [p.key, p.value], s ∈ m.strings := fun s hs =>
    mem_append_right _ (mem_append_left _ (mem_append_right _ (mem_flatMap.mpr ⟨p, hp, hs⟩)))
  exact ⟨h.strings _ (hmem _ (by simp)), h.strings _ (hmem _ (by simp))⟩

theorem reads_userProperties : Reads getUserProperties (putUserProperties m)
    (if m.carriesProperties then .present (m.userProperties.getD []) else .absent) := by
  have hiff : (m.hasUserProperties = false ∧ m.userProperties = none) ↔ m.carriesProperties = false := by
    simp [WireMessage.carriesProperties]
  rw [putUserProperties]
  cases hc : m.carriesProperties with
  | false =>
    rw [if_pos (hiff.mpr hc), if_neg Bool.false_ne_true, ← append_nil (putI32 (-1))]
    refine (reads_i32 (-1)).bind ?_
    rw [if_pos rfl]
    exact reads_ret
  | true =>
    rw [if_neg (by rw [hiff, hc]; decide), if_pos rfl]
    refine (reads_i32 _).bind ?_
    rw [if_neg (ofNat_ne_neg_one h.properties)]
    have hint := Int32.toInt_ofNat_of_lt h.properties
    have hps := reads_properties h.property
    intro r t herr hrest
    have hroom : ¬((Int32.ofNat (m.userProperties.getD []).length).toInt < 0 ∨
        (Int32.ofNat (m.userProperties.getD []).length).toInt > r.rest.length) := by
      have := length_le_putProperties (m.userProperties.getD [])
      rw [hint, hrest, length_append]
      omega
    dsimp only
    rw [if_neg hroom, hint, Int.toNat_natCast]
    exact (reads_allocate _).silent hps.map r t herr hrest

theorem reads_end (m₀ : WireMessage) :
    Reads (decodeEnd m₀) ([boolBit m.isWill] ++ (putNstr m.username ++ (putNstr m.peerSource ++ putPeer m.peer)))
      { m₀ with isWill := m.isWill, username := m.username, peerSource := m.peerSource, peer := m.peer } := by
  have hs := h.strings
  have hw : decide (boolBit m.isWill = 1) = m.isWill := by cases m.isWill <;> rfl
  refine (reads_byte _).bind ((reads_nstr fun b hb => hs b ?_).bind ((reads_nstr fun b hb => hs b ?_).bind ?_))
  · simp [WireMessage.strings, Option.mem_def.mp hb]
  · simp [WireMessage.strings, Option.mem_def.mp hb]
  · rw [hw]
    refine (reads_peer fun p hp => ⟨hs _ ?_, hs _ ?_, fun b hb => hs b ?_⟩).map
    · simp [WireMessage.strings, Option.mem_def.mp hp]
    · simp [WireMessage.strings, Option.mem_def.mp hp]
    · simp [WireMessage.strings, Option.mem_def.mp hp, Option.mem_def.mp hb]

theorem reads_trailerHead {m₀ : WireMessage} {p : Properties} {s t : Bytes}
    {y : Except CodecError WireMessage} (hp : Reads getUserProperties s p) (hy : Reads (decodeRest { m₀ with
      senderID := m.senderID
      messageExpiryInterval := m.messageExpiryInterval
      payloadFormatIndicator := m.payloadFormatIndicator
      contentType := m.contentType
      responseTopic := m.responseTopic
      correlationData := m.correlationData } p) t y) :
    Reads (decodeTrailer m₀) (putNstr m.senderID ++ (putI64 (m.messageExpiryInterval.getD (-1)) ++
      (putI32 (m.payloadFormatIndicator.getD (-1)) ++ (putNstr m.contentType ++ (putNstr m.responseTopic ++
        (putNstr m.correlationData ++ (s ++ t))))))) y := by
  have hs := h.strings
  have hexpiry : (if m.messageExpiryInterval.getD (-1) = -1 then none else some (m.messageExpiryInterval.getD (-1))) =
      m.messageExpiryInterval := by
    have := h.expiry
    cases hm : m.messageExpiryInterval <;> simp_all
  have hformat : (if m.payloadFormatIndicator.getD (-1) = -1 then none
      else some (m.payloadFormatIndicator.getD (-1))) = m.payloadFormatIndicator := by
    have := h.format
    cases hm : m.payloadFormatIndicator <;> simp_all
  refine (reads_nstr fun b hb => hs b ?_).bind ((reads_i64 _).bind ((reads_i32 _).bind
    ((reads_nstr fun b hb => hs b ?_).bind ((reads_nstr fun b hb => hs b ?_).bind
    ((reads_correlation fun b hb => hs b ?_).bind (hp.bind ?_))))))
  any_goals simp [WireMessage.strings, Option.mem_def.mp hb]
  rw [hexpiry, hformat]
  exact hy

private theorem reads_trailer : Reads (decodeTrailer m.head) (encodeTrailer m) (.ok m.readBack) := by
  refine reads_trailerHead h (reads_userProperties h) ?_
  rw [WireMessage.readBack]
  cases m.carriesProperties with
  | false | true => exact (reads_end h _).map

end

theorem runDecode_of_head {r : WireReader} (h : decodeHead ⟨b, 0, none, 0⟩ = (m, r)) (herr : r.err = none) :
    runDecode b = if atTrailer r then checkErr (decodeTrailer m { r with
      rest := r.rest.drop 4
      pos := r.pos + 4 }) else (.ok m, r) := by
  unfold runDecode
  rw [h]
  dsimp only
  split
  · next e he => rw [herr] at he; cases he
  · rfl

private theorem decodeWire_head (h : m.Fits) {t : Bytes}
    (ht : ¬(4 ≤ t.length ∧ UInt32.ofNat (get (t.take 4).reverse) = trailerMagic.toUInt32)) :
    decodeWire (encodeHead m ++ t) = .ok m.head := by
  obtain ⟨r, hr, herr, hrest⟩ := reads_head h ⟨encodeHead m ++ t, 0, none, 0⟩ t rfl rfl
  have hno : ¬atTrailer r := by rwa [atTrailer, hrest]
  rw [decodeWire, runDecode_of_head hr herr, if_neg hno]

theorem decodeWire_trailer (h : m.Fits) {s t : Bytes} {y : Except CodecError WireMessage}
    (hs : Reads (decodeTrailer m.head) s y) :
    decodeWire (encodeHead m ++ (putI32 trailerMagic ++ (s ++ t))) = y := by
  obtain ⟨r, hr, herr, hrest⟩ := reads_head h ⟨encodeHead m ++ (putI32 trailerMagic ++ (s ++ t)), 0, none, 0⟩ _ rfl rfl
  have hlen : (putI32 trailerMagic).length = 4 := by decide
  have hat : atTrailer r := by
    rw [atTrailer, hrest, length_append, hlen, take_append_of_le_length (by rw [hlen])]
    exact ⟨by omega, by decide⟩
  obtain ⟨r', hr', herr', -⟩ := hs { r with
    rest := r.rest.drop 4
    pos := r.pos + 4 } t herr (by rw [hrest, ← hlen, drop_left])
  rw [decodeWire, runDecode_of_head hr herr, if_pos hat, hr']
  cases y with
  | error e => rfl
  | ok m => rw [checkErr, herr']

theorem decodeWire_encodeWire (h : m.Fits) : decodeWire (encodeWire m) = .ok m.readBack := by
  have := decodeWire_trailer h (t := []) (reads_trailer h)
  rwa [append_nil] at this

/-- What every reader does: an error stays, the position goes on by what is taken from the rest, and what
is allocated is paid for by two bytes for each byte that is read and `k` for each that was to come. -/
structure Bounded {α : Type} (k : ℕ) (f : Wire α) : Prop where
  err : ∀ r, (f r).2.err = none → r.err = none
  rest : ∀ r, (f r).2.rest <:+ r.rest
  pos : ∀ r, (f r).2.pos + (f r).2.rest.length = r.pos + r.rest.length
  cost : ∀ r, (f r).2.allocated + 2 * (f r).2.rest.length ≤ r.allocated + 2 * r.rest.length + k * r.rest.length

section Bounds

variable {α β : Type} {f : Wire α} {g : α → Wire β} {j k : ℕ}

theorem Bounded.bind (hf : Bounded j f) (hg : ∀ a, Bounded k (g a)) : Bounded (j + k) (andThen f g) where
  err r h := hf.err r ((hg _).err _ h)
  rest r := ((hg _).rest _).trans (hf.rest r)
  pos r := ((hg _).pos _).trans (hf.pos r)
  cost r := by
    have h₁ := hf.cost r
    have h₂ := (hg (f r).1).cost (f r).2
    have hk := Nat.mul_le_mul_left k (hf.rest r).length_le
    rw [Nat.add_mul]
    simp only [andThen]
    omega

theorem bounded_ret (a : α) : Bounded 0 (ret a) :=
  ⟨fun _ h => h, fun _ => suffix_rfl, fun _ => rfl, fun _ => by simp [ret]⟩

theorem Bounded.andThen (hf : Bounded 0 f) (hg : ∀ a, Bounded k (g a)) : Bounded k (andThen f g) := by
  have := hf.bind hg
  rwa [Nat.zero_add] at this

theorem bounded_ite {c : Prop} [Decidable c] {f g : Wire α} (hf : Bounded k f) (hg : Bounded k g) :
    Bounded k (if c then f else g) := by
  split
  · exact hf
  · exact hg

end Bounds

theorem takeN_cases (n : ℤ) (r : WireReader) :
    ((takeN n r).1 = none ∧ (takeN n r).2.err ≠ none ∧ (takeN n r).2.rest = r.rest) ∨
    (r.err = none ∧ 0 ≤ n ∧ ∃ s, (takeN n r).1 = some s ∧ (s.length : ℤ) = n ∧ r.rest = s ++ (takeN n r).2.rest ∧
      (takeN n r).2.err = none) := by
  rw [takeN]
  split
  · next h => exact .inl ⟨rfl, h, rfl⟩
  · next herr =>
    split
    · exact .inl ⟨rfl, by simp, rfl⟩
    · next h =>
      have : n.toNat ≤ r.rest.length := by omega
      refine .inr ⟨not_not.mp herr, by omega, _, rfl, ?_, (take_append_drop _ _).symm, not_not.mp herr⟩
      rw [length_take]
      omega

theorem takeN_allocated (n : ℤ) (r : WireReader) : (takeN n r).2.allocated = r.allocated := by
  rw [takeN]
  split_ifs <;> rfl

theorem takeN_pos (n : ℤ) (r : WireReader) : (takeN n r).2.pos + (takeN n r).2.rest.length = r.pos + r.rest.length := by
  rw [takeN]
  split
  · rfl
  · split
    · rfl
    · simp only [length_drop]
      omega

theorem bounded_takeN (n : ℤ) : Bounded 0 (takeN n) where
  err r h := by
    rcases takeN_cases n r with ⟨-, he, -⟩ | ⟨h0, -⟩
    · exact absurd h he
    · exact h0
  rest r := by
    rcases takeN_cases n r with ⟨-, -, he⟩ | ⟨-, -, s, -, -, hs, -⟩
    · exact he ▸ suffix_rfl
    · exact ⟨s, hs.symm⟩
  pos := takeN_pos n
  cost r := by
    rw [takeN_allocated]
    rcases takeN_cases n r with ⟨-, -, he⟩ | ⟨-, -, s, -, -, hs, -⟩
    · rw [he]
      omega
    · have := congrArg List.length hs
      rw [length_append] at this
      omega

theorem bounded_byte : Bounded 0 getByte := (bounded_takeN 1).andThen fun _ => bounded_ret _

theorem bounded_i32 : Bounded 0 getI32 := (bounded_takeN 4).andThen fun _ => bounded_ret _

theorem bounded_i64 : Bounded 0 getI64 := (bounded_takeN 8).andThen fun _ => bounded_ret _

theorem bounded_raw {β : Type} (n : ℤ) {c : Option Bytes → ℕ} {x : Option Bytes → β}
    (h : ∀ b, c b ≤ (b.getD []).length) :
    Bounded 0 (andThen (raw n) fun b => andThen (allocate (c b)) fun _ => ret (x b)) where
  err r := (bounded_takeN n).err r
  rest r := (bounded_takeN n).rest r
  pos r := (bounded_takeN n).pos r
  cost r := by
    have hcopies := h (takeN n r).1
    have halloc := takeN_allocated n r
    simp only [andThen, raw, allocate, ret]
    rcases takeN_cases n r with ⟨hb, -, he⟩ | ⟨-, -, s, hb, -, hs, -⟩
    · simp only [hb, Option.getD_none, length_nil] at hcopies ⊢
      rw [he]
      omega
    · have := congrArg List.length hs
      rw [length_append] at this
      simp only [hb, Option.getD_some] at hcopies ⊢
      omega

private theorem bounded_bytes : Bounded 0 getBytes :=
  bounded_i32.andThen fun n => bounded_raw n.toInt (c := fun _ => 0) (x := id) fun _ => Nat.zero_le _

theorem bounded_str : Bounded 0 getStr :=
  bounded_i32.andThen fun n => bounded_raw n.toInt (x := fun b => b.getD []) fun _ => Nat.le_refl _

theorem bounded_hasErr : Bounded 0 hasErr :=
  ⟨fun _ h => h, fun _ => suffix_rfl, fun _ => rfl, fun _ => by simp [hasErr]⟩

theorem bounded_nstr : Bounded 0 getNstr :=
  bounded_i32.andThen fun n => bounded_hasErr.andThen fun _ =>
    bounded_ite (bounded_ret _) (bounded_raw n.toInt (x := fun b => some (b.getD [])) fun _ => Nat.le_refl _)

private theorem bounded_correlation : Bounded 0 getCorrelation :=
  bounded_i32.andThen fun n => bounded_ite (bounded_ret _)
    (bounded_raw n.toInt (c := fun _ => 0) (x := id) fun _ => Nat.zero_le _)

private theorem bounded_properties (n : ℕ) : Bounded 0 (getProperties n) := by
  induction n with
  | zero => exact bounded_ret _
  | succ n ih =>
    exact bounded_hasErr.andThen fun _ => bounded_ite (bounded_ret _)
      (bounded_str.andThen fun _ => bounded_str.andThen fun _ => ih.andThen fun _ => bounded_ret _)

theorem bounded_userProperties : Bounded 32 getUserProperties := by
  refine bounded_i32.andThen fun n => bounded_ite ⟨fun _ h => h, fun _ => suffix_rfl, fun _ => rfl, fun r => ?_⟩ ?_
  · simp only [ret]
    omega
  · have hps := bounded_properties n.toInt.toNat
    refine ⟨fun r h => ?_, fun r => ?_, fun r => ?_, fun r => ?_⟩
    · split at h
      · exact h
      · exact hps.err ⟨r.rest, r.pos, r.err, r.allocated + 32 * n.toInt.toNat⟩ h
    · split
      · exact suffix_rfl
      · exact hps.rest ⟨r.rest, r.pos, r.err, r.allocated + 32 * n.toInt.toNat⟩
    · split
      · rfl
      · exact hps.pos ⟨r.rest, r.pos, r.err, r.allocated + 32 * n.toInt.toNat⟩
    · split
      · dsimp only
        omega
      · next hn =>
        have := hps.cost ⟨r.rest, r.pos, r.err, r.allocated + 32 * n.toInt.toNat⟩
        simp only [andThen, allocate, ret]
        dsimp only at this
        omega

private theorem bounded_peer : Bounded 0 getPeer :=
  bounded_byte.andThen fun _ => bounded_ite (bounded_str.andThen fun _ => bounded_str.andThen fun _ =>
    bounded_nstr.andThen fun _ => bounded_i64.andThen fun _ => bounded_i64.andThen fun _ => bounded_i64.andThen fun _ =>
    bounded_byte.andThen fun _ => bounded_ret _) (bounded_ret _)

private theorem bounded_end (m : WireMessage) : Bounded 0 (decodeEnd m) :=
  bounded_byte.andThen fun _ => bounded_nstr.andThen fun _ => bounded_nstr.andThen fun _ =>
    bounded_peer.andThen fun _ => bounded_ret _

private theorem bounded_rest (m : WireMessage) (p : Properties) : Bounded 0 (decodeRest m p) := by
  cases p with
  | invalid n => exact bounded_ret _
  | absent | present ps => exact (bounded_end _).andThen fun _ => bounded_ret _

private theorem bounded_trailer (m : WireMessage) : Bounded 32 (decodeTrailer m) :=
  bounded_nstr.andThen fun _ => bounded_i64.andThen fun _ => bounded_i32.andThen fun _ => bounded_nstr.andThen fun _ =>
    bounded_nstr.andThen fun _ => bounded_correlation.andThen fun _ => bounded_userProperties.bind fun p =>
      bounded_rest _ p

private theorem toInt_of_nonneg {n : ℕ} (hn : n < 2 ^ 32) (h : 0 ≤ (Int32.ofNat n).toInt) :
    (Int32.ofNat n).toInt = n ∧ n < 2 ^ 31 := by
  have hmod : (Int32.ofNat n).toInt % 4294967296 = (n : ℤ) % 4294967296 := by
    rw [Int32.toInt_ofNat']
    exact Int.bmod_emod
  have hlt := (Int32.ofNat n).toInt_lt
  omega

/-- Bytes that are read without an error are at least as many as the first byte of their length says. -/
theorem bytes_size {r : WireReader} (h : (getBytes r).2.err = none) : ∃ c t, r.rest = c :: t ∧ c.toNat < 128 ∧
    (getBytes r).2.rest.length + 4 + c.toNat * 2 ^ 24 ≤ r.rest.length := by
  rcases takeN_cases (getI32 r).1.toInt (getI32 r).2 with ⟨-, he, -⟩ | ⟨he, hn, s, -, hs, hrest, -⟩
  · exact absurd h he
  rcases takeN_cases 4 r with ⟨-, he₄, -⟩ | ⟨-, -, s₄, hval, hs₄, hrest₄, -⟩
  · exact absurd he he₄
  have hv : (getI32 r).1 = (UInt32.ofNat (get s₄.reverse)).toInt32 := by rw [getI32, andThen, ret, hval]; rfl
  have hlen : r.rest.length = 4 + (s.length + (getBytes r).2.rest.length) := by
    have h₄ := congrArg List.length hrest₄
    have h₁ : (takeN 4 r).2.rest.length = _ := congrArg List.length hrest
    rw [length_append] at h₄ h₁
    rw [h₄, h₁]
    have : (getBytes r).2.rest = (takeN (getI32 r).1.toInt (getI32 r).2).2.rest := rfl
    rw [this]
    omega
  match s₄, hs₄ with
  | [c, c₁, c₂, c₃], _ =>
    refine ⟨c, _, hrest₄, ?_⟩
    have hc := c.toNat_lt
    have hc₁ := c₁.toNat_lt
    have hc₂ := c₂.toNat_lt
    have hc₃ := c₃.toNat_lt
    have hget : get [c, c₁, c₂, c₃].reverse = c₃.toNat + 256 * (c₂.toNat + 256 * (c₁.toNat + 256 * c.toNat)) := rfl
    rw [hv, UInt32.toInt32_ofNat', hget] at hn hs
    have hval := toInt_of_nonneg (by omega) hn
    omega

def tabLength : ℕ := 0x09000000

/-- A reader that takes `n` strings, which are that long if no byte is below a tab. -/
structure Heavy {α : Type} (n : ℕ) (f : Wire α) : Prop extends Bounded 0 f where
  weight : ∀ r, (∀ c ∈ r.rest, 9 ≤ c.toNat) → (f r).2.err = none →
    (f r).2.rest.length + n * tabLength ≤ r.rest.length

section Weight

variable {α β : Type} {f : Wire α} {g : α → Wire β} {j k : ℕ}

theorem Bounded.light (hf : Bounded 0 f) : Heavy 0 f := ⟨hf, fun r _ _ => by have := (hf.rest r).length_le; omega⟩

theorem Heavy.andThen (hf : Heavy j f) (hg : ∀ a, Heavy k (g a)) : Heavy (j + k) (andThen f g) := by
  refine ⟨hf.toBounded.andThen fun a => (hg a).toBounded, fun r hr h => ?_⟩
  have h₁ := hf.weight r hr ((hg _).err _ h)
  have h₂ := (hg (f r).1).weight (f r).2 (fun c hc => hr c ((hf.rest r).mem hc)) h
  rw [Nat.add_mul]
  simp only [KafkaBridge.andThen]
  omega

theorem heavy_bytes : Heavy 1 getBytes := by
  refine ⟨bounded_bytes, fun r hr h => ?_⟩
  obtain ⟨c, t, hrest, -, hsize⟩ := bytes_size h
  have := hr c (hrest ▸ mem_cons_self)
  rw [tabLength]
  omega

theorem heavy_str : Heavy 1 getStr := ⟨bounded_str, heavy_bytes.weight⟩

end Weight

theorem heavy_fields {α : Type} (x : Int32 → UInt8 → Bytes → Bytes → Int64 → Option Bytes → Option Bytes → α) :
    Heavy 3 (andThen getI32 fun messageID => andThen getByte fun status => andThen getStr fun topicName =>
      andThen getStr fun clientID => andThen getI64 fun time => andThen getBytes fun payload =>
      andThen getNstr fun originNode => ret (x messageID status topicName clientID time payload originNode)) := by
  have h := bounded_i32.light.andThen fun i => bounded_byte.light.andThen fun s => heavy_str.andThen fun t =>
    heavy_str.andThen fun c => bounded_i64.light.andThen fun d => heavy_bytes.andThen fun p =>
    bounded_nstr.light.andThen fun o => (bounded_ret (x i s t c d p o)).light
  exact h

theorem heavy_head : Heavy 4 decodeHead := by
  have h : Heavy (1 + 3) decodeHead := heavy_str.andThen fun _ => heavy_fields _
  exact h

theorem decodeWire_ok {m : WireMessage} (h : decodeWire b = .ok m) : (decodeHead ⟨b, 0, none, 0⟩).2.err = none := by
  rw [decodeWire] at h
  unfold runDecode at h
  dsimp only at h
  split at h
  · cases h
  · assumption

private theorem accepted_size {m : WireMessage} (h : decodeWire b = .ok m) :
    ∃ c t, b = c :: t ∧ c.toNat < 128 ∧ 4 + c.toNat * 2 ^ 24 ≤ b.length := by
  have hhead := decodeWire_ok h
  unfold decodeHead at hhead
  rw [andThen] at hhead
  have hstr : (getStr ⟨b, 0, none, 0⟩).2.err = none := (heavy_fields _).err _ hhead
  obtain ⟨c, t, hb, hc, hsize⟩ := bytes_size hstr
  exact ⟨c, t, hb, hc, by dsimp only at hsize; omega⟩

/-- No JSON text is accepted: it has no byte below a tab, and four strings that begin so are too long. -/
theorem rejected_of_json (hb : ∀ c ∈ b, 9 ≤ c.toNat) (hlen : b.length < 2 ^ 29) (m : WireMessage) :
    decodeWire b ≠ .ok m := by
  intro h
  have := heavy_head.weight ⟨b, 0, none, 0⟩ hb (decodeWire_ok h)
  rw [tabLength] at this
  dsimp only at this
  omega

private theorem checkErr_snd (p : Except CodecError WireMessage × WireReader) : (checkErr p).2 = p.2 := by
  rw [checkErr]
  split <;> rfl

/-- All that the reader takes lies in the buffer, and it allocates in proportion to that. -/
theorem runDecode_bounded (b : Bytes) : (runDecode b).2.rest <:+ b ∧
    (runDecode b).2.pos + (runDecode b).2.rest.length = b.length ∧ (runDecode b).2.allocated ≤ 34 * b.length := by
  have hcost := heavy_head.cost ⟨b, 0, none, 0⟩
  have hrest := heavy_head.rest ⟨b, 0, none, 0⟩
  have hpos := heavy_head.pos ⟨b, 0, none, 0⟩
  unfold runDecode
  generalize decodeHead ⟨b, 0, none, 0⟩ = p at hcost hrest hpos ⊢
  obtain ⟨m, r⟩ := p
  dsimp only at hcost hrest hpos ⊢
  have hlen := hrest.length_le
  split
  · exact ⟨hrest, by dsimp only; omega, by dsimp only; omega⟩
  · split
    · next hat =>
      have hr : r.rest.drop 4 <:+ b := (drop_suffix 4 r.rest).trans hrest
      have htrailer := bounded_trailer m
      have hc := htrailer.cost ⟨r.rest.drop 4, r.pos + 4, r.err, r.allocated⟩
      have hp := htrailer.pos ⟨r.rest.drop 4, r.pos + 4, r.err, r.allocated⟩
      have hfour := hat.1
      rw [checkErr_snd]
      dsimp only at hc hp
      rw [length_drop] at hc hp
      exact ⟨(htrailer.rest _).trans hr, by omega, by omega⟩
    · exact ⟨hrest, by dsimp only; omega, by dsimp only; omega⟩

/-- `DecodeWire` leaves the reader in the buffer. -/
theorem runDecode_drop (b : Bytes) :
    (runDecode b).2.pos ≤ b.length ∧ (runDecode b).2.rest = b.drop (runDecode b).2.pos := by
  obtain ⟨⟨taken, htaken⟩, hpos, -⟩ := runDecode_bounded b
  have hlen := congrArg List.length htaken
  rw [length_append] at hlen
  refine ⟨by omega, ?_⟩
  have hdrop := @drop_left _ taken (runDecode b).2.rest
  rw [htaken, show taken.length = (runDecode b).2.pos by omega] at hdrop
  exact hdrop.symm

def BrokerMessage.strings (msg : BrokerMessage) : List Bytes :=
  [msg.messageUUID, msg.topicName, msg.clientID, msg.username, msg.contentType, msg.responseTopic, msg.payload.getD [],
    msg.correlationData.getD []] ++ (msg.userProperties.getD []).flatMap fun p => [p.key, p.value]

/-- A message of MQTT whose user properties have different keys. -/
structure BrokerMessage.Fits (msg : BrokerMessage) : Prop where
  qoS : msg.qoS ≤ 2
  strings : ∀ s ∈ msg.strings, Short s
  properties : (msg.userProperties.getD []).length < 2 ^ 31
  keys : ((msg.userProperties.getD []).map (·.key)).Nodup

private theorem foldl_putProperty {o ps : List UserProperty} (h : ((o ++ ps).map (·.key)).Nodup) :
    ps.foldl putProperty o = o ++ ps := by
  induction ps generalizing o with
  | nil => exact (append_nil o).symm
  | cons p ps ih =>
    have hnew : (o.any fun q => q.key = p.key) = false := by
      rw [map_append, map_cons] at h
      have := (nodup_append.mp h).2.2
      simp only [any_eq_false, decide_eq_true_eq]
      intro q hq he
      exact this q.key (mem_map_of_mem hq) p.key mem_cons_self he
    rw [foldl_cons, putProperty, if_neg (by rw [hnew]; decide), ih (by rwa [append_assoc]),
      append_assoc]
    rfl

theorem userPropertyMap_eq {o : Option (List UserProperty)} (h : ((o.getD []).map (·.key)).Nodup) :
    userPropertyMap o = o := by
  cases o with
  | none => rfl
  | some ps =>
    rw [userPropertyMap, foldl_putProperty (o := []) h, nil_append, ite_self]

theorem nonEmpty_getD (s : Bytes) : (nonEmpty s).getD [] = s := by
  rw [nonEmpty]
  split
  · next he => exact he.symm
  · rfl

variable {msg : BrokerMessage} {newUUID : Bytes} {now : Int64} {isZero : Bool}

theorem fits_wireFromBroker (h : msg.Fits) (hu : Short newUUID) : (wireFromBroker newUUID now isZero msg).Fits where
  qoS := by
    have := UInt8.le_iff_toNat_le.mp h.qoS
    simp only [wireFromBroker]
    exact ⟨Int.natCast_nonneg _, by simp at this; omega⟩
  expiry := by
    cases he : msg.messageExpiryInterval with
    | none => simp [wireFromBroker, he]
    | some v =>
      have hv := Int64.toInt_ofNat_of_lt (n := v.toNat) (by have := v.toNat_lt; omega)
      simp only [wireFromBroker, he, Option.map_some, ne_eq, Option.some.injEq]
      intro h0
      rw [h0, show (-1 : Int64).toInt = -1 by decide] at hv
      omega
  format := by
    cases hf : msg.payloadFormatIndicator with
    | none => simp [wireFromBroker, hf]
    | some v =>
      have := v.toNat_lt
      simpa [wireFromBroker, hf] using ofNat_ne_neg_one (n := v.toNat) (by omega)
  strings := by
    intro s hs
    have hmem : s = newUUID ∨ s ∈ msg.strings := by
      have hopt : ∀ o : Option Bytes, s ∈ o.toList → s = o.getD [] := by
        intro o ho
        rw [Option.mem_toList.mp ho]
        rfl
      simp only [WireMessage.strings, wireFromBroker, userPropertyMap_eq h.keys, mem_append] at hs
      simp only [BrokerMessage.strings, mem_append]
      grind [nonEmpty_getD]
    rcases hmem with rfl | hmem
    · exact hu
    · exact h.strings s hmem
  properties := by
    rw [wireFromBroker, userPropertyMap_eq h.keys]
    exact h.properties

theorem toBroker_readBack (h : msg.Fits) : (wireFromBroker newUUID now isZero msg).readBack.toBroker = { msg with
    messageUUID := if msg.messageUUID = [] then newUUID else msg.messageUUID
    payload := some (msg.payload.getD [])
    username := []
    time := if isZero then now else msg.time } := by
  have hid : (if 0 ≤ (Int32.ofNat msg.messageID.toNat).toInt ∧ (Int32.ofNat msg.messageID.toNat).toInt ≤ 65535 then
      (Int32.ofNat msg.messageID.toNat).toInt.toNat.toUInt16 else 0) = msg.messageID := by
    have hlt := msg.messageID.toNat_lt
    rw [Int32.toInt_ofNat_of_lt (by omega), if_pos (by omega), Int.toNat_natCast]
    simp
  have hformat : (msg.payloadFormatIndicator.map fun v => Int32.ofNat v.toNat).bind (fun v =>
      if 0 ≤ v.toInt ∧ v.toInt ≤ 255 then some v.toInt.toNat.toUInt8 else none) = msg.payloadFormatIndicator := by
    cases msg.payloadFormatIndicator with
    | none => rfl
    | some v =>
      have hlt := v.toNat_lt
      rw [Option.map_some, Option.bind_some, Int32.toInt_ofNat_of_lt (by omega), if_pos (by omega), Int.toNat_natCast]
      simp
  have hexpiry : (msg.messageExpiryInterval.map fun v => Int64.ofNat v.toNat).bind (fun v =>
      if 0 ≤ v.toInt ∧ v.toInt ≤ 4294967295 then some v.toInt.toNat.toUInt32 else none) =
      msg.messageExpiryInterval := by
    cases msg.messageExpiryInterval with
    | none => rfl
    | some v =>
      have hlt := v.toNat_lt
      rw [Option.map_some, Option.bind_some, Int64.toInt_ofNat_of_lt (by omega), if_pos (by omega), Int.toNat_natCast]
      simp
  have hq : clampQoS msg.qoS.toNat = msg.qoS := by
    have := UInt8.le_iff_toNat_le.mp h.qoS
    rw [clampQoS, if_neg (by simp at this; omega), Int.toNat_natCast]
    simp
  have hprops : (if msg.userProperties.isSome then some (msg.userProperties.getD []) else none) =
      msg.userProperties := by
    cases msg.userProperties <;> rfl
  simp only [WireMessage.toBroker, WireMessage.readBack, WireMessage.carriesProperties, wireFromBroker,
    userPropertyMap_eq h.keys, hformat, hexpiry, hq, nonEmpty_getD, Bool.false_or, hprops, hid]

/-- What the codec keeps: the messages that fit, the head of a message without a trailer, and all that a broker
message carries; it never leaves the bytes it is given, allocates in proportion to them, and leaves the texts
of JSON to the fallback. -/
theorem codec_keeps : (∀ m : WireMessage, m.Fits → decodeWire (encodeWire m) = .ok m.readBack) ∧
    (∀ (m : WireMessage) (t : Bytes), m.Fits →
      ¬(4 ≤ t.length ∧ UInt32.ofNat (get (t.take 4).reverse) = trailerMagic.toUInt32) →
      decodeWire (encodeHead m ++ t) = .ok m.head) ∧
    (∀ b, ((runDecode b).2.pos ≤ b.length ∧ (runDecode b).2.rest = b.drop (runDecode b).2.pos) ∧
      (runDecode b).2.allocated ≤ 34 * b.length) ∧
    (∀ b m c t, b = c :: t → decodeWire b = .ok m → (c = 0x7b ∨ c = 0x20 → 2 ^ 29 ≤ b.length) ∧
      (c = 0x09 ∨ c = 0x0a ∨ c = 0x0d → 0x09000000 ≤ b.length)) ∧
    (∀ b m, (∀ c ∈ b, 9 ≤ c.toNat) → b.length < 2 ^ 29 → decodeWire b ≠ .ok m) ∧
    (∀ msg newUUID now isZero, msg.Fits → Short newUUID →
      ∃ w, decodeWire (encodeWire (wireFromBroker newUUID now isZero msg)) = .ok w ∧ w.toBroker = { msg with
        messageUUID := if msg.messageUUID = [] then newUUID else msg.messageUUID
        payload := some (msg.payload.getD [])
        username := []
        time := if isZero then now else msg.time }) := by
  refine ⟨fun m h => decodeWire_encodeWire h, fun m t h ht => decodeWire_head h ht,
    fun b => ⟨runDecode_drop b, (runDecode_bounded b).2.2⟩, ?_,
    fun b m hb hlen => rejected_of_json hb hlen m,
    fun msg newUUID now isZero h hu => ⟨_, decodeWire_encodeWire (fits_wireFromBroker h hu), toBroker_readBack h⟩⟩
  intro b m c t hb h
  obtain ⟨c', t', hb', -, hsize⟩ := accepted_size h
  obtain ⟨rfl, -⟩ := List.cons.inj (hb.symm.trans hb')
  refine ⟨?_, ?_⟩
  · rintro (rfl | rfl) <;> simp at hsize <;> omega
  · rintro (rfl | rfl | rfl) <;> simp at hsize <;> omega

def plainPublish : BrokerMessage where
  messageUUID := []
  messageID := 7
  topicName := Auth.ascii "plant/1"
  payload := some (Auth.ascii "21.5")
  qoS := 1
  isRetain := true
  isDup := false
  isQueued := false
  clientID := Auth.ascii "c"
  username := []
  time := 0
  payloadFormatIndicator := some 1
  messageExpiryInterval := some 60
  contentType := []
  responseTopic := []
  correlationData := none
  userProperties := some [⟨Auth.ascii "unit", Auth.ascii "C"⟩]

private theorem plainPublish_fits : plainPublish.Fits where
  qoS := by decide
  strings := by
    unfold Short
    decide
  properties := by decide
  keys := by decide

theorem plainPublish_kept :
    ∃ w, decodeWire (encodeWire (wireFromBroker (Auth.ascii "u") 9 true plainPublish)) = .ok w ∧
      w.toBroker = { plainPublish with messageUUID := Auth.ascii "u", time := 9 } :=
  codec_keeps.2.2.2.2.2 plainPublish (Auth.ascii "u") 9 true plainPublish_fits (by unfold Short; decide)

def bareMessage (u : Bytes) (ps : Option (List UserProperty)) : WireMessage :=
  ⟨u, 0, [], none, 0, false, false, false, [], 0, none, none, none, none, none, none, none, ps, false, false, none,
    none, none⟩

theorem bareMessage_fits {u : Bytes} {l : List UserProperty} (hu : Short u) (hps : l.length < 2 ^ 31)
    (hshort : ∀ p ∈ l, p.key = [] ∧ p.value = []) {o : Option (List UserProperty)} (ho : o.getD [] = l) :
    (bareMessage u o).Fits where
  qoS := by simp [bareMessage]
  expiry := by simp [bareMessage]
  format := by simp [bareMessage]
  strings := by
    intro s hs
    have : s = u ∨ s = [] := by
      simp only [WireMessage.strings, bareMessage, ho] at hs
      grind
    rcases this with rfl | rfl
    · exact hu
    · exact Nat.two_pow_pos 31
  properties := ho ▸ hps

theorem tab_accepted {u : Bytes} (hu : u.length = tabLength) :
    (encodeWire (bareMessage u none)).head? = some 0x09 ∧ (encodeWire (bareMessage u none)).length < 2 ^ 29 ∧
    ∃ m, decodeWire (encodeWire (bareMessage u none)) = .ok m := by
  refine ⟨?_, ?_, _, decodeWire_encodeWire (bareMessage_fits (l := []) ?_ (Nat.two_pow_pos 31) (by simp) rfl)⟩
  · have hlen : putI32 (Int32.ofNat tabLength) = [9, 0, 0, 0] := by decide
    rw [encodeWire, encodeHead, putBytes, show (bareMessage u none).messageUUID = u from rfl, hu, hlen]
    rfl
  · simp [encodeWire, encodeHead, encodeTrailer, putBytes, putNstr, putI32, putI64, putPeer, putUserProperties,
      bareMessage, hu, tabLength]
  · rw [Short, hu]
    decide

theorem reads_invalid {n : Int32} (h : n.toInt < -1) : Reads getUserProperties (putI32 n) (.invalid n) := by
  rw [← append_nil (putI32 n)]
  refine (reads_i32 n).bind ?_
  rw [if_neg (by rintro rfl; exact absurd h (by decide))]
  intro r t herr hrest
  dsimp only
  rw [if_pos (Or.inl (by omega))]
  exact ⟨r, rfl, herr, hrest⟩

/-- More user properties than an `int32` counts. -/
theorem properties_overflow {ps : List UserProperty} (h : ps.length = 2 ^ 31) :
    decodeWire (encodeWire (bareMessage [] (some ps))) = .error (.userPropertyCount (-2147483648)) := by
  have hfits : (bareMessage [] none).Fits :=
    bareMessage_fits (u := []) (l := []) (Nat.two_pow_pos 31) (Nat.two_pow_pos 31) (by simp) rfl
  have hn : Int32.ofNat ps.length = -2147483648 := by
    rw [h]
    rfl
  have hread := decodeWire_trailer hfits (t := putProperties ps ++
    ([boolBit false] ++ (putNstr none ++ (putNstr none ++ putPeer none))))
    (reads_trailerHead hfits (reads_invalid (n := -2147483648) (by decide)) reads_ret)
  rw [← hread, encodeWire, encodeTrailer, putUserProperties, if_neg (by simp [bareMessage])]
  simp only [append_assoc, nil_append, bareMessage, Option.getD_some, hn]
  rfl

/-- A tab that begins a message, user properties without their mark, and too many of them. -/
theorem codec_loses : (∃ b m, b.head? = some 0x09 ∧ b.length < 2 ^ 29 ∧ decodeWire b = .ok m) ∧
    (∃ m : WireMessage, m.Fits ∧ m.hasUserProperties = false ∧ decodeWire (encodeWire m) ≠ .ok m ∧
      ∃ m', decodeWire (encodeWire m) = .ok m' ∧ m'.hasUserProperties = true) ∧
    ∃ (m : WireMessage) (e : CodecError), ({ m with userProperties := none } : WireMessage).Fits ∧
      m.strings.all (· = []) ∧ decodeWire (encodeWire m) = .error e := by
  refine ⟨?_, ?_, ?_⟩
  · obtain ⟨h₁, h₂, m, h₃⟩ := tab_accepted (length_replicate (n := tabLength) (a := (0 : UInt8)))
    exact ⟨_, m, h₁, h₂, h₃⟩
  · have hfits : (bareMessage [] (some [⟨[], []⟩])).Fits :=
      bareMessage_fits (u := []) (l := [⟨[], []⟩]) (Nat.two_pow_pos 31) (by decide) (by simp) rfl
    have h := decodeWire_encodeWire hfits
    exact ⟨_, hfits, rfl, by rw [h]; decide, _, h, rfl⟩
  · refine ⟨_, _, bareMessage_fits (u := []) (l := []) (Nat.two_pow_pos 31) (Nat.two_pow_pos 31) (by simp) rfl, ?_,
      properties_overflow (length_replicate (n := 2 ^ 31) (a := (⟨[], []⟩ : UserProperty)))⟩
    rw [all_eq_true]
    intro s hs
    simp only [WireMessage.strings, bareMessage] at hs
    grind

end MonsterMQ.KafkaBridge
