import MonsterMQ.PacketDecoders

/-!
# Bounds of the property decoder

The fields of a property record are parts of the bytes they were decoded from, they are
together no longer than these, and no property reaches past the announced length.
-/

namespace MonsterMQ.Packets

open LittleEndian CheckedReads List

def present (b : Bool) (w : ℕ) : ℕ := if b then w else 0

theorem present_le (b : Bool) (w : ℕ) : present b w ≤ w := by
  cases b <;> simp [present]

@[grind =] def totalLength (fields : List Bytes) : ℕ := (fields.map List.length).sum

@[grind =] def Properties.fields (p : Properties) : List Bytes :=
  [p.correlationData, p.authenticationData, p.contentType, p.responseTopic, p.assignedClientID,
    p.authenticationMethod, p.responseInfo, p.serverReference, p.reasonString] ++
    p.user.flatMap fun u => [u.key, u.val]

def Properties.numbers (p : Properties) : List ℕ :=
  [present p.payloadFormatFlag 1, present (p.messageExpiryInterval != 0) 4,
    present p.sessionExpiryIntervalFlag 4, present p.serverKeepAliveFlag 2,
    present p.requestProblemInfoFlag 1, present (p.willDelayInterval != 0) 4,
    present (p.requestResponseInfo != 0) 1, present (p.receiveMaximum != 0) 2,
    present (p.topicAliasMaximum != 0) 2, present p.topicAliasFlag 2, present p.maximumQosFlag 1,
    present p.retainAvailableFlag 1, present (p.maximumPacketSize != 0) 4,
    present p.wildcardSubAvailableFlag 1, present p.subIDAvailableFlag 1,
    present p.sharedSubAvailableFlag 1]

def Properties.identifiers (p : Properties) : ℕ := (p.subscriptionIdentifier.map lengthSize).sum

@[grind =] def Properties.length (p : Properties) : ℕ :=
  totalLength p.fields + p.numbers.sum + p.identifiers

structure Properties.Within (p : Properties) (buf : Bytes) (bound : ℕ) : Prop where
  sub : ∀ f ∈ p.fields, f <:+: buf
  length_le : p.length ≤ bound

theorem Properties.within_empty (buf : Bytes) (bound : ℕ) : ({} : Properties).Within buf bound := by
  constructor
  · intro f hf
    have : f = [] := by simpa [Properties.fields] using hf
    rw [this]
    exact nil_infix
  · exact Nat.zero_le bound

variable {p : Properties}

theorem Properties.Within.mono {buf : Bytes} {bound bound' : ℕ}
    (h : p.Within buf bound) (hle : bound ≤ bound') : p.Within buf bound' :=
  ⟨h.sub, h.length_le.trans hle⟩

theorem sum_set_le (l : List ℕ) (i w : ℕ) : (l.set i w).sum ≤ l.sum + w := by
  induction l generalizing i with
  | nil => simp
  | cons a l ih =>
    cases i with
    | zero =>
      simp only [set_cons_zero, sum_cons]
      omega
    | succ i =>
      have := ih i
      simp only [set_cons_succ, sum_cons]
      omega

private theorem totalLength_set_le (l : List Bytes) (i : ℕ) (v : Bytes) :
    totalLength (l.set i v) ≤ totalLength l + v.length := by
  rw [totalLength, map_set]
  exact sum_set_le _ i v.length

theorem safe_store {α β : Type} {f : α → β} {r : Decoded (α × ℕ)} {mid : α × ℕ → Prop}
    {post : β × ℕ → Prop} (h : Safe r mid) (hf : ∀ v offset, mid (v, offset) → post (f v, offset)) :
    Safe (store f r) post := by
  apply safe_bind h
  rintro ⟨v, offset⟩ hv
  exact hf v offset hv

@[grind =] def PropertyKey.valueWidth : PropertyKey → Bytes → Option ℕ
  | .payloadFormat, _ => some 1
  | .messageExpiryInterval, _ => some 4
  | .contentType, value => stringWidth value
  | .responseTopic, value => stringWidth value
  | .correlationData, value => stringWidth value
  | .subscriptionIdentifier, value => varIntWidth value
  | .sessionExpiryInterval, _ => some 4
  | .assignedClientID, value => stringWidth value
  | .serverKeepAlive, _ => some 2
  | .authenticationMethod, value => stringWidth value
  | .authenticationData, value => stringWidth value
  | .requestProblemInfo, _ => some 1
  | .willDelayInterval, _ => some 4
  | .requestResponseInfo, _ => some 1
  | .responseInfo, value => stringWidth value
  | .serverReference, value => stringWidth value
  | .reasonString, value => stringWidth value
  | .receiveMaximum, _ => some 2
  | .topicAliasMaximum, _ => some 2
  | .topicAlias, _ => some 2
  | .maximumQos, _ => some 1
  | .retainAvailable, _ => some 1
  | .user, value => do
    let key ← stringWidth value
    let val ← stringWidth (value.drop key)
    return key + val
  | .maximumPacketSize, _ => some 4
  | .wildcardSubAvailable, _ => some 1
  | .subIDAvailable, _ => some 1
  | .sharedSubAvailable, _ => some 1

@[grind =] def propertyEnd (bytes : Bytes) (offset : ℕ) : Option ℕ :=
  match bytes.drop offset with
  | [] => none
  | k :: value => do
    let key ← PropertyKey.ofByte k
    let width ← key.valueWidth value
    return offset + 1 + width

structure ValueRead (p : Properties) (bt : Bytes) (offset : ℕ) (k : PropertyKey) (next : ℕ) :
    Prop where
  within : p.Within bt next
  le : next ≤ bt.length
  lt : offset < next
  width : k.valueWidth (bt.drop offset) = some (next - offset)

theorem uint16_bounds (buf : Bytes) (offset : ℕ) :
    Safe (decodeUint16 buf offset) fun r => r.2 = offset + 2 ∧ r.2 ≤ buf.length :=
  safe_mono (decodeUint16_safe buf offset) fun _ h => ⟨h.1, h.2.1⟩

variable {bt : Bytes} {offset : ℕ} {k : PropertyKey}

section

variable (hp : p.Within bt offset)
include hp

/-- A number of `w + 1` bytes is stored, at place `i` of the numbers. -/
theorem number_safe {α : Type} {w : ℕ} {f : α → Properties} {r : Decoded (α × ℕ)}
    (hr : Safe r fun r => r.2 = offset + (w + 1) ∧ r.2 ≤ bt.length)
    (hk : k.valueWidth (bt.drop offset) = some (w + 1)) (i : ℕ)
    (hf : ∀ v, (f v).fields = p.fields ∧ (f v).identifiers = p.identifiers)
    (hn : ∀ v, ∃ b, (f v).numbers = p.numbers.set i (present b (w + 1))) :
    Safe (store f r) fun r => ValueRead r.1 bt offset k r.2 := by
  apply safe_store hr
  intro v next hv
  obtain ⟨b, hb⟩ := hn v
  dsimp only at hv
  exact {
    within := by
      constructor
      · rw [(hf v).1]
        exact hp.sub
      · have := hp.length_le
        have := present_le b (w + 1)
        have := sum_set_le p.numbers i (present b (w + 1))
        rw [Properties.length] at *
        rw [(hf v).1, (hf v).2, hb]
        omega
    le := hv.2
    lt := by
      dsimp only
      omega
    width := by
      rw [hk, hv.1]
      congr 1
      omega }

/-- A length-prefixed value is stored, at place `i` of the fields. -/
theorem field_safe {f : Bytes → Properties} {r : Decoded (Bytes × ℕ)}
    (hr : Safe r fun r => FieldAt bt offset r.1 r.2)
    (hk : k.valueWidth (bt.drop offset) = stringWidth (bt.drop offset)) (i : ℕ)
    (hf : ∀ v, (f v).fields = p.fields.set i v)
    (hn : ∀ v, (f v).numbers = p.numbers ∧ (f v).identifiers = p.identifiers) :
    Safe (store f r) fun r => ValueRead r.1 bt offset k r.2 := by
  apply safe_store hr
  intro v next hv
  have hnext := hv.next_eq
  dsimp only at hv hnext
  exact {
    within := by
      constructor
      · intro g hg
        rw [hf v] at hg
        rcases mem_or_eq_of_mem_set hg with hold | rfl
        · exact hp.sub g hold
        · exact hv.sub
      · have := hp.length_le
        have := totalLength_set_le p.fields i v
        rw [Properties.length] at *
        rw [hf v, (hn v).1, (hn v).2]
        dsimp only
        omega
    le := hv.le
    lt := by
      dsimp only
      omega
    width := by rw [hk, hv.width] }

theorem identifier_safe (hle : offset ≤ bt.length) : Safe (p.decodeValue bt offset .subscriptionIdentifier)
      fun r => ValueRead r.1 bt offset .subscriptionIdentifier r.2 := by
  rw [Properties.decodeValue, sliceFrom_of_le hle]
  apply safe_bind (decodeLength_safe (bt.drop offset))
  rintro ⟨n, bu⟩ ⟨hpos, hlen, hwidth, hsize⟩
  dsimp only at hpos hlen hwidth hsize
  rw [length_drop] at hlen
  exact {
    within := by
      constructor
      · exact hp.sub
      · have := hp.length_le
        simp only [Properties.length, Properties.identifiers, map_append, map_cons,
          map_nil, sum_append, sum_cons, sum_nil] at this ⊢
        show totalLength p.fields + p.numbers.sum + _ ≤ _
        omega
    le := by
      dsimp only
      omega
    lt := by
      dsimp only
      omega
    width := by
      rw [PropertyKey.valueWidth, hwidth]
      congr 1
      dsimp only
      omega }

theorem user_safe : Safe (p.decodeValue bt offset .user) fun r => ValueRead r.1 bt offset .user r.2 := by
  apply safe_bind (decodeString_safe bt offset)
  rintro ⟨k, middle⟩ hk
  apply safe_bind (decodeString_safe bt middle)
  rintro ⟨v, next⟩ hv
  have hkn := hk.next_eq
  have hvn := hv.next_eq
  dsimp only at hk hv hkn hvn
  have hfields : ({ p with user := p.user ++ [⟨k, v⟩] } : Properties).fields =
      p.fields ++ [k, v] := by
    simp [Properties.fields]
  exact {
    within := by
      constructor
      · intro f hf
        rw [hfields] at hf
        rcases mem_append.mp hf with hold | hnew
        · exact hp.sub f hold
        · rcases (by simpa using hnew : f = k ∨ f = v) with rfl | rfl
          · exact hk.sub
          · exact hv.sub
      · have hlen := hp.length_le
        have htotal : totalLength (p.fields ++ [k, v]) =
            totalLength p.fields + (k.length + v.length) := by
          simp [totalLength]
        rw [Properties.length] at hlen ⊢
        rw [hfields, htotal]
        show _ + p.numbers.sum + p.identifiers ≤ _
        omega
    le := hv.le
    lt := by
      dsimp only
      omega
    width := by
      have hdrop : (bt.drop offset).drop (middle - offset) = bt.drop middle := by
        rw [drop_drop]
        congr 1
        omega
      rw [PropertyKey.valueWidth, hk.width]
      show (stringWidth ((bt.drop offset).drop (middle - offset))).bind _ = _
      rw [hdrop, hv.width]
      show some _ = some _
      congr 1
      dsimp only
      omega }

/-- Every case of the switch: what was decoded lies in `bt`, at and after `offset`. -/
theorem decodeValue_safe (hle : offset ≤ bt.length) (k : PropertyKey) :
    Safe (p.decodeValue bt offset k) fun r => ValueRead r.1 bt offset k r.2 := by
  rw [Properties.decodeValue.eq_def]
  cases k with
  | payloadFormat =>
    exact number_safe hp (decodeByte_safe bt offset) rfl 0 (fun _ => ⟨rfl, rfl⟩) fun _ => ⟨true, rfl⟩
  | messageExpiryInterval =>
    exact number_safe hp (decodeUint32_safe bt offset) rfl 1 (fun _ => ⟨rfl, rfl⟩) fun _ => ⟨_, rfl⟩
  | contentType =>
    exact field_safe hp (decodeString_safe bt offset) rfl 2 (fun _ => rfl) fun _ => ⟨rfl, rfl⟩
  | responseTopic =>
    exact field_safe hp (decodeString_safe bt offset) rfl 3 (fun _ => rfl) fun _ => ⟨rfl, rfl⟩
  | correlationData =>
    exact field_safe hp (decodeBytes_safe bt offset) rfl 0 (fun _ => rfl) fun _ => ⟨rfl, rfl⟩
  | subscriptionIdentifier =>
    exact identifier_safe hp hle
  | sessionExpiryInterval =>
    exact number_safe hp (decodeUint32_safe bt offset) rfl 2 (fun _ => ⟨rfl, rfl⟩) fun _ => ⟨true, rfl⟩
  | assignedClientID =>
    exact field_safe hp (decodeString_safe bt offset) rfl 4 (fun _ => rfl) fun _ => ⟨rfl, rfl⟩
  | serverKeepAlive =>
    exact number_safe hp (uint16_bounds bt offset) rfl 3 (fun _ => ⟨rfl, rfl⟩) fun _ => ⟨true, rfl⟩
  | authenticationMethod =>
    exact field_safe hp (decodeString_safe bt offset) rfl 5 (fun _ => rfl) fun _ => ⟨rfl, rfl⟩
  | authenticationData =>
    exact field_safe hp (decodeBytes_safe bt offset) rfl 1 (fun _ => rfl) fun _ => ⟨rfl, rfl⟩
  | requestProblemInfo =>
    exact number_safe hp (decodeByte_safe bt offset) rfl 4 (fun _ => ⟨rfl, rfl⟩) fun _ => ⟨true, rfl⟩
  | willDelayInterval =>
    exact number_safe hp (decodeUint32_safe bt offset) rfl 5 (fun _ => ⟨rfl, rfl⟩) fun _ => ⟨_, rfl⟩
  | requestResponseInfo =>
    exact number_safe hp (decodeByte_safe bt offset) rfl 6 (fun _ => ⟨rfl, rfl⟩) fun _ => ⟨_, rfl⟩
  | responseInfo =>
    exact field_safe hp (decodeString_safe bt offset) rfl 6 (fun _ => rfl) fun _ => ⟨rfl, rfl⟩
  | serverReference =>
    exact field_safe hp (decodeString_safe bt offset) rfl 7 (fun _ => rfl) fun _ => ⟨rfl, rfl⟩
  | reasonString =>
    exact field_safe hp (decodeString_safe bt offset) rfl 8 (fun _ => rfl) fun _ => ⟨rfl, rfl⟩
  | receiveMaximum =>
    exact number_safe hp (uint16_bounds bt offset) rfl 7 (fun _ => ⟨rfl, rfl⟩) fun _ => ⟨_, rfl⟩
  | topicAliasMaximum =>
    exact number_safe hp (uint16_bounds bt offset) rfl 8 (fun _ => ⟨rfl, rfl⟩) fun _ => ⟨_, rfl⟩
  | topicAlias =>
    exact number_safe hp (uint16_bounds bt offset) rfl 9 (fun _ => ⟨rfl, rfl⟩) fun _ => ⟨true, rfl⟩
  | maximumQos =>
    exact number_safe hp (decodeByte_safe bt offset) rfl 10 (fun _ => ⟨rfl, rfl⟩) fun _ => ⟨true, rfl⟩
  | retainAvailable =>
    exact number_safe hp (decodeByte_safe bt offset) rfl 11 (fun _ => ⟨rfl, rfl⟩) fun _ => ⟨true, rfl⟩
  | user => exact user_safe hp
  | maximumPacketSize =>
    exact number_safe hp (decodeUint32_safe bt offset) rfl 12 (fun _ => ⟨rfl, rfl⟩) fun _ => ⟨_, rfl⟩
  | wildcardSubAvailable =>
    exact number_safe hp (decodeByte_safe bt offset) rfl 13 (fun _ => ⟨rfl, rfl⟩) fun _ => ⟨true, rfl⟩
  | subIDAvailable =>
    exact number_safe hp (decodeByte_safe bt offset) rfl 14 (fun _ => ⟨rfl, rfl⟩) fun _ => ⟨true, rfl⟩
  | sharedSubAvailable =>
    exact number_safe hp (decodeByte_safe bt offset) rfl 15 (fun _ => ⟨rfl, rfl⟩) fun _ => ⟨true, rfl⟩

end

theorem valueWidth_append {a : Bytes} {w : ℕ} (b : Bytes)
    (h : k.valueWidth a = some w) : k.valueWidth (a ++ b) = some w := by
  cases k with
  | subscriptionIdentifier => exact varIntWidth_append b h
  | user =>
    obtain ⟨key, hkey, h⟩ := Option.bind_eq_some_iff.mp h
    obtain ⟨val, hval, h⟩ := Option.bind_eq_some_iff.mp h
    have hle : key ≤ a.length := by
      by_contra hlt
      rw [drop_eq_nil_of_le (by omega)] at hval
      cases hval
    rw [PropertyKey.valueWidth, stringWidth_append b hkey]
    show (stringWidth ((a ++ b).drop key)).bind _ = _
    rw [drop_append_of_le_length hle, stringWidth_append b hval]
    exact h
  | contentType | responseTopic | correlationData | assignedClientID | authenticationMethod |
    authenticationData | responseInfo | serverReference | reasonString => exact stringWidth_append b h
  | _ => exact h

theorem propertyEnd_append {a : Bytes} {last : ℕ} (b : Bytes)
    (h : propertyEnd a offset = some last) : propertyEnd (a ++ b) offset = some last := by
  have hlt : offset < a.length := by
    by_contra hge
    rw [propertyEnd, drop_eq_nil_of_le (by omega)] at h
    cases h
  rw [propertyEnd, drop_append_of_le_length hlt.le]
  rw [propertyEnd] at h
  cases hd : a.drop offset with
  | nil =>
    rw [hd] at h
    cases h
  | cons k value =>
    rw [hd] at h
    obtain ⟨key, hkey, h⟩ := Option.bind_eq_some_iff.mp h
    obtain ⟨width, hwidth, h⟩ := Option.bind_eq_some_iff.mp h
    show (PropertyKey.ofByte k).bind _ = _
    rw [hkey]
    show (key.valueWidth (value ++ b)).bind _ = _
    rw [valueWidth_append b hwidth]
    exact h

theorem decodeByte_head (buf : Bytes) (offset : ℕ) :
    Safe (decodeByte buf offset) fun r => r.2 = offset + 1 ∧ r.2 ≤ buf.length ∧
      buf.drop offset = r.1 :: buf.drop (offset + 1) := by
  unfold decodeByte
  by_cases h : buf.length ≤ offset
  · rw [if_pos h]
    exact safe_fail
  · rw [if_neg h, index_of_lt (Nat.not_le.mp h)]
    exact ⟨rfl, by omega, drop_eq_getElem_cons (Nat.not_le.mp h)⟩

structure PropertyRead (p : Properties) (bt : Bytes) (offset next : ℕ) : Prop where
  within : p.Within bt next
  le : next ≤ bt.length
  lt : offset < next
  ends : propertyEnd bt offset = some next

theorem decodeProperty_safe (pkt : PacketType) {s : Properties × List PropertyKey}
    (hs : s.1.Within bt offset) :
    Safe (decodeProperty pkt bt s offset) fun r => PropertyRead r.1.1 bt offset r.2 := by
  unfold decodeProperty
  apply safe_bind (decodeByte_head bt offset)
  rintro ⟨k, next⟩ ⟨hnext, hle, hhead⟩
  dsimp only at hnext hle hhead ⊢
  cases hk : PropertyKey.ofByte k with
  | none => exact safe_fail
  | some key =>
    dsimp only
    split_ifs
    · exact safe_fail
    · exact safe_fail
    · apply safe_bind (decodeValue_safe (hs.mono (by omega)) hle key)
      rintro ⟨p, last⟩ hv
      have hlt := hv.lt
      dsimp only at hv hlt ⊢
      split_ifs
      · exact safe_fail
      · exact {
          within := hv.within
          le := hv.le
          lt := by
            dsimp only
            omega
          ends := by
            have hwidth := hv.width
            rw [hnext] at hwidth
            rw [propertyEnd, hhead]
            show (PropertyKey.ofByte k).bind _ = _
            rw [hk]
            show (key.valueWidth (bt.drop (offset + 1))).bind _ = _
            rw [hwidth]
            show some _ = some _
            congr 1
            dsimp only
            omega }

theorem propertyLoop_safe (pkt : PacketType) (bt : Bytes) :
    Safe (readWhile bt.length (decodeProperty pkt bt) bt.length (({} : Properties), []) 0)
      fun s => s.1.Within bt bt.length := by
  have hstep : ∀ (s : Properties × List PropertyKey) offset, offset < bt.length →
      (s.1.Within bt offset ∧ offset ≤ bt.length) →
      Safe (decodeProperty pkt bt s offset) fun r =>
        offset < r.2 ∧ r.1.1.Within bt r.2 ∧ r.2 ≤ bt.length := by
    intro s offset _ hs
    apply safe_mono (decodeProperty_safe pkt hs.1)
    intro r hr
    exact ⟨hr.lt, hr.within, hr.le⟩
  have hloop := safe_readWhile
    (fun (s : Properties × List PropertyKey) offset => s.1.Within bt offset ∧ offset ≤ bt.length)
    hstep bt.length ({}, []) 0 (by omega) ⟨Properties.within_empty bt 0, Nat.zero_le _⟩
  apply safe_mono hloop
  rintro s ⟨last, _, hwithin, hle⟩
  exact hwithin.mono hle

theorem Properties.decode_safe (pkt : PacketType) (b : Bytes) :
    Safe (({} : Properties).decode pkt b) fun r => r.2 ≤ b.length ∧ r.1.Within b r.2 := by
  unfold Properties.decode
  apply safe_bind (decodeLength_safe b)
  rintro ⟨n, bu⟩ ⟨hpos, hlen, -, -⟩
  dsimp only at hpos hlen ⊢
  by_cases hzero : n = 0
  · rw [if_pos hzero]
    exact ⟨by dsimp only; omega, Properties.within_empty b _⟩
  rw [if_neg hzero]
  by_cases hbig : n > (b.drop bu).length
  · rw [if_pos hbig]
    exact safe_fail
  rw [if_neg hbig, slice_of_le (Nat.zero_le n) (Nat.not_lt.mp hbig)]
  have hbt : ((b.drop bu).take n).length = n := length_take_of_le (Nat.not_lt.mp hbig)
  have hloop := propertyLoop_safe pkt ((b.drop bu).take n)
  rw [hbt] at hloop
  apply safe_bind hloop
  intro s hs
  rw [length_drop] at hbig
  refine ⟨by dsimp only; omega, ?_, hs.length_le.trans (Nat.le_add_right n bu)⟩
  intro f hf
  exact drop_infix ((hs.sub f hf).trans (List.take_prefix n _).isInfix)

/-- The announced property length is larger than the rest of the packet, or a property that
begins inside the announced length has no end inside it. -/
def Overruns (b : Bytes) : Prop :=
  ∃ n bu, decodeLength b = .ok (n, bu) ∧ (n > (b.drop bu).length ∨
    ∃ offset, Walk (propertyEnd (b.drop bu)) n 0 offset ∧ offset < n ∧
      ∀ last, propertyEnd (b.drop bu) offset = some last → n < last)

theorem Properties.decode_overruns (pkt : PacketType) {b : Bytes} (h : Overruns b)
    (r : Properties × ℕ) : ({} : Properties).decode pkt b ≠ .ok r := by
  obtain ⟨n, bu, hlength, hover⟩ := h
  intro hok
  rw [Properties.decode, hlength] at hok
  change (if n = 0 then _ else _) = _ at hok
  by_cases hzero : n = 0
  · rcases hover with hbig | ⟨offset, _, hlt, _⟩ <;> omega
  rw [if_neg hzero] at hok
  by_cases hbig : n > (b.drop bu).length
  · rw [if_pos hbig] at hok
    exact fail_ne_ok hok
  rw [if_neg hbig, slice_of_le (Nat.zero_le n) (Nat.not_lt.mp hbig), bind_eq_ok] at hok
  obtain ⟨bt, hbt, hok⟩ := hok
  obtain ⟨s, hloop, -⟩ := (bind_eq_ok).mp hok
  cases hbt
  obtain hbig' | ⟨offset, hwalk, hlt, hpast⟩ := hover
  · exact hbig hbig'
  have hlen : ((b.drop bu).take n).length = n := length_take_of_le (Nat.not_lt.mp hbig)
  have hstep : ∀ (s : Properties × List PropertyKey) offset, offset < n →
      s.1.Within ((b.drop bu).take n) offset →
      Safe (decodeProperty pkt ((b.drop bu).take n) s offset) fun r =>
        r.1.1.Within ((b.drop bu).take n) r.2 ∧ propertyEnd (b.drop bu) offset = some r.2 ∧
          r.2 ≤ n := by
    intro s offset _ hs
    apply safe_mono (decodeProperty_safe pkt hs)
    intro r hr
    have hends := propertyEnd_append ((b.drop bu).drop n) hr.ends
    rw [take_append_drop] at hends
    exact ⟨hr.within, hends, hr.le.trans hlen.le⟩
  have hends := readWhile_walk _ hstep n ({}, []) s 0 offset (Properties.within_empty _ 0) hloop
    hwalk hlt
  obtain ⟨last, hlast, hle⟩ := hends
  have := hpast last hlast
  omega

end MonsterMQ.Packets
