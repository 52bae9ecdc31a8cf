import MonsterMQ.PacketFieldRoundTrip

/-!
# Properties read back

The property loop, run over what the property encoder wrote, stores every property that
was written, and nothing else.
-/

namespace MonsterMQ.Packets

open LittleEndian CheckedReads List

inductive PropertyValue
  | flagged (v : Option ℕ)
  | number (v : ℕ)
  | bytes (v : Bytes)
  | identifiers (v : List ℕ)
  | pairs (v : List UserProperty)
  deriving DecidableEq, Repr

/-- What a property record says about a property. A number without a flag is absent when it
is zero, a string when it is empty. -/
@[grind =] def Properties.value (p : Properties) : PropertyKey → PropertyValue
  | .payloadFormat => .flagged (if p.payloadFormatFlag then some p.payloadFormat.toNat else none)
  | .messageExpiryInterval => .number p.messageExpiryInterval.toNat
  | .contentType => .bytes p.contentType
  | .responseTopic => .bytes p.responseTopic
  | .correlationData => .bytes p.correlationData
  | .subscriptionIdentifier => .identifiers p.subscriptionIdentifier
  | .sessionExpiryInterval =>
    .flagged (if p.sessionExpiryIntervalFlag then some p.sessionExpiryInterval.toNat else none)
  | .assignedClientID => .bytes p.assignedClientID
  | .serverKeepAlive =>
    .flagged (if p.serverKeepAliveFlag then some p.serverKeepAlive.toNat else none)
  | .authenticationMethod => .bytes p.authenticationMethod
  | .authenticationData => .bytes p.authenticationData
  | .requestProblemInfo =>
    .flagged (if p.requestProblemInfoFlag then some p.requestProblemInfo.toNat else none)
  | .willDelayInterval => .number p.willDelayInterval.toNat
  | .requestResponseInfo => .number p.requestResponseInfo.toNat
  | .responseInfo => .bytes p.responseInfo
  | .serverReference => .bytes p.serverReference
  | .reasonString => .bytes p.reasonString
  | .receiveMaximum => .number p.receiveMaximum.toNat
  | .topicAliasMaximum => .number p.topicAliasMaximum.toNat
  | .topicAlias => .flagged (if p.topicAliasFlag then some p.topicAlias.toNat else none)
  | .maximumQos => .flagged (if p.maximumQosFlag then some p.maximumQos.toNat else none)
  | .retainAvailable =>
    .flagged (if p.retainAvailableFlag then some p.retainAvailable.toNat else none)
  | .user => .pairs p.user
  | .maximumPacketSize => .number p.maximumPacketSize.toNat
  | .wildcardSubAvailable =>
    .flagged (if p.wildcardSubAvailableFlag then some p.wildcardSubAvailable.toNat else none)
  | .subIDAvailable =>
    .flagged (if p.subIDAvailableFlag then some p.subIDAvailable.toNat else none)
  | .sharedSubAvailable =>
    .flagged (if p.sharedSubAvailableFlag then some p.sharedSubAvailable.toNat else none)

/-- The record `acc` after it took over one property of `p`. -/
def Properties.copyTo (p acc : Properties) : PropertyKey → Properties
  | .payloadFormat =>
    { acc with payloadFormat := p.payloadFormat, payloadFormatFlag := true }
  | .messageExpiryInterval => { acc with messageExpiryInterval := p.messageExpiryInterval }
  | .contentType => { acc with contentType := p.contentType }
  | .responseTopic => { acc with responseTopic := p.responseTopic }
  | .correlationData => { acc with correlationData := p.correlationData }
  | .subscriptionIdentifier =>
    { acc with subscriptionIdentifier := acc.subscriptionIdentifier ++ p.subscriptionIdentifier }
  | .sessionExpiryInterval =>
    { acc with sessionExpiryInterval := p.sessionExpiryInterval, sessionExpiryIntervalFlag := true }
  | .assignedClientID => { acc with assignedClientID := p.assignedClientID }
  | .serverKeepAlive =>
    { acc with serverKeepAlive := p.serverKeepAlive, serverKeepAliveFlag := true }
  | .authenticationMethod => { acc with authenticationMethod := p.authenticationMethod }
  | .authenticationData => { acc with authenticationData := p.authenticationData }
  | .requestProblemInfo =>
    { acc with requestProblemInfo := p.requestProblemInfo, requestProblemInfoFlag := true }
  | .willDelayInterval => { acc with willDelayInterval := p.willDelayInterval }
  | .requestResponseInfo => { acc with requestResponseInfo := p.requestResponseInfo }
  | .responseInfo => { acc with responseInfo := p.responseInfo }
  | .serverReference => { acc with serverReference := p.serverReference }
  | .reasonString => { acc with reasonString := p.reasonString }
  | .receiveMaximum => { acc with receiveMaximum := p.receiveMaximum }
  | .topicAliasMaximum => { acc with topicAliasMaximum := p.topicAliasMaximum }
  | .topicAlias =>
    { acc with topicAlias := p.topicAlias, topicAliasFlag := true }
  | .maximumQos =>
    { acc with maximumQos := p.maximumQos, maximumQosFlag := true }
  | .retainAvailable =>
    { acc with retainAvailable := p.retainAvailable, retainAvailableFlag := true }
  | .user => { acc with user := acc.user ++ p.user }
  | .maximumPacketSize => { acc with maximumPacketSize := p.maximumPacketSize }
  | .wildcardSubAvailable =>
    { acc with wildcardSubAvailable := p.wildcardSubAvailable, wildcardSubAvailableFlag := true }
  | .subIDAvailable =>
    { acc with subIDAvailable := p.subIDAvailable, subIDAvailableFlag := true }
  | .sharedSubAvailable =>
    { acc with sharedSubAvailable := p.sharedSubAvailable, sharedSubAvailableFlag := true }

def Encodable (s : Bytes) : Prop := s.length ≤ 65535 ∧ validUTF8 s

def Properties.ValidValue (p : Properties) (pkt : PacketType) : PropertyKey → Prop
  | .payloadFormat => p.payloadFormatFlag → p.payloadFormat ≤ 1
  | .contentType => Encodable p.contentType
  | .responseTopic => Encodable p.responseTopic ∧ ¬ containsWildcard p.responseTopic
  | .correlationData => p.correlationData.length ≤ 65535
  | .subscriptionIdentifier =>
    (∀ v ∈ p.subscriptionIdentifier, 1 ≤ v ∧ v ≤ 268435455) ∧
      (pkt ≠ .publish → p.subscriptionIdentifier.length ≤ 1)
  | .assignedClientID => Encodable p.assignedClientID
  | .authenticationMethod => Encodable p.authenticationMethod
  | .authenticationData => p.authenticationData.length ≤ 65535
  | .requestProblemInfo => p.requestProblemInfoFlag → p.requestProblemInfo ≤ 1
  | .requestResponseInfo => p.requestResponseInfo ≤ 1
  | .responseInfo => Encodable p.responseInfo
  | .serverReference => Encodable p.serverReference
  | .reasonString => Encodable p.reasonString
  | .topicAlias => p.topicAliasFlag → 0 < p.topicAlias
  | .maximumQos => p.maximumQosFlag → p.maximumQos < 2
  | .user => ∀ u ∈ p.user, Encodable u.key ∧ Encodable u.val
  | _ => True

def Properties.Valid (p : Properties) (pkt : PacketType) : Prop :=
  ∀ k, canEncode pkt k → p.ValidValue pkt k

@[grind =] def Properties.sends (p : Properties) (pkt : PacketType) (mods : Mods) (n : ℕ)
    (k : PropertyKey) : Bool := canEncode pkt k && p.written mods n k

/-- The property record that the written properties make up. -/
def Properties.sent (p : Properties) (pkt : PacketType) (mods : Mods) (n : ℕ) : Properties :=
  propertyOrder.foldl (fun acc k => if p.sends pkt mods n k then p.copyTo acc k else acc) {}

def PropertyKey.single (k : PropertyKey) : Prop := k ≠ .subscriptionIdentifier ∧ k ≠ .user

theorem PropertyKey.ofByte_toByte (k : PropertyKey) : PropertyKey.ofByte k.toByte = some k := by
  cases k <;> rfl

section Properties

variable {p acc : Properties} {bt rest : Bytes} {offset : ℕ} {pkt : PacketType} {mods : Mods} {n : ℕ}

variable {k : PropertyKey}

theorem decodeValue_valueBytes (hk : k.single) (hvalid : p.ValidValue pkt k)
    (h : At bt offset (p.valueBytes k ++ rest)) :
    acc.decodeValue bt offset k = .ok (p.copyTo acc k, offset + (p.valueBytes k).length) := by
  cases k with
  | payloadFormat | requestProblemInfo | requestResponseInfo | maximumQos | retainAvailable |
    wildcardSubAvailable | subIDAvailable | sharedSubAvailable =>
    rw [Properties.decodeValue, decodeByte_cons h]
    rfl
  | messageExpiryInterval | sessionExpiryInterval | willDelayInterval | maximumPacketSize =>
    rw [Properties.decodeValue, decodeUint32_encode h]
    rfl
  | serverKeepAlive | receiveMaximum | topicAliasMaximum | topicAlias =>
    rw [Properties.decodeValue, decodeUint16_encode h]
    rfl
  | contentType | assignedClientID | authenticationMethod | responseInfo | serverReference | reasonString =>
    rw [Properties.decodeValue, decodeString_encode hvalid.1 hvalid.2 h,
      Properties.valueBytes, encodeString_length]
    rfl
  | responseTopic =>
    rw [Properties.decodeValue, decodeString_encode hvalid.1.1 hvalid.1.2 h,
      Properties.valueBytes, encodeString_length]
    rfl
  | correlationData | authenticationData =>
    rw [Properties.decodeValue, decodeBytes_encode hvalid h, Properties.valueBytes,
      encodeBytes_length]
    rfl
  | subscriptionIdentifier => exact absurd rfl hk.1
  | user => exact absurd rfl hk.2

theorem copyTo_valid (hk : k.single) (hvalid : p.ValidValue pkt k)
    (hwritten : p.written mods n k) : (p.copyTo acc k).invalidValue k = false := by
  cases k with
  | subscriptionIdentifier => exact absurd rfl hk.1
  | user => exact absurd rfl hk.2
  | payloadFormat | requestProblemInfo => exact decide_eq_false (UInt8.not_lt.mpr (hvalid hwritten))
  | requestResponseInfo => exact decide_eq_false (UInt8.not_lt.mpr hvalid)
  | responseTopic => exact Bool.eq_false_iff.mpr hvalid.2
  | receiveMaximum =>
    have hpos : 0 < p.receiveMaximum := of_decide_eq_true hwritten
    exact beq_eq_false_iff_ne.mpr (UInt16.ne_of_lt hpos).symm
  | maximumPacketSize =>
    have hpos : 0 < p.maximumPacketSize := of_decide_eq_true hwritten
    exact beq_eq_false_iff_ne.mpr (UInt32.ne_of_lt hpos).symm
  | _ => rfl

variable {seen : List PropertyKey}

theorem decodeProperty_eq {value : Bytes} {q : Properties} {next : ℕ} (hcan : canEncode pkt k)
    (hseen : (seen.contains k && !mayRepeat pkt k) = false) (h : At bt offset (k.toByte :: value))
    (hvalue : acc.decodeValue bt (offset + 1) k = .ok (q, next)) (hvalid : q.invalidValue k = false) :
    decodeProperty pkt bt (acc, seen) offset = .ok ((q, k :: seen), next) := by
  have hcontains : (validPacketProperties k).contains pkt = true := hcan
  apply (bind_eq_ok).mpr
  refine ⟨(k.toByte, offset + 1), decodeByte_cons h, ?_⟩
  dsimp only
  rw [PropertyKey.ofByte_toByte]
  dsimp only
  rw [hcontains, hseen, Bool.not_true, if_neg Bool.false_ne_true, if_neg Bool.false_ne_true]
  apply (bind_eq_ok).mpr
  refine ⟨(q, next), hvalue, ?_⟩
  dsimp only
  rw [hvalid, if_neg Bool.false_ne_true]
  rfl

theorem decodeProperty_single (hk : k.single)
    (hcan : canEncode pkt k) (hwritten : p.written mods n k) (hvalid : p.ValidValue pkt k)
    (hseen : k ∉ seen) (h : At bt offset (k.toByte :: p.valueBytes k ++ rest)) :
    decodeProperty pkt bt (acc, seen) offset =
      .ok ((p.copyTo acc k, k :: seen), offset + (k.toByte :: p.valueBytes k).length) := by
  rw [cons_append] at h
  have hnext : At bt (offset + 1) (p.valueBytes k ++ rest) := h.tail
  have hdup : seen.contains k = false := by simpa using hseen
  apply decodeProperty_eq hcan (by rw [hdup, Bool.false_and]) h
  · rw [decodeValue_valueBytes hk hvalid hnext, length_cons, Nat.add_assoc,
      Nat.add_comm 1]
  · exact copyTo_valid hk hvalid hwritten

theorem decodeProperty_identifier {v : ℕ}
    (hcan : canEncode pkt .subscriptionIdentifier) (hv : 1 ≤ v ∧ v ≤ 268435455)
    (hseen : pkt = .publish ∨ .subscriptionIdentifier ∉ seen)
    (h : At bt offset ((PropertyKey.subscriptionIdentifier.toByte :: encodeLength v) ++ rest)) :
    decodeProperty pkt bt (acc, seen) offset =
      .ok (({ acc with subscriptionIdentifier := acc.subscriptionIdentifier ++ [v] },
        .subscriptionIdentifier :: seen), offset + 1 + (encodeLength v).length) := by
  rw [cons_append] at h
  have hnext : At bt (offset + 1) (encodeLength v ++ rest) := h.tail
  have hdup : (seen.contains .subscriptionIdentifier && !mayRepeat pkt .subscriptionIdentifier) =
      false := by
    rcases hseen with rfl | hseen
    · simp [mayRepeat]
    · have : seen.contains PropertyKey.subscriptionIdentifier = false := by simpa using hseen
      rw [this, Bool.false_and]
  apply decodeProperty_eq hcan hdup h
  · exact (bind_eq_ok).mpr ⟨_, hnext.sliceFrom_eq, (bind_eq_ok).mpr
      ⟨_, decodeLength_encode hv.2 rest, rfl⟩⟩
  · have : v ≠ 0 := by omega
    simp [Properties.invalidValue, this]

theorem decodeProperty_user {u : UserProperty}
    (hcan : canEncode pkt .user) (hkey : Encodable u.key) (hval : Encodable u.val)
    (h : At bt offset (u.encode ++ rest)) : decodeProperty pkt bt (acc, seen) offset =
      .ok (({ acc with user := acc.user ++ [u] }, .user :: seen), offset + u.encode.length) := by
  have hlength : offset + u.encode.length =
      offset + 1 + (2 + u.key.length) + (2 + u.val.length) := by
    rw [UserProperty.encode, length_cons, length_append, encodeString_length,
      encodeString_length]
    omega
  rw [UserProperty.encode, cons_append, append_assoc] at h
  have hk : At bt (offset + 1) (encodeString u.key ++ (encodeString u.val ++ rest)) :=
    h.tail
  have hv := hk.next
  rw [encodeString_length] at hv
  apply decodeProperty_eq hcan (by simp [mayRepeat]) h
  · rw [hlength]
    exact (bind_eq_ok).mpr ⟨_, decodeString_encode hkey.1 hkey.2 hk, (bind_eq_ok).mpr
      ⟨_, decodeString_encode hval.1 hval.2 hv, rfl⟩⟩
  · rfl

/-- From here the property loop ends with the record `final`. -/
def Ends (pkt : PacketType) (bt : Bytes) (acc : Properties) (seen : List PropertyKey)
    (offset : ℕ) (final : Properties) : Prop :=
  ∃ seen', Yields bt.length (decodeProperty pkt bt) (acc, seen) offset (final, seen')

variable {final : Properties}

theorem ends_step {acc' : Properties} {next : ℕ}
    (hstep : decodeProperty pkt bt (acc, seen) offset = .ok ((acc', k :: seen), next))
    (hlt : offset < next) (hle : next ≤ bt.length)
    (h : Ends pkt bt acc' (k :: seen) next final) : Ends pkt bt acc seen offset final := by
  obtain ⟨seen', h⟩ := h
  exact ⟨seen', yields_step (by omega) hstep hlt h⟩

theorem users_end (hcan : canEncode pkt .user) (users : List UserProperty) :
    ∀ (acc : Properties) seen offset, (∀ u ∈ users, Encodable u.key ∧ Encodable u.val) →
      At bt offset (users.flatMap UserProperty.encode ++ rest) →
      (∀ seen', (∀ k ∈ seen', k = .user ∨ k ∈ seen) →
        Ends pkt bt { acc with user := acc.user ++ users } seen'
          (offset + (users.flatMap UserProperty.encode).length) final) →
      Ends pkt bt acc seen offset final := by
  induction users with
  | nil =>
    intro acc seen offset _ _ hrest
    have := hrest seen fun k hk => Or.inr hk
    simpa using this
  | cons u users ih =>
    intro acc seen offset hvalid h hrest
    obtain ⟨⟨hkey, hval⟩, hvalid⟩ := forall_mem_cons.mp hvalid
    rw [flatMap_cons, append_assoc] at h
    have hnext := h.next
    have hle := hnext.length_le
    have hpos : 0 < u.encode.length := Nat.succ_pos _
    apply ends_step (decodeProperty_user hcan hkey hval h) (by omega) (by omega)
    apply ih _ _ _ hvalid hnext
    intro seen' hseen'
    have := hrest seen' (by
      intro k hk
      rcases hseen' k hk with hk | hk
      · exact Or.inl hk
      · exact mem_cons.mp hk)
    rw [flatMap_cons, length_append, ← Nat.add_assoc] at this
    simpa using this

theorem identifiers_end (hcan : canEncode pkt .subscriptionIdentifier)
    (ids : List ℕ) : ∀ (acc : Properties) seen offset, (∀ v ∈ ids, 1 ≤ v ∧ v ≤ 268435455) →
      (pkt = .publish ∨ (.subscriptionIdentifier ∉ seen ∧ ids.length ≤ 1)) →
      At bt offset (({ subscriptionIdentifier := ids } : Properties).identifierBytes ++ rest) →
      (∀ seen', (∀ k ∈ seen', k = .subscriptionIdentifier ∨ k ∈ seen) →
        Ends pkt bt { acc with subscriptionIdentifier := acc.subscriptionIdentifier ++ ids } seen'
          (offset + ({ subscriptionIdentifier := ids } : Properties).identifierBytes.length)
          final) →
      Ends pkt bt acc seen offset final := by
  induction ids with
  | nil =>
    intro acc seen offset _ _ _ hrest
    have := hrest seen fun k hk => Or.inr hk
    simpa [Properties.identifierBytes] using this
  | cons v ids ih =>
    intro acc seen offset hvalid honce h hrest
    obtain ⟨hv, hvalid⟩ := forall_mem_cons.mp hvalid
    have hbytes : ({ subscriptionIdentifier := v :: ids } : Properties).identifierBytes =
        (PropertyKey.subscriptionIdentifier.toByte :: encodeLength v) ++
          ({ subscriptionIdentifier := ids } : Properties).identifierBytes := by
      rw [Properties.identifierBytes, flatMap_cons, if_pos (by omega)]
      rfl
    rw [hbytes] at h hrest
    rw [append_assoc] at h
    have hnext := h.next
    rw [length_cons, Nat.add_comm _ 1, ← Nat.add_assoc] at hnext
    have hle := hnext.length_le
    apply ends_step (decodeProperty_identifier hcan hv (honce.imp id And.left) h) (by omega)
      (by omega)
    have hlast : pkt = .publish ∨ ids = [] := by
      rcases honce with hpub | ⟨_, hlen⟩
      · exact Or.inl hpub
      · rw [length_cons] at hlen
        exact Or.inr (eq_nil_of_length_eq_zero (by omega))
    have hgoal : ∀ seen', (∀ k ∈ seen', k = .subscriptionIdentifier ∨
        k ∈ PropertyKey.subscriptionIdentifier :: seen) →
        Ends pkt bt { acc with subscriptionIdentifier := acc.subscriptionIdentifier ++ [v] ++ ids } seen'
          (offset + 1 + (encodeLength v).length +
            ({ subscriptionIdentifier := ids } : Properties).identifierBytes.length) final := by
      intro seen' hseen'
      have := hrest seen' (by
        intro k hk
        rcases hseen' k hk with hk | hk
        · exact Or.inl hk
        · exact mem_cons.mp hk)
      rw [length_append, length_cons, Nat.add_comm (encodeLength v).length 1,
        ← Nat.add_assoc, ← Nat.add_assoc] at this
      simpa using this
    rcases hlast with hpub | rfl
    · exact ih _ _ _ hvalid (Or.inl hpub) hnext hgoal
    · have := hgoal (.subscriptionIdentifier :: seen) fun k hk => Or.inr hk
      simpa [Properties.identifierBytes] using this

theorem encodeProperty_single (hk : k.single) : p.encodeProperty pkt mods n k =
      if p.sends pkt mods n k then k.toByte :: p.valueBytes k else [] := by
  cases k with
  | subscriptionIdentifier => exact absurd rfl hk.1
  | user => exact absurd rfl hk.2
  | _ => rfl

section

variable (hvalid : p.Valid pkt)
include hvalid

theorem segment_ends (hseen : k ∉ seen) (h : At bt offset (p.encodeProperty pkt mods n k ++ rest))
    (hrest : ∀ seen', (∀ j ∈ seen', j = k ∨ j ∈ seen) →
      Ends pkt bt (if p.sends pkt mods n k then p.copyTo acc k else acc) seen'
        (offset + (p.encodeProperty pkt mods n k).length) final) :
    Ends pkt bt acc seen offset final := by
  by_cases hsends : p.sends pkt mods n k
  · obtain ⟨hcan, hwritten⟩ := Bool.and_eq_true_iff.mp hsends
    have hv := hvalid k hcan
    simp only [if_pos hsends] at hrest
    by_cases hids : k = .subscriptionIdentifier
    · subst hids
      have hbytes : p.encodeProperty pkt mods n .subscriptionIdentifier = p.identifierBytes :=
        if_pos hsends
      rw [hbytes] at h hrest
      apply identifiers_end hcan p.subscriptionIdentifier acc seen offset hv.1 _ h hrest
      by_cases hpub : pkt = .publish
      · exact Or.inl hpub
      · exact Or.inr ⟨hseen, hv.2 hpub⟩
    by_cases huser : k = .user
    · subst huser
      have hbytes : p.encodeProperty pkt mods n .user = p.userBytes := if_pos hsends
      rw [hbytes] at h hrest
      exact users_end hcan p.user acc seen offset hv h hrest
    · rw [encodeProperty_single ⟨hids, huser⟩, if_pos hsends] at h hrest
      have hle := h.next.length_le
      apply ends_step (decodeProperty_single ⟨hids, huser⟩ hcan hwritten hv hseen h)
        (Nat.lt_add_of_pos_right (Nat.succ_pos _)) (by omega)
      exact hrest _ fun j hj => mem_cons.mp hj
  · have hbytes : p.encodeProperty pkt mods n k = [] := if_neg hsends
    rw [hbytes] at hrest
    simp only [if_neg hsends] at hrest
    exact hrest seen fun j hj => Or.inr hj

theorem fold_ends (ks : List PropertyKey) :
    ∀ (acc : Properties) seen offset, ks.Nodup → (∀ k ∈ ks, k ∉ seen) →
      At bt offset (ks.flatMap (p.encodeProperty pkt mods n)) →
      Ends pkt bt acc seen offset
        (ks.foldl (fun acc k => if p.sends pkt mods n k then p.copyTo acc k else acc) acc) := by
  induction ks with
  | nil =>
    intro acc seen offset _ _ h
    have hlen := h.length_le
    rw [flatMap_nil, length_nil] at hlen
    exact ⟨seen, yields_done (by omega)⟩
  | cons k ks ih =>
    intro acc seen offset hnodup hseen h
    obtain ⟨hk, hnodup⟩ := nodup_cons.mp hnodup
    rw [flatMap_cons] at h
    apply segment_ends hvalid (hseen k mem_cons_self) h
    intro seen' hseen'
    apply ih _ _ _ hnodup _ h.next
    intro j hj hmem
    rcases hseen' j hmem with rfl | hmem
    · exact hk hj
    · exact hseen j (mem_cons_of_mem k hj) hmem

theorem encodeAll_ends (mods : Mods) (n : ℕ) :
    Ends pkt (p.encodeAll pkt mods n) {} [] 0 (p.sent pkt mods n) :=
  fold_ends hvalid propertyOrder {} [] 0 (by decide) (fun k _ => not_mem_nil) (at_zero _)

theorem Properties.sent_of_empty (hempty : (p.encodeAll pkt mods n).length = 0) : p.sent pkt mods n = {} := by
  obtain ⟨seen, hloop⟩ := encodeAll_ends hvalid mods n
  have h := hloop 0 (by omega)
  rw [hempty, readWhile, if_neg (Nat.lt_irrefl 0), Except.ok.injEq, Prod.mk.injEq] at h
  exact h.1.symm

theorem Properties.decode_encode (hlen : (p.encodeAll pkt mods n).length ≤ 268435455) :
    ({} : Properties).decode pkt (p.encode pkt mods n ++ rest) =
      .ok (p.sent pkt mods n, (p.encode pkt mods n).length) := by
  obtain ⟨seen, hloop⟩ := encodeAll_ends hvalid mods n
  have hdrop : (p.encode pkt mods n ++ rest).drop
      (encodeLength (p.encodeAll pkt mods n).length).length = p.encodeAll pkt mods n ++ rest := by
    rw [Properties.encode, append_assoc, drop_left]
  have htotal : (p.encode pkt mods n).length = (p.encodeAll pkt mods n).length +
      (encodeLength (p.encodeAll pkt mods n).length).length := by
    rw [Properties.encode, length_append, Nat.add_comm]
  apply (bind_eq_ok).mpr
  refine ⟨((p.encodeAll pkt mods n).length,
    (encodeLength (p.encodeAll pkt mods n).length).length), ?_, ?_⟩
  · rw [Properties.encode, append_assoc]
    exact decodeLength_encode hlen _
  dsimp only
  rw [hdrop, ← htotal]
  by_cases hzero : (p.encodeAll pkt mods n).length = 0
  · rw [if_pos hzero]
    rw [Properties.sent_of_empty hvalid hzero]
    rfl
  · rw [if_neg hzero, if_neg (by rw [length_append]; omega),
      slice_of_le (Nat.zero_le _) (by rw [length_append]; omega), drop_zero,
      take_left]
    apply (bind_eq_ok).mpr
    refine ⟨_, rfl, (bind_eq_ok).mpr ⟨_, hloop _ (by omega), ?_⟩⟩
    rfl

end

theorem mem_propertyOrder (k : PropertyKey) : k ∈ propertyOrder := by
  cases k <;> decide

theorem value_copyTo_ne {j : PropertyKey} (h : j ≠ k) : (p.copyTo acc k).value j = acc.value j := by
  cases k <;> cases j <;> first | rfl | exact absurd rfl h

theorem value_copyTo_self (hacc : acc.value k = ({} : Properties).value k)
    (hwritten : p.written mods n k) : (p.copyTo acc k).value k = p.value k := by
  have hset : ∀ {flag : Bool} {v : ℕ}, flag = true →
      PropertyValue.flagged (some v) = .flagged (if flag then some v else none) := by
    rintro flag v rfl
    rfl
  cases k with
  | payloadFormat | sessionExpiryInterval | serverKeepAlive | requestProblemInfo | retainAvailable |
    wildcardSubAvailable | subIDAvailable | sharedSubAvailable => exact hset hwritten
  | topicAlias | maximumQos => exact hset (Bool.and_eq_true_iff.mp hwritten).1
  | subscriptionIdentifier =>
    have hnil : acc.subscriptionIdentifier = [] := PropertyValue.identifiers.inj hacc
    rw [Properties.value, Properties.copyTo, hnil]
    rfl
  | user =>
    have hnil : acc.user = [] := PropertyValue.pairs.inj hacc
    rw [Properties.value, Properties.copyTo, hnil]
    rfl
  | _ => rfl

private theorem fold_value_notMem (ks : List PropertyKey) : ∀ acc : Properties, k ∉ ks →
    (ks.foldl (fun acc k => if p.sends pkt mods n k then p.copyTo acc k else acc) acc).value k =
      acc.value k := by
  induction ks with
  | nil =>
    intro acc _
    rfl
  | cons j ks ih =>
    intro acc hk
    rw [mem_cons, not_or] at hk
    obtain ⟨hkj, hk⟩ := hk
    rw [foldl_cons, ih _ hk]
    split
    · exact value_copyTo_ne hkj
    · rfl

theorem fold_value (ks : List PropertyKey) : ∀ acc : Properties, ks.Nodup →
    acc.value k = ({} : Properties).value k →
    (ks.foldl (fun acc k => if p.sends pkt mods n k then p.copyTo acc k else acc) acc).value k =
      if k ∈ ks ∧ p.sends pkt mods n k then p.value k else ({} : Properties).value k := by
  induction ks with
  | nil =>
    intro acc _ hacc
    rw [if_neg (fun h => not_mem_nil h.1)]
    exact hacc
  | cons j ks ih =>
    intro acc hnodup hacc
    obtain ⟨hj, hnodup⟩ := nodup_cons.mp hnodup
    rw [foldl_cons]
    by_cases hjk : j = k
    · subst hjk
      rw [fold_value_notMem ks _ hj]
      by_cases hsends : p.sends pkt mods n j
      · rw [if_pos hsends, if_pos ⟨mem_cons_self, hsends⟩]
        exact value_copyTo_self hacc (Bool.and_eq_true_iff.mp hsends).2
      · rw [if_neg hsends, if_neg (fun h => hsends h.2)]
        exact hacc
    · have hmem : k ∈ j :: ks ↔ k ∈ ks := by
        rw [mem_cons]
        exact or_iff_right fun h => hjk h.symm
      rw [ih _ hnodup]
      · simp only [hmem]
      · split
        · rw [value_copyTo_ne fun h => hjk h.symm, hacc]
        · exact hacc

/-- The decoded record says of each property what the written one said, when it was written,
and that it is absent otherwise. -/
theorem Properties.sent_value (p : Properties) (pkt : PacketType) (mods : Mods) (n : ℕ)
    (k : PropertyKey) : (p.sent pkt mods n).value k =
      if p.sends pkt mods n k then p.value k else ({} : Properties).value k := by
  rw [Properties.sent, fold_value propertyOrder {} (by decide) rfl]
  simp only [mem_propertyOrder, true_and]

/-- No limit on the size of the packet, nothing withheld. -/
@[grind =] def unrestricted : Mods := { allowResponseInfo := true }

/-- Without restrictions every property that the packet type allows is written, when it is
there at all. -/
theorem Properties.value_of_not_written (hvalid : p.ValidValue pkt k)
    (hwritten : p.written unrestricted n k = false) : p.value k = ({} : Properties).value k := by
  have hunset : ∀ {flag : Bool} {v : ℕ}, flag = false →
      PropertyValue.flagged (if flag then some v else none) = .flagged none := by
    rintro flag v rfl
    rfl
  have hand : ∀ {flag cond : Bool}, (flag = true → cond = true) → (flag && cond) = false → flag = false := by
    decide
  cases k with
  | payloadFormat | sessionExpiryInterval | serverKeepAlive | requestProblemInfo | retainAvailable |
    wildcardSubAvailable | subIDAvailable | sharedSubAvailable => exact hunset hwritten
  | topicAlias | maximumQos => exact hunset (hand (fun hflag => decide_eq_true (hvalid hflag)) hwritten)
  | messageExpiryInterval | willDelayInterval | maximumPacketSize =>
    have hzero := UInt32.le_zero_iff.mp (UInt32.not_lt.mp (of_decide_eq_false hwritten))
    rw [Properties.value, hzero]
    rfl
  | receiveMaximum | topicAliasMaximum =>
    have hzero := UInt16.le_zero_iff.mp (UInt16.not_lt.mp (of_decide_eq_false hwritten))
    rw [Properties.value, hzero]
    rfl
  | requestResponseInfo =>
    have hzero := UInt8.le_zero_iff.mp (UInt8.not_lt.mp (of_decide_eq_false hwritten))
    rw [Properties.value, hzero]
    rfl
  | contentType | correlationData | assignedClientID | authenticationMethod | authenticationData |
    responseInfo | serverReference | reasonString =>
    exact congrArg PropertyValue.bytes (by simpa [Properties.written, unrestricted, Mods.fits] using hwritten)
  | responseTopic =>
    exact congrArg PropertyValue.bytes
      (by simpa [Properties.written, unrestricted, hvalid.2] using hwritten)
  | subscriptionIdentifier =>
    exact congrArg PropertyValue.identifiers (by simpa [Properties.written] using hwritten)
  | user => cases hwritten

/-- Without restrictions the decoded record says of every property that the packet type
allows what the encoded one said. -/
theorem Properties.sent_value_unrestricted (hvalid : p.Valid pkt)
    (hcan : canEncode pkt k) : (p.sent pkt unrestricted n).value k = p.value k := by
  rw [Properties.sent_value]
  by_cases hwritten : p.written unrestricted n k
  · have hsends : p.sends pkt unrestricted n k := Bool.and_eq_true_iff.mpr ⟨hcan, hwritten⟩
    rw [if_pos hsends]
  · have hsends : ¬ p.sends pkt unrestricted n k := fun h =>
      hwritten (Bool.and_eq_true_iff.mp h).2
    rw [if_neg hsends]
    exact (Properties.value_of_not_written (hvalid k hcan)
      (Bool.eq_false_iff.mpr hwritten)).symm

end Properties

end MonsterMQ.Packets
