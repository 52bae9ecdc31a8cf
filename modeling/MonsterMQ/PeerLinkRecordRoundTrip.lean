import MonsterMQ.PeerLinkRecord

/-!
# Records round-trip

The decoder reads back every part of a laid out record, the property block included,
and a decoded record can be encoded again unless it is a tombstone with an overlong
property value.
-/

namespace MonsterMQ.PeerLink

open LittleEndian List

/-- The parts of a record in their order. `times` holds the two times, the expiry and
the payload format. -/
structure Layout where
  flags : UInt16
  times : Bytes
  topic : Bytes
  clientID : Bytes
  username : Bytes
  props : Bytes
  payload : Bytes

namespace Layout

@[grind =] def size (a : Layout) : ℕ :=
  44 + a.topic.length + a.clientID.length + a.username.length + a.props.length + a.payload.length

@[grind =] def body (a : Layout) : Bytes := a.topic ++ a.clientID ++ a.username ++ a.props ++ a.payload

@[grind =] def bytes (a : Layout) : Bytes :=
  put32 (UInt32.ofNat (a.size - 4)) ++ [recordVersion, UInt8.ofNat recordHeaderLen] ++ put16 a.flags ++
    a.times ++ [0] ++ put16 (UInt16.ofNat a.topic.length) ++ put16 (UInt16.ofNat a.clientID.length) ++
    put16 (UInt16.ofNat a.username.length) ++ put32 (UInt32.ofNat a.props.length) ++
    put32 (UInt32.ofNat a.payload.length) ++ a.body

structure Fits (a : Layout) : Prop where
  times : a.times.length = 21
  topic : a.topic.length ≤ maxStringLen
  clientID : a.clientID.length ≤ maxStringLen
  username : a.username.length ≤ maxStringLen
  size : a.size - 4 ≤ maxUint32

@[grind =] def view (a : Layout) : RecordView :=
  { frame := a.bytes
    version := recordVersion
    hdrLen := 44
    flags := a.flags
    publishWallNs := (get64 a.times).toInt64
    captureMonoMs := get64 (a.times.drop 8)
    expirySec := get32 (a.times.drop 16)
    payloadFormat := a.times.getD 20 0
    topic := a.topic
    clientID := a.clientID
    username := a.username
    props := a.props
    payload := a.payload
    unknownProps := 0 }

variable {a : Layout}

theorem bytes_length (h : a.Fits) : a.bytes.length = a.size := by
  simp only [bytes, body, size, length_append, put32_length, put16_length, h.times,
    length_cons, length_nil]
  omega

private theorem decodeHeader_bytes (h : a.Fits) : decodeHeader a.bytes =
    { a.view with topic := [], clientID := [], username := [], props := [], payload := [] } := by
  have h8 : 8 ≤ (a.times.drop 8).length := by simp [h.times]
  have h16 : 4 ≤ (a.times.drop 16).length := by simp [h.times]
  have h0 : 8 ≤ a.times.length := by simp [h.times]
  simp [decodeHeader, view, bytes, RecordView.zero, drop_append, drop_of_length_le,
    List.getElem?_append, h.times, get64_append h0, get64_append h8, get32_append h16, recordHeaderLen]

theorem drop_header (h : a.Fits) (k : ℕ) : a.bytes.drop (44 + k) = a.body.drop k := by
  have h44 : a.bytes.drop 44 = a.body := by
    simp [bytes, drop_append, drop_of_length_le, h.times]
  rw [← drop_drop, h44]

theorem lengths (h : a.Fits) : (∀ tail, 4 + (get32 (a.bytes ++ tail)).toNat = a.size) ∧
      (get16 (a.bytes.drop 30)).toNat = a.topic.length ∧
      (get16 (a.bytes.drop 32)).toNat = a.clientID.length ∧
      (get16 (a.bytes.drop 34)).toNat = a.username.length ∧
      (get32 (a.bytes.drop 36)).toNat = a.props.length ∧
      (get32 (a.bytes.drop 40)).toNat = a.payload.length := by
  have hsize := h.size
  have htopic := h.topic
  have hclient := h.clientID
  have huser := h.username
  simp only [maxUint32, maxStringLen] at hsize htopic hclient huser
  have hge : a.size = 44 + a.topic.length + a.clientID.length + a.username.length + a.props.length +
    a.payload.length := rfl
  refine ⟨?_, ?_, ?_, ?_, ?_, ?_⟩
  · intro tail
    have : get32 (a.bytes ++ tail) = UInt32.ofNat (a.size - 4) := by
      simp only [bytes, append_assoc, get32_put32_append]
    rw [this, toNat_ofNat32 (by omega)]
    omega
  · have : get16 (a.bytes.drop 30) = UInt16.ofNat a.topic.length := by
      simp [bytes, drop_append, drop_of_length_le, h.times]
    rw [this, toNat_ofNat16 (by omega)]
  · have : get16 (a.bytes.drop 32) = UInt16.ofNat a.clientID.length := by
      simp [bytes, drop_append, drop_of_length_le, h.times]
    rw [this, toNat_ofNat16 (by omega)]
  · have : get16 (a.bytes.drop 34) = UInt16.ofNat a.username.length := by
      simp [bytes, drop_append, drop_of_length_le, h.times]
    rw [this, toNat_ofNat16 (by omega)]
  · have : get32 (a.bytes.drop 36) = UInt32.ofNat a.props.length := by
      simp [bytes, drop_append, drop_of_length_le, h.times]
    rw [this, toNat_ofNat32 (by omega)]
  · have : get32 (a.bytes.drop 40) = UInt32.ofNat a.payload.length := by
      simp [bytes, drop_append, drop_of_length_le, h.times]
    rw [this, toNat_ofNat32 (by omega)]

theorem decodeRecord_bytes (h : a.Fits) (tail : Bytes) :
    decodeRecord (a.bytes ++ tail) = checkContent a.view := by
  have hlen := bytes_length h
  obtain ⟨hn, htl, hcl, hul, hpr, hpl⟩ := lengths h
  have hge : a.size = 44 + a.topic.length + a.clientID.length + a.username.length + a.props.length +
    a.payload.length := rfl
  have htake : (a.bytes ++ tail).take a.size = a.bytes := by
    rw [← hlen, take_left]
  unfold decodeRecord
  simp only [hn tail, length_append, hlen, htake, decodeHeader_bytes h, htl, hcl, hul, hpr, hpl]
  rw [if_neg (by omega), if_neg (by omega), if_neg (by simp only [recordHeaderLen]; omega)]
  rw [if_neg (by simp [view])]
  have h44 : (UInt8.toNat (44 : UInt8)) = 44 := rfl
  simp only [view, h44]
  rw [if_neg (by simp [recordHeaderLen]), if_neg (by omega)]
  simp only [Nat.add_assoc, drop_header h, show a.bytes.drop 44 = a.body from drop_header h 0]
  simp [body, drop_append, drop_of_length_le]

end Layout

private theorem putTLV_length (id : UInt8) (v : Bytes) : (putTLV id v).length = tlvSize v.length := by
  unfold putTLV tlvSize
  by_cases hv : v.length = 0
  · rw [if_pos hv, if_neg (by omega)]
    rfl
  · rw [if_neg hv, if_pos (by omega)]
    simp [tlvHeaderLen]
    omega

private theorem putUserProperty_length (u : UserProperty) :
    (putUserProperty u).length = tlvHeaderLen + 2 + u.key.length + u.val.length := by
  simp [putUserProperty, tlvHeaderLen]
  omega

theorem putProps_length (r : Record) : (putProps r).length =
    tlvSize r.contentType.length + tlvSize r.responseTopic.length +
      tlvSize r.correlationData.length +
      (r.user.map (fun u => tlvHeaderLen + 2 + u.key.length + u.val.length)).sum := by
  simp only [putProps, length_append, putTLV_length, length_flatMap]
  congr 2
  apply map_congr_left
  intro u _
  exact putUserProperty_length u

structure PropsFit (r : Record) : Prop where
  contentType : r.contentType.length ≤ maxStringLen
  responseTopic : r.responseTopic.length ≤ maxStringLen
  correlationData : r.correlationData.length ≤ maxStringLen
  user : ∀ u ∈ r.user, u.key.length ≤ maxStringLen ∧ u.val.length ≤ maxStringLen
  size : (putProps r).length ≤ maxUint32

variable {r : Record}

theorem propsSize_eq_some {n : ℕ} : propsSize r = some n ↔ PropsFit r ∧ n = (putProps r).length := by
  unfold propsSize
  rw [← putProps_length]
  constructor
  · intro h
    split at h
    · cases h
    split at h
    · cases h
    split at h
    · cases h
    split at h
    · cases h
    rename_i h1 h2 h3 h4
    simp only at h
    split at h
    · rename_i hsize
      simp only [Option.some.injEq] at h
      refine ⟨⟨by omega, by omega, by omega, ?_, hsize⟩, h.symm⟩
      intro u hu
      simp only [any_eq_true, Bool.or_eq_true, decide_eq_true_eq, not_exists, not_and, not_or,
        not_lt] at h4
      exact h4 u hu
    · cases h
  · rintro ⟨h, rfl⟩
    have huser : ¬ (r.user.any (fun u => u.key.length > maxStringLen || u.val.length > maxStringLen)) =
        true := by
      simp only [any_eq_true, Bool.or_eq_true, decide_eq_true_eq, not_exists, not_and, not_or,
        not_lt]
      exact h.user
    rw [if_neg (not_lt.mpr h.contentType), if_neg (not_lt.mpr h.responseTopic),
      if_neg (not_lt.mpr h.correlationData), if_neg huser]
    simp only
    rw [if_pos h.size]

private theorem propNext_cons (id : UInt8) {v : Bytes} (hv : v.length < 2 ^ 32) (rest : Bytes) :
    propNext (id :: (put32 (UInt32.ofNat v.length) ++ (v ++ rest))) = some (id, v, rest) := by
  unfold propNext
  simp only [get32_put32_append, toNat_ofNat32 hv, length_cons, length_append, put32_length,
    tlvHeaderLen]
  rw [if_neg (by omega), if_neg (by omega)]
  have hdrop : ∀ k, (id :: (put32 (UInt32.ofNat v.length) ++ (v ++ rest))).drop (5 + k) =
      (v ++ rest).drop k := by
    intro k
    rw [← drop_drop]
    rfl
  rw [hdrop, drop_left]
  rw [show (id :: (put32 (UInt32.ofNat v.length) ++ (v ++ rest))).drop 5 = v ++ rest from hdrop 0,
    take_left]

theorem splitUserProperty_put {u : UserProperty} (hk : u.key.length ≤ maxStringLen) :
    splitUserProperty (put16 (UInt16.ofNat u.key.length) ++ (u.key ++ u.val)) = some (u.key, u.val) := by
  unfold splitUserProperty
  simp only [maxStringLen] at hk
  simp only [get16_put16_append, toNat_ofNat16 (show u.key.length < 2 ^ 16 by omega), length_append,
    put16_length]
  rw [if_neg (by omega), if_neg (by omega)]
  have hdrop : ∀ k, (put16 (UInt16.ofNat u.key.length) ++ (u.key ++ u.val)).drop (2 + k) =
      (u.key ++ u.val).drop k := by
    intro k
    rw [← drop_drop]
    rfl
  rw [hdrop, drop_left, show (put16 (UInt16.ofNat u.key.length) ++ (u.key ++ u.val)).drop 2 =
    u.key ++ u.val from hdrop 0, take_left]

@[grind =] def UserProperty.value (u : UserProperty) : Bytes :=
  put16 (UInt16.ofNat u.key.length) ++ (u.key ++ u.val)

private theorem putUserProperty_eq (u : UserProperty) : putUserProperty u =
    propUserProperty :: (put32 (UInt32.ofNat u.value.length) ++ u.value) := by
  simp [putUserProperty, UserProperty.value, Nat.add_assoc]

abbrev Tlv := UInt8 × Bytes

@[grind =] def Tlv.bytes (t : Tlv) : Bytes := t.1 :: (put32 (UInt32.ofNat t.2.length) ++ t.2)

@[grind =] def Record.tlvs (r : Record) : List Tlv :=
  (if r.contentType.length = 0 then [] else [(propContentType, r.contentType)]) ++
    (if r.responseTopic.length = 0 then [] else [(propResponseTopic, r.responseTopic)]) ++
    (if r.correlationData.length = 0 then [] else [(propCorrelationData, r.correlationData)]) ++
    r.user.map (fun u => (propUserProperty, u.value))

theorem putProps_eq (r : Record) : putProps r = r.tlvs.flatMap Tlv.bytes := by
  have htlv : ∀ id v, putTLV id v =
      (if v.length = 0 then ([] : List Tlv) else [(id, v)]).flatMap Tlv.bytes := by
    intro id v
    unfold putTLV
    split <;> simp [Tlv.bytes]
  have huser : r.user.flatMap putUserProperty =
      (r.user.map (fun u => (propUserProperty, u.value))).flatMap Tlv.bytes := by
    rw [flatMap_map]
    exact congrArg (fun f => r.user.flatMap f) (funext putUserProperty_eq)
  rw [putProps, Record.tlvs, flatMap_append, flatMap_append, flatMap_append, ← htlv,
    ← htlv, ← htlv, huser]

theorem propNext_bytes {t : Tlv} (h : t.2.length < 2 ^ 32) (rest : Bytes) :
    propNext (t.bytes ++ rest) = some (t.1, t.2, rest) := by
  rw [Tlv.bytes, cons_append, append_assoc]
  exact propNext_cons t.1 h rest

theorem propNext_nil : propNext [] = none := rfl

variable {b : Bytes}

theorem collect_of_next {p : Properties} {val rest : Bytes} {id : UInt8}
    (h : propNext b = some (id, val, rest)) : p.collect b = (p.put id val).collect rest := by
  rw [Properties.collect]
  split
  · rename_i hnone
    rw [h] at hnone
    cases hnone
  · rename_i hsome
    rw [h] at hsome
    cases hsome
    rfl

theorem collect_of_none {p : Properties} (h : propNext b = none) : p.collect b = p := by
  rw [Properties.collect]
  split
  · rfl
  · rename_i hsome
    rw [h] at hsome
    cases hsome

private theorem collect_tlvs {ts : List Tlv} (h : ∀ t ∈ ts, t.2.length < 2 ^ 32) (p : Properties) :
    p.collect (ts.flatMap Tlv.bytes) = ts.foldl (fun p t => p.put t.1 t.2) p := by
  induction ts generalizing p with
  | nil => exact collect_of_none rfl
  | cons t ts ih =>
    rw [flatMap_cons, collect_of_next (propNext_bytes (h t mem_cons_self) _)]
    exact ih (fun t' ht => h t' (mem_cons_of_mem _ ht)) _

theorem validateLoop_of_next {n : ℕ} {val rest : Bytes} {id : UInt8}
    (h : propNext b = some (id, val, rest)) : validateLoop n b =
      match checkProp id val with
      | none => validateLoop (n + 1) rest
      | some (some e) => (n, some e)
      | some none => validateLoop n rest := by
  have hb : b.length ≠ 0 := by
    have := propNext_length h
    omega
  rw [validateLoop, if_neg hb]
  split
  · rename_i hnone
    rw [h] at hnone
    cases hnone
  · rename_i hsome
    rw [h] at hsome
    cases hsome
    rfl

private theorem validateLoop_tlvs {ts : List Tlv} (h : ∀ t ∈ ts, t.2.length < 2 ^ 32)
    (hcheck : ∀ t ∈ ts, checkProp t.1 t.2 = some none) (n : ℕ) :
    validateLoop n (ts.flatMap Tlv.bytes) = (n, none) := by
  induction ts with
  | nil =>
    rw [validateLoop]
    rfl
  | cons t ts ih =>
    rw [flatMap_cons, validateLoop_of_next (propNext_bytes (h t mem_cons_self) _),
      hcheck t mem_cons_self]
    exact ih (fun t' ht => h t' (mem_cons_of_mem _ ht))
      (fun t' ht => hcheck t' (mem_cons_of_mem _ ht))

theorem UserProperty.value_length (u : UserProperty) : u.value.length = 2 + u.key.length + u.val.length := by
  simp [UserProperty.value]
  omega

theorem PropsFit.tlvs_lt (h : PropsFit r) : ∀ t ∈ r.tlvs, t.2.length < 2 ^ 32 := by
  have hct := h.contentType
  have hrt := h.responseTopic
  have hcd := h.correlationData
  simp only [maxStringLen] at hct hrt hcd
  intro t ht
  simp only [Record.tlvs, mem_append, mem_map] at ht
  rcases ht with ((ht | ht) | ht) | ⟨u, hu, rfl⟩
  · split at ht
    · cases ht
    · rw [mem_singleton.mp ht]
      simp only
      omega
  · split at ht
    · cases ht
    · rw [mem_singleton.mp ht]
      simp only
      omega
  · split at ht
    · cases ht
    · rw [mem_singleton.mp ht]
      simp only
      omega
  · have := h.user u hu
    simp only [maxStringLen, UserProperty.value_length] at this ⊢
    omega

private theorem put_user (p : Properties) {u : UserProperty} (hk : u.key.length ≤ maxStringLen) :
    p.put propUserProperty u.value = { p with user := p.user ++ [u] } := by
  have hsplit : splitUserProperty u.value = some (u.key, u.val) := splitUserProperty_put hk
  simp [Properties.put, hsplit, propUserProperty, propContentType, propResponseTopic,
    propCorrelationData]

theorem foldl_put_user (p : Properties) {us : List UserProperty} (h : ∀ u ∈ us, u.key.length ≤ maxStringLen) :
    (us.map (fun u => ((propUserProperty, u.value) : Tlv))).foldl (fun p t => p.put t.1 t.2) p =
      { p with user := p.user ++ us } := by
  induction us generalizing p with
  | nil => simp
  | cons u us ih =>
    rw [map_cons, foldl_cons, put_user p (h u mem_cons_self),
      ih _ (fun u' hu => h u' (mem_cons_of_mem _ hu))]
    simp

theorem foldl_put_single (id : UInt8) (v : Bytes) (p : Properties) :
    ((if v.length = 0 then ([] : List Tlv) else [(id, v)]).foldl (fun p t => p.put t.1 t.2) p) =
      if v.length = 0 then p else p.put id v := by
  split <;> rfl

theorem collect_putProps (h : PropsFit r) (p : Properties) (hct : p.contentType = [])
    (hrt : p.responseTopic = []) (hcd : p.correlationData = []) (hus : p.user = []) : p.collect (putProps r) =
      { p with
        contentType := r.contentType
        responseTopic := r.responseTopic
        correlationData := r.correlationData
        user := r.user } := by
  have huser : ∀ u ∈ r.user, u.key.length ≤ maxStringLen := fun u hu => (h.user u hu).1
  rw [putProps_eq, collect_tlvs h.tlvs_lt, Record.tlvs, foldl_append, foldl_append,
    foldl_append, foldl_put_user _ huser, foldl_put_single, foldl_put_single, foldl_put_single]
  obtain ⟨e, pf, pff, ct, rt, cd, us⟩ := p
  simp only at hct hrt hcd hus
  subst hct hrt hcd hus
  by_cases h1 : r.contentType.length = 0 <;> by_cases h2 : r.responseTopic.length = 0 <;>
    by_cases h3 : r.correlationData.length = 0 <;>
    simp_all [Properties.put, propContentType, propResponseTopic, propCorrelationData]

structure PropsValid (contentType responseTopic correlationData : Bytes) (user : List UserProperty) :
    Prop where
  contentType : validStringBytes contentType = true
  responseTopic : validStringBytes responseTopic = true
  correlationData : correlationData.length ≤ maxStringLen
  user : ∀ u ∈ user, validStringBytes u.key = true ∧ validStringBytes u.val = true

theorem length_le_of_valid (h : validStringBytes b = true) : b.length ≤ maxStringLen := by
  simp only [validStringBytes, Bool.and_eq_true, decide_eq_true_eq] at h
  exact h.1.1

theorem validateProps_putProps (h : PropsFit r)
    (hvalid : PropsValid r.contentType r.responseTopic r.correlationData r.user) :
    validateProps (putProps r) = (0, none) := by
  rw [validateProps, putProps_eq]
  refine validateLoop_tlvs h.tlvs_lt ?_ 0
  intro t ht
  simp only [Record.tlvs, mem_append, mem_map] at ht
  rcases ht with ((ht | ht) | ht) | ⟨u, hu, rfl⟩
  · split at ht
    · cases ht
    · rw [mem_singleton.mp ht]
      simp [checkProp, hvalid.contentType, h.contentType]
  · split at ht
    · cases ht
    · rw [mem_singleton.mp ht]
      simp [checkProp, hvalid.responseTopic, h.responseTopic]
  · split at ht
    · cases ht
    · rw [mem_singleton.mp ht]
      simp [checkProp, h.correlationData, propCorrelationData, propContentType, propResponseTopic]
  · have hsplit : splitUserProperty u.value = some (u.key, u.val) := splitUserProperty_put (h.user u hu).1
    obtain ⟨hk, hv⟩ := hvalid.user u hu
    simp [checkProp, hsplit, hk, hv, (h.user u hu).2, propUserProperty, propCorrelationData,
      propContentType, propResponseTopic]

@[grind =] def Record.layout (r : Record) : Layout where
  flags := r.flags
  times := put64 r.publishWallNs.toUInt64 ++ (put64 r.captureMonoMs ++ (put32 r.expirySec ++
    [r.payloadFormat]))
  topic := r.topic
  clientID := r.clientID
  username := r.username
  props := putProps r
  payload := r.payload

theorem recordSize_pos_iff : 0 < recordSize r ↔ PropsFit r ∧ r.layout.Fits := by
  have hsize : r.layout.size = recordHeaderLen + r.topic.length + r.clientID.length +
      r.username.length + (putProps r).length + r.payload.length := rfl
  unfold recordSize
  constructor
  · intro h
    split at h
    · omega
    rename_i hstr
    simp only [Bool.or_eq_true, decide_eq_true_eq, not_or, not_lt] at hstr
    split at h
    · omega
    rename_i props hprops
    obtain ⟨hfit, rfl⟩ := (propsSize_eq_some).mp hprops
    simp only at h
    split at h
    · omega
    rename_i htotal
    simp only [Bool.or_eq_true, decide_eq_true_eq, not_or, not_lt, ← hsize] at htotal
    exact ⟨hfit, by simp [Record.layout], hstr.1.1, hstr.1.2, hstr.2, htotal.1⟩
  · rintro ⟨hfit, hl⟩
    have h1 : ¬ (decide (r.topic.length > maxStringLen) || decide (r.clientID.length > maxStringLen) ||
        decide (r.username.length > maxStringLen)) = true := by
      simp only [Bool.or_eq_true, decide_eq_true_eq, not_or, not_lt]
      exact ⟨⟨hl.topic, hl.clientID⟩, hl.username⟩
    rw [if_neg h1, (propsSize_eq_some).mpr ⟨hfit, rfl⟩]
    have hle := hl.size
    simp only [← hsize]
    rw [if_neg]
    · rw [hsize]
      simp only [recordHeaderLen]
      omega
    · simp only [Bool.or_eq_true, decide_eq_true_eq, not_or, not_lt]
      refine ⟨hle, ?_⟩
      simp only [maxUint32, maxInt] at hle ⊢
      omega

private theorem recordSize_eq (h : 0 < recordSize r) : recordSize r = r.layout.size := by
  obtain ⟨hfit, -⟩ := (recordSize_pos_iff).mp h
  unfold recordSize at h ⊢
  rw [(propsSize_eq_some).mpr ⟨hfit, rfl⟩] at h ⊢
  split at h
  · omega
  simp only at h ⊢
  split at h
  · omega
  rename_i h1 h2
  rw [if_neg h1, if_neg h2]
  rfl

theorem encodeRecord_eq (h : PropsFit r) : encodeRecord r = r.layout.bytes := by
  have hprops : (if (putProps r).length > 0 then putProps r else []) = putProps r := by
    split
    · rfl
    · rename_i h0
      rw [eq_comm, ← length_eq_zero_iff]
      omega
  have hsize : recordHeaderLen + r.topic.length + r.clientID.length + r.username.length +
      (putProps r).length + r.payload.length = r.layout.size := rfl
  simp only [encodeRecord, (propsSize_eq_some).mpr ⟨h, rfl⟩, Option.getD_some, hprops, hsize,
    Layout.bytes, Layout.body, append_assoc]
  rfl

structure Carries (v : RecordView) (r : Record) : Prop where
  flags : v.flags = r.flags
  publishWallNs : v.publishWallNs = r.publishWallNs
  captureMonoMs : v.captureMonoMs = r.captureMonoMs
  expirySec : v.expirySec = r.expirySec
  payloadFormat : v.payloadFormat = r.payloadFormat
  topic : v.topic = r.topic
  clientID : v.clientID = r.clientID
  username : v.username = r.username
  payload : v.payload = r.payload
  properties : v.properties Properties.zero =
    { messageExpiryInterval := r.expirySec
      payloadFormat := if r.flags &&& flagPayloadFormat ≠ 0 then r.payloadFormat else 0
      payloadFormatFlag := r.flags &&& flagPayloadFormat ≠ 0
      contentType := r.contentType
      responseTopic := r.responseTopic
      correlationData := r.correlationData
      user := r.user }

theorem carries_layout (h : PropsFit r) : Carries r.layout.view r := by
  constructor
  · rfl
  · simp [Layout.view, Record.layout]
  · simp [Layout.view, Record.layout]
  · simp [Layout.view, Record.layout, drop_append, drop_of_length_le]
  · simp [Layout.view, Record.layout]
  · rfl
  · rfl
  · rfl
  · rfl
  · have hexp : r.layout.view.expirySec = r.expirySec := by
      simp [Layout.view, Record.layout, drop_append, drop_of_length_le]
    have hpf : r.layout.view.payloadFormat = r.payloadFormat := by
      simp [Layout.view, Record.layout]
    have hflag : r.layout.view.hasPayloadFormat = decide (r.flags &&& flagPayloadFormat ≠ 0) := rfl
    have hblock : r.layout.view.props = putProps r := rfl
    unfold RecordView.properties
    simp only [hexp, hpf, hflag, hblock, decide_eq_true_eq]
    split
    · rw [collect_putProps h _ rfl rfl rfl rfl]
      simp [*]
    · rw [collect_putProps h _ rfl rfl rfl rfl]
      simp_all [Properties.zero]

/-- The content rules, or none of them for a tombstone. -/
def ContentOk (r : Record) : Prop :=
  r.flags &&& flagQoSMask ≠ 3 ∧ (r.flags &&& flagSkipped ≠ 0 ∨ r.validContent = true)

private theorem propsValid_of_validContent (h : r.validContent = true) :
    PropsValid r.contentType r.responseTopic r.correlationData r.user := by
  simp only [Record.validContent, validString, Bool.and_eq_true, all_eq_true,
    decide_eq_true_eq] at h
  obtain ⟨⟨⟨⟨-, hct⟩, hrt⟩, hcd⟩, hus⟩ := h
  exact ⟨hct, hrt, hcd, hus⟩

theorem checkContent_layout (h : PropsFit r) (hok : ContentOk r) :
    checkContent r.layout.view = (r.layout.view, none) := by
  have hflags : r.layout.view.flags = r.flags := rfl
  unfold checkContent
  rw [hflags, if_neg hok.1]
  rcases hok.2 with hskip | hvalid
  · rw [if_pos hskip]
  · split
    · rfl
    · have hp := validateProps_putProps h (propsValid_of_validContent hvalid)
      simp only [Record.validContent, validString, validTopic, Bool.and_eq_true] at hvalid
      obtain ⟨⟨⟨⟨⟨⟨ht, hc⟩, hu⟩, -⟩, -⟩, -⟩, -⟩ := hvalid
      rw [show r.layout.view.topic = r.topic from rfl, show r.layout.view.clientID = r.clientID from rfl,
        show r.layout.view.username = r.username from rfl,
        show r.layout.view.props = putProps r from rfl, ht, hc, hu, hp]
      rfl

theorem decodeRecord_encodeRecord (hsize : 0 < recordSize r) (hok : ContentOk r) (tail : Bytes) :
    decodeRecord (encodeRecord r ++ tail) = (r.layout.view, none) ∧
      r.layout.view.frame = encodeRecord r ∧ (encodeRecord r).length = recordSize r ∧
      Carries r.layout.view r := by
  obtain ⟨hfit, hl⟩ := (recordSize_pos_iff).mp hsize
  refine ⟨?_, ?_, ?_, carries_layout hfit⟩
  · rw [encodeRecord_eq hfit, Layout.decodeRecord_bytes hl tail, checkContent_layout hfit hok]
  · rw [encodeRecord_eq hfit]
    rfl
  · rw [encodeRecord_eq hfit, Layout.bytes_length hl, recordSize_eq hsize]

end MonsterMQ.PeerLink
