import MonsterMQ.PeerLinkRecordRoundTrip

/-!
# Accepted records

What `DecodeRecord` has established about a frame it accepts, and from it that the
record can be encoded again and that its tombstone is accepted.
-/

namespace MonsterMQ.PeerLink

open LittleEndian List

structure Accepted (frame : Bytes) (v : RecordView) : Prop where
  header_le : recordHeaderLen ≤ frame.length
  version : v.version = recordVersion
  flags : v.flags = get16 (frame.drop 6)
  publishWallNs : v.publishWallNs = (get64 (frame.drop 8)).toInt64
  captureMonoMs : v.captureMonoMs = get64 (frame.drop 16)
  expirySec : v.expirySec = get32 (frame.drop 24)
  payloadFormat : v.payloadFormat = frame.getD 28 0
  topic_le : v.topic.length ≤ maxStringLen
  clientID_le : v.clientID.length ≤ maxStringLen
  username_le : v.username.length ≤ maxStringLen
  size_le : 44 + v.topic.length + v.clientID.length + v.username.length + v.props.length +
    v.payload.length - 4 ≤ maxUint32
  qos : v.flags &&& flagQoSMask ≠ 3
  content : v.flags &&& flagSkipped ≠ 0 ∨ validTopicBytes v.topic = true ∧
    validStringBytes v.clientID = true ∧ validStringBytes v.username = true ∧
      validateProps v.props = (v.unknownProps, none)

theorem checkContent_ok {v v' : RecordView} (h : checkContent v = (v', none)) :
    v' = { v with unknownProps := v'.unknownProps } ∧ v.flags &&& flagQoSMask ≠ 3 ∧
      (v.flags &&& flagSkipped ≠ 0 ∨ validTopicBytes v.topic = true ∧
        validStringBytes v.clientID = true ∧ validStringBytes v.username = true ∧
          validateProps v.props = (v'.unknownProps, none)) := by
  unfold checkContent at h
  split at h
  · cases h
  rename_i hqos
  split at h
  · rename_i hskip
    cases h
    exact ⟨rfl, hqos, Or.inl hskip⟩
  split at h
  · cases h
  rename_i htopic
  split at h
  · cases h
  rename_i hclient
  split at h
  · cases h
  rename_i huser
  simp only [Prod.mk.injEq] at h
  obtain ⟨rfl, herr⟩ := h
  refine ⟨rfl, hqos, Or.inr ⟨?_, ?_, ?_, ?_⟩⟩
  · simpa using htopic
  · simpa using hclient
  · simpa using huser
  · rw [← herr]

theorem get_take_drop {frame : Bytes} {n k w : ℕ} (h : k + w ≤ n) :
    ((frame.take n).drop k).take w = (frame.drop k).take w := by
  rw [drop_take, take_take, min_eq_left (by omega)]

theorem accepted_of_decodeRecord {frame : Bytes} {v : RecordView} (h : decodeRecord frame = (v, none)) :
    Accepted frame v := by
  unfold decodeRecord at h
  split at h
  · cases h
  simp only at h
  split at h
  · cases h
  rename_i hframe
  split at h
  · cases h
  rename_i hhdr
  split at h
  · cases h
  rename_i hversion
  split at h
  · cases h
  rename_i hhdrLen
  split at h
  · split at h
    · cases h
    · cases h
  rename_i hsum
  have hn : recordHeaderLen ≤ 4 + (get32 frame).toNat := by
    simp only [length_take] at hhdr
    omega
  generalize hnn : 4 + (get32 frame).toNat = n at *
  obtain ⟨heq, hqos, hcontent⟩ := checkContent_ok h
  have hlt := (get32 frame).toNat_lt
  simp only [not_not, not_lt, recordHeaderLen] at hhdrLen hsum hn hframe hversion
  have htl := (get16 ((frame.take n).drop 30)).toNat_lt
  have hcl := (get16 ((frame.take n).drop 32)).toNat_lt
  have hul := (get16 ((frame.take n).drop 34)).toNat_lt
  rw [heq]
  constructor
  · simp only [recordHeaderLen]
    omega
  · exact hversion
  · simp only [decodeHeader, get16, get_take_drop (show 6 + 2 ≤ n by omega)]
  · simp only [decodeHeader, get64, get_take_drop (show 8 + 8 ≤ n by omega)]
  · simp only [decodeHeader, get64, get_take_drop (show 16 + 8 ≤ n by omega)]
  · simp only [decodeHeader, get32, get_take_drop (show 24 + 4 ≤ n by omega)]
  · simp only [decodeHeader, getD_eq_getElem?_getD]
    rw [List.getElem?_take_of_lt (by omega)]
  · simp only [length_take, maxStringLen]
    omega
  · simp only [length_take, maxStringLen]
    omega
  · simp only [length_take, maxStringLen]
    omega
  · simp only [length_take, length_drop, maxUint32]
    omega
  · exact hqos
  · exact hcontent

private theorem propNext_parts {b val rest : Bytes} {id : UInt8} (h : propNext b = some (id, val, rest)) :
    b.length = tlvHeaderLen + val.length + rest.length := by
  unfold propNext at h
  split at h
  · cases h
  split at h
  · cases h
  simp only at h
  split at h
  · cases h
  rename_i hle
  cases h
  simp only [length_take, length_drop] at hle ⊢
  omega

theorem splitUserProperty_parts {val key uv : Bytes} (h : splitUserProperty val = some (key, uv)) :
    val.length = 2 + key.length + uv.length ∧ key.length ≤ maxStringLen := by
  unfold splitUserProperty at h
  split at h
  · cases h
  simp only at h
  split at h
  · cases h
  have hk := (get16 val).toNat_lt
  cases h
  simp only [length_take, length_drop, maxStringLen]
  omega

def Properties.encodedLength (p : Properties) : ℕ :=
  tlvSize p.contentType.length + tlvSize p.responseTopic.length + tlvSize p.correlationData.length +
    (p.user.map (fun u => tlvHeaderLen + 2 + u.key.length + u.val.length)).sum

theorem encodedLength_put (p : Properties) (id : UInt8) (val : Bytes) :
    (p.put id val).encodedLength ≤ p.encodedLength + (tlvHeaderLen + val.length) := by
  have hval : tlvSize val.length ≤ tlvHeaderLen + val.length := by
    unfold tlvSize
    split <;> omega
  unfold Properties.put
  split
  · simp only [Properties.encodedLength]
    omega
  split
  · simp only [Properties.encodedLength]
    omega
  split
  · simp only [Properties.encodedLength]
    omega
  split
  · split
    · rename_i k uv hsplit
      have := (splitUserProperty_parts hsplit).1
      simp only [Properties.encodedLength, map_append, sum_append, map_cons, map_nil,
        sum_cons, sum_nil]
      omega
    · omega
  · omega

private theorem encodedLength_collect (p : Properties) (b : Bytes) :
    (p.collect b).encodedLength ≤ p.encodedLength + b.length := by
  fun_induction Properties.collect p b with
  | case1 p b hnone => omega
  | case2 p b id val rest hnext ih =>
    have h1 := encodedLength_put p id val
    have h2 := propNext_parts hnext
    omega

private theorem collect_keys (p : Properties) (b : Bytes) (h : ∀ u ∈ p.user, u.key.length ≤ maxStringLen) :
    ∀ u ∈ (p.collect b).user, u.key.length ≤ maxStringLen := by
  fun_induction Properties.collect p b with
  | case1 p b hnone => exact h
  | case2 p b id val rest hnext ih =>
    apply ih
    unfold Properties.put
    split
    · exact h
    split
    · exact h
    split
    · exact h
    split
    · split
      · rename_i k uv hsplit
        intro u hu
        rcases mem_append.mp hu with hu | hu
        · exact h u hu
        · rw [mem_singleton.mp hu]
          exact (splitUserProperty_parts hsplit).2
      · exact h
    · exact h

def Properties.Valid (p : Properties) : Prop :=
  PropsValid p.contentType p.responseTopic p.correlationData p.user

theorem Properties.Valid.put {p : Properties} (h : p.Valid) {id : UInt8} {val : Bytes}
    (hcheck : ∀ e, checkProp id val ≠ some (some e)) : (p.put id val).Valid := by
  unfold Properties.put
  split
  · rename_i hid
    simp only [checkProp, hid, true_or, if_true] at hcheck
    refine ⟨?_, h.responseTopic, h.correlationData, h.user⟩
    by_contra hbad
    by_cases hlen : val.length > maxStringLen
    · exact hcheck .propLen (by rw [if_pos hlen])
    · exact hcheck .propString (by rw [if_neg hlen, if_pos (by simpa using hbad)])
  split
  · rename_i hid
    simp only [checkProp, hid, or_true, if_true] at hcheck
    refine ⟨h.contentType, ?_, h.correlationData, h.user⟩
    by_contra hbad
    by_cases hlen : val.length > maxStringLen
    · exact hcheck .propLen (by rw [if_pos hlen])
    · exact hcheck .propString (by rw [if_neg hlen, if_pos (by simpa using hbad)])
  rename_i hct hrt
  split
  · rename_i hid
    have hc : checkProp id val = some (if val.length > maxStringLen then some .propLen else none) := by
      rw [checkProp, if_neg (by simp [hct, hrt]), if_pos hid]
    refine ⟨h.contentType, h.responseTopic, ?_, h.user⟩
    by_contra hbad
    exact hcheck .propLen (by rw [hc, if_pos (not_le.mp hbad)])
  rename_i hcd
  split
  · rename_i hid
    split
    · rename_i k uv hsplit
      have hc : checkProp id val = some (if uv.length > maxStringLen then some .propLen
          else if !validStringBytes k || !validStringBytes uv then some .propString else none) := by
        rw [checkProp, if_neg (by simp [hct, hrt]), if_neg hcd, if_pos hid, hsplit]
      refine ⟨h.contentType, h.responseTopic, h.correlationData, ?_⟩
      intro u hu
      rcases mem_append.mp hu with hu | hu
      · exact h.user u hu
      · rw [mem_singleton.mp hu]
        by_contra hbad
        by_cases hlen : uv.length > maxStringLen
        · exact hcheck .propLen (by rw [hc, if_pos hlen])
        · refine hcheck .propString ?_
          rw [hc, if_neg hlen, if_pos]
          simp only [Bool.or_eq_true, Bool.not_eq_true']
          by_contra hno
          simp only [not_or, Bool.not_eq_false] at hno
          exact hbad hno
    · exact h
  · exact h

theorem Properties.Valid.collect {p : Properties} (h : p.Valid) {b : Bytes} {n m : ℕ}
    (hb : validateLoop n b = (m, none)) : (p.collect b).Valid := by
  fun_induction Properties.collect p b generalizing n with
  | case1 p b hnone => exact h
  | case2 p b id val rest hnext ih =>
    rw [validateLoop_of_next hnext] at hb
    split at hb
    · rename_i hunknown
      exact ih (h.put (by simp [hunknown])) hb
    · cases hb
    · rename_i hok
      exact ih (h.put (by simp [hok])) hb

private theorem putProps_record_length (v : RecordView) : (putProps v.record).length ≤ v.props.length := by
  have h : (putProps v.record).length = (v.properties Properties.zero).encodedLength :=
    putProps_length v.record
  rw [h]
  unfold RecordView.properties
  simp only
  refine (encodedLength_collect _ _).trans ?_
  split
  · exact (Nat.zero_add _).le
  · exact (Nat.zero_add _).le

/-- No property value of the view is longer than a string can be. -/
def RecordView.ValuesFit (v : RecordView) : Prop :=
  (v.properties Properties.zero).contentType.length ≤ maxStringLen ∧
    (v.properties Properties.zero).responseTopic.length ≤ maxStringLen ∧
    (v.properties Properties.zero).correlationData.length ≤ maxStringLen ∧
    ∀ u ∈ (v.properties Properties.zero).user, u.val.length ≤ maxStringLen

namespace Accepted

variable {frame : Bytes} {v : RecordView}

theorem valid (h : Accepted frame v) (hskip : v.flags &&& flagSkipped = 0) :
    v.record.validContent = true ∧ v.ValuesFit := by
  obtain ⟨ht, hc, hu, hp⟩ := h.content.resolve_left (by simp [hskip])
  have hzero : ∀ p : Properties, p.contentType = [] → p.responseTopic = [] → p.correlationData = [] →
      p.user = [] → p.Valid := by
    intro p h1 h2 h3 h4
    refine ⟨?_, ?_, ?_, ?_⟩
    · rw [h1]
      rfl
    · rw [h2]
      rfl
    · simp [h3]
    · simp [h4]
  have hprops : (v.properties Properties.zero).Valid := by
    unfold RecordView.properties
    simp only
    apply Properties.Valid.collect _ hp
    split
    · exact hzero _ rfl rfl rfl rfl
    · exact hzero _ rfl rfl rfl rfl
  refine ⟨?_, length_le_of_valid hprops.contentType, length_le_of_valid hprops.responseTopic,
    hprops.correlationData, fun u hu => length_le_of_valid (hprops.user u hu).2⟩
  simp only [Record.validContent, validTopic, validString, Bool.and_eq_true, all_eq_true,
    decide_eq_true_eq]
  exact ⟨⟨⟨⟨⟨⟨ht, hc⟩, hu⟩, hprops.contentType⟩, hprops.responseTopic⟩, hprops.correlationData⟩,
    hprops.user⟩

theorem recordSize_pos (h : Accepted frame v) (hfit : v.ValuesFit) : 0 < recordSize v.record := by
  obtain ⟨hct, hrt, hcd, hus⟩ := hfit
  have hlen := putProps_record_length v
  have hsize := h.size_le
  have hkeys : ∀ u ∈ (v.properties Properties.zero).user, u.key.length ≤ maxStringLen := by
    unfold RecordView.properties
    simp only
    apply collect_keys
    split
    · simp [Properties.zero]
    · simp [Properties.zero]
  rw [recordSize_pos_iff]
  refine ⟨⟨hct, hrt, hcd, fun u hu => ⟨hkeys u hu, hus u hu⟩, ?_⟩, ?_, h.topic_le, h.clientID_le,
    h.username_le, ?_⟩
  · omega
  · simp [Record.layout]
  · change 44 + v.topic.length + v.clientID.length + v.username.length +
      (putProps v.record).length + v.payload.length - 4 ≤ maxUint32
    omega

end Accepted

/-- Two views of the same record; the bytes of the property block may differ. -/
structure SameFields (v v' : RecordView) : Prop where
  version : v'.version = v.version
  flags : v'.flags = v.flags
  publishWallNs : v'.publishWallNs = v.publishWallNs
  captureMonoMs : v'.captureMonoMs = v.captureMonoMs
  expirySec : v'.expirySec = v.expirySec
  payloadFormat : v'.payloadFormat = v.payloadFormat
  topic : v'.topic = v.topic
  clientID : v'.clientID = v.clientID
  username : v'.username = v.username
  payload : v'.payload = v.payload
  properties : v'.properties Properties.zero = v.properties Properties.zero

private theorem collect_header (p : Properties) (b : Bytes) :
    (p.collect b).messageExpiryInterval = p.messageExpiryInterval ∧
      (p.collect b).payloadFormat = p.payloadFormat ∧
      (p.collect b).payloadFormatFlag = p.payloadFormatFlag := by
  fun_induction Properties.collect p b with
  | case1 p b hnone => exact ⟨rfl, rfl, rfl⟩
  | case2 p b id val rest hnext ih =>
    obtain ⟨h1, h2, h3⟩ := ih
    rw [h1, h2, h3]
    unfold Properties.put
    split
    · exact ⟨rfl, rfl, rfl⟩
    split
    · exact ⟨rfl, rfl, rfl⟩
    split
    · exact ⟨rfl, rfl, rfl⟩
    split
    · split
      · exact ⟨rfl, rfl, rfl⟩
      · exact ⟨rfl, rfl, rfl⟩
    · exact ⟨rfl, rfl, rfl⟩

theorem Carries.sameFields {v v' : RecordView} (h : Carries v' v.record)
    (hversion : v'.version = v.version) : SameFields v v' := by
  refine ⟨hversion, h.flags, h.publishWallNs, h.captureMonoMs, h.expirySec, h.payloadFormat, h.topic,
    h.clientID, h.username, h.payload, ?_⟩
  rw [h.properties]
  have hheader : (v.properties Properties.zero).messageExpiryInterval = v.expirySec ∧
      (v.properties Properties.zero).payloadFormat =
        (if v.flags &&& flagPayloadFormat ≠ 0 then v.payloadFormat else 0) ∧
      (v.properties Properties.zero).payloadFormatFlag = decide (v.flags &&& flagPayloadFormat ≠ 0) := by
    unfold RecordView.properties
    simp only
    obtain ⟨h1, h2, h3⟩ := collect_header
      (if v.hasPayloadFormat then
        { Properties.zero with
          messageExpiryInterval := v.expirySec
          payloadFormat := v.payloadFormat
          payloadFormatFlag := true }
      else { Properties.zero with messageExpiryInterval := v.expirySec }) v.props
    rw [h1, h2, h3]
    by_cases hflag : v.flags &&& flagPayloadFormat = 0
    · simp [RecordView.hasPayloadFormat, hflag, Properties.zero]
    · simp [RecordView.hasPayloadFormat, hflag]
  obtain ⟨h1, h2, h3⟩ := hheader
  change (⟨v.expirySec, if v.flags &&& flagPayloadFormat ≠ 0 then v.payloadFormat else 0,
    decide (v.flags &&& flagPayloadFormat ≠ 0), _, _, _, _⟩ : Properties) = _
  rw [← h1, ← h2, ← h3]
  rfl

@[grind =] def tombstoneLayout (orig : Bytes) : Layout :=
  ⟨flagSkipped ||| get16 (orig.drop 6), (orig.drop 8).take 21, [], [], [], [], []⟩

private theorem putTombstone_eq {orig : Bytes} (h : recordHeaderLen ≤ orig.length) :
    putTombstone orig = (tombstoneLayout orig).bytes := by
  simp only [putTombstone, if_pos h, Layout.bytes, Layout.body, Layout.size, tombstoneLayout,
    length_nil, append_assoc]
  rfl

theorem flags_skipped (f : UInt16) :
    (flagSkipped ||| f) &&& flagQoSMask = f &&& flagQoSMask ∧ (flagSkipped ||| f) &&& flagSkipped ≠ 0 := by
  have hdistrib : ∀ m : UInt16, (flagSkipped ||| f) &&& m = (flagSkipped &&& m) ||| (f &&& m) := by
    intro m
    rw [← UInt16.toBitVec_inj]
    ext i hi
    simp [Bool.and_or_distrib_right]
  refine ⟨?_, ?_⟩
  · rw [hdistrib, show flagSkipped &&& flagQoSMask = 0 by decide, UInt16.zero_or]
  · intro h0
    rw [hdistrib, UInt16.and_self] at h0
    have hbit := congrArg (fun x : UInt16 => x.toBitVec.getLsbD 9) h0
    simp [flagSkipped] at hbit

theorem Accepted.decodeRecord_putTombstone {frame : Bytes} {v : RecordView} (h : Accepted frame v) :
    decodeRecord (putTombstone frame) = ((tombstoneLayout frame).view, none) ∧
      (tombstoneLayout frame).view.flags = v.flags ||| flagSkipped ∧
      (tombstoneLayout frame).view.publishWallNs = v.publishWallNs ∧
      (tombstoneLayout frame).view.captureMonoMs = v.captureMonoMs ∧
      (tombstoneLayout frame).view.expirySec = v.expirySec ∧
      (tombstoneLayout frame).view.payloadFormat = v.payloadFormat := by
  have hlen := h.header_le
  obtain ⟨hqos, hskip⟩ := flags_skipped (get16 (frame.drop 6))
  refine ⟨?_, ?_, ?_, ?_, ?_, ?_⟩
  · have hfits : (tombstoneLayout frame).Fits := by
      simp only [recordHeaderLen] at hlen
      constructor
      · simp only [tombstoneLayout, length_take, length_drop]
        omega
      · exact Nat.zero_le _
      · exact Nat.zero_le _
      · exact Nat.zero_le _
      · exact Nat.le_of_ble_eq_true rfl
    rw [putTombstone_eq hlen, ← append_nil (tombstoneLayout frame).bytes,
      Layout.decodeRecord_bytes hfits]
    unfold checkContent
    have hflags : (tombstoneLayout frame).view.flags = flagSkipped ||| get16 (frame.drop 6) := rfl
    rw [hflags, hqos, if_neg (by rw [← h.flags]; exact h.qos), if_pos hskip]
  · rw [h.flags]
    exact UInt16.or_comm _ _
  · rw [h.publishWallNs]
    simp [Layout.view, tombstoneLayout, get64, take_take]
  · rw [h.captureMonoMs]
    simp [Layout.view, tombstoneLayout, get64, drop_take, take_take]
  · rw [h.expirySec]
    simp [Layout.view, tombstoneLayout, get32, drop_take, take_take]
  · rw [h.payloadFormat]
    simp [Layout.view, tombstoneLayout, List.getElem?_take_of_lt]

private theorem qos_ne_three {f : UInt16} (h : (f &&& flagQoSMask).toNat ≤ 2) : f &&& flagQoSMask ≠ 3 := by
  intro h3
  rw [h3] at h
  exact absurd h (by decide)

private theorem appendRecord_eq {r : Record} (h : 0 < recordSize r) : appendRecord r = encodeRecord r := by
  rw [appendRecord, if_neg (by omega)]

/-- Encoding and decoding a record, decoding and encoding it again, and decoding the
tombstone of a record. -/
theorem records_round_trip : (∀ (r : Record) (tail : Bytes), 0 < recordSize r → r.validContent = true →
      (r.flags &&& flagQoSMask).toNat ≤ 2 → r.flags &&& flagSkipped = 0 →
        ∃ v, decodeRecord (encodeRecord r ++ tail) = (v, none) ∧ v.frame = encodeRecord r ∧
          (encodeRecord r).length = recordSize r ∧ v.version = recordVersion ∧ v.hdrLen = 44 ∧
          v.unknownProps = 0 ∧ Carries v r) ∧
      (∀ frame v, decodeRecord frame = (v, none) → (v.flags &&& flagSkipped ≠ 0 → v.ValuesFit) →
        ∃ v', decodeRecord (appendRecord v.record) = (v', none) ∧ v'.hdrLen = 44 ∧
          v'.unknownProps = 0 ∧ SameFields v v') ∧
      (∀ frame v, decodeRecord frame = (v, none) →
        ∃ v', decodeRecord (putTombstone frame) = (v', none) ∧ v'.flags = v.flags ||| flagSkipped ∧
          v'.flags &&& flagSkipped ≠ 0 ∧ v'.publishWallNs = v.publishWallNs ∧
          v'.captureMonoMs = v.captureMonoMs ∧ v'.expirySec = v.expirySec ∧
          v'.payloadFormat = v.payloadFormat) := by
  refine ⟨?_, ?_, ?_⟩
  · intro r tail hsize hvalid hqos hskip
    obtain ⟨hdecode, hframe, hlen, hcarries⟩ :=
      decodeRecord_encodeRecord hsize ⟨qos_ne_three hqos, Or.inr hvalid⟩ tail
    exact ⟨_, hdecode, hframe, hlen, rfl, rfl, rfl, hcarries⟩
  · intro frame v hdecode hvalues
    have h := accepted_of_decodeRecord hdecode
    have hfit : v.ValuesFit ∧ ContentOk v.record := by
      by_cases hskip : v.flags &&& flagSkipped = 0
      · obtain ⟨hvalid, hfit⟩ := h.valid hskip
        exact ⟨hfit, h.qos, Or.inr hvalid⟩
      · exact ⟨hvalues hskip, h.qos, Or.inl hskip⟩
    have hsize := h.recordSize_pos hfit.1
    obtain ⟨hdecode', -, -, hcarries⟩ := decodeRecord_encodeRecord hsize hfit.2 []
    rw [append_nil, ← appendRecord_eq hsize] at hdecode'
    exact ⟨_, hdecode', rfl, rfl, hcarries.sameFields h.version.symm⟩
  · intro frame v hdecode
    obtain ⟨h1, h2, h3, h4, h5, h6⟩ :=
      (accepted_of_decodeRecord hdecode).decodeRecord_putTombstone
    exact ⟨_, h1, h2, (flags_skipped _).2, h3, h4, h5, h6⟩

/-- A retained publish on `a/b` with a content type and a user property. -/
def sampleRecord : Record :=
  { flags := 5
    publishWallNs := -1
    captureMonoMs := 9
    expirySec := 60
    payloadFormat := 0
    topic := [97, 47, 98]
    clientID := [99]
    username := []
    contentType := [116]
    responseTopic := []
    correlationData := [0, 255]
    user := [⟨[107], [118]⟩, ⟨[107], []⟩]
    payload := [1, 2, 3] }

theorem records_round_trip_sample :
    ∃ v, decodeRecord (encodeRecord sampleRecord ++ [7]) = (v, none) ∧ Carries v sampleRecord := by
  obtain ⟨v, hdecode, -, -, -, -, -, hcarries⟩ :=
    records_round_trip.1 sampleRecord [7] (by decide) (by decide) (by decide) (by decide)
  exact ⟨v, hdecode, hcarries⟩

def tombstoneWith (contentType : Bytes) : Layout :=
  ⟨flagSkipped, List.replicate 21 0, [], [], [], Tlv.bytes (propContentType, contentType), []⟩

theorem decodeRecord_tombstoneWith {contentType : Bytes} (h : contentType.length < 2 ^ 31) :
    decodeRecord (tombstoneWith contentType).bytes = ((tombstoneWith contentType).view, none) ∧
      (tombstoneWith contentType).view.record.contentType = contentType := by
  have hfits : (tombstoneWith contentType).Fits := by
    refine ⟨rfl, Nat.zero_le _, Nat.zero_le _, Nat.zero_le _, ?_⟩
    simp only [Layout.size, tombstoneWith, Tlv.bytes, length_cons, length_append,
      put32_length, length_nil, maxUint32]
    omega
  refine ⟨?_, ?_⟩
  · rw [← append_nil (tombstoneWith contentType).bytes, Layout.decodeRecord_bytes hfits]
    have hflags : (tombstoneWith contentType).view.flags = flagSkipped := rfl
    rw [checkContent, hflags, if_neg (by decide), if_pos (by decide)]
  · have hnext : propNext (tombstoneWith contentType).view.props =
        some (propContentType, contentType, []) := by
      have := propNext_bytes (t := (propContentType, contentType)) (by simp only; omega) []
      rw [append_nil] at this
      exact this
    simp only [RecordView.record, RecordView.properties]
    rw [collect_of_next hnext, collect_of_none propNext_nil]
    rfl

/-- A tombstone bypasses the length check of its properties, and then the record it
yields has no encoding. -/
theorem overlong_tombstone_has_no_encoding : decodeRecord (tombstoneWith (List.replicate 65536 97)).bytes =
        ((tombstoneWith (List.replicate 65536 97)).view, none) ∧
      (tombstoneWith (List.replicate 65536 97)).view.hdrLen = 44 ∧
      recordSize (tombstoneWith (List.replicate 65536 97)).view.record = 0 ∧
      ∀ v, decodeRecord (appendRecord (tombstoneWith (List.replicate 65536 97)).view.record) ≠ (v, none) := by
  have hlen : (List.replicate 65536 (97 : UInt8)).length = 65536 := length_replicate
  generalize List.replicate 65536 (97 : UInt8) = contentType at hlen
  obtain ⟨hdecode, hcontent⟩ := decodeRecord_tombstoneWith (show contentType.length < 2 ^ 31 by omega)
  have hsize : recordSize (tombstoneWith contentType).view.record = 0 := by
    by_contra h0
    have := ((recordSize_pos_iff).mp (Nat.pos_of_ne_zero h0)).1.contentType
    rw [hcontent, hlen] at this
    exact absurd this (by decide)
  refine ⟨hdecode, rfl, hsize, ?_⟩
  intro v hv
  rw [appendRecord, if_pos hsize] at hv
  cases hv

end MonsterMQ.PeerLink
