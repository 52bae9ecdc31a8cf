import MonsterMQ.PacketPropertyBounds

/-!
# Bounds of the packet decoders

Every decoder ends, reads inside the body of its frame and returns an error or a packet whose fields are
parts of that body and together no longer than it.
-/

namespace MonsterMQ.Packets

open LittleEndian CheckedReads List

@[grind =] def ConnectParams.fields (c : ConnectParams) : List Bytes :=
  [c.password, c.username, c.protocolName, c.willPayload, c.clientIdentifier, c.willTopic] ++
    c.willProperties.fields

@[grind =] def ConnectParams.flagged (c : ConnectParams) : Bool :=
  c.passwordFlag || c.usernameFlag || c.willFlag || c.willRetain || c.clean || c.willQos != 0

@[grind =] def ConnectParams.length (c : ConnectParams) : ℕ :=
  c.password.length + c.username.length + c.protocolName.length + c.willPayload.length +
    c.clientIdentifier.length + c.willTopic.length + c.willProperties.length +
    present (c.keepalive != 0) 2 + present c.flagged 1

def Subscription.optioned (s : Subscription) : Bool :=
  s.qos != 0 || s.noLocal || s.retainAsPublished || s.retainHandling != 0

def Subscription.length (s : Subscription) : ℕ := s.filter.length + present s.optioned 1

def Packet.fields (pk : Packet) : List Bytes :=
  pk.connect.fields ++ pk.properties.fields ++ [pk.payload, pk.reasonCodes, pk.topicName] ++
    pk.filters.map Subscription.filter

/-- The sum of the lengths of all fields of a packet, its numbers and flags included. -/
def Packet.length (pk : Packet) : ℕ :=
  pk.connect.length + pk.properties.length + pk.payload.length + pk.reasonCodes.length +
    pk.topicName.length + (pk.filters.map Subscription.length).sum +
    present (pk.packetID != 0) 2 + present (pk.reasonCode != 0) 1 + present pk.sessionPresent 1

structure Packet.Within (pk : Packet) (buf : Bytes) : Prop where
  sub : ∀ f ∈ pk.fields, f <:+: buf
  length_le : pk.length ≤ buf.length

theorem Properties.empty_length : ({} : Properties).length = 0 := rfl

theorem ConnectParams.empty_length : ({} : ConnectParams).length = 0 := rfl

theorem Properties.mem_empty {f : Bytes} (h : f ∈ ({} : Properties).fields) : f = [] := by
  simpa [Properties.fields] using h

theorem ConnectParams.mem_empty {f : Bytes} (h : f ∈ ({} : ConnectParams).fields) : f = [] := by
  rcases mem_append.mp h with h | h
  · simpa using h
  · exact Properties.mem_empty h

theorem decodePropertiesAt_safe (pkt : PacketType) (f : DecodeError → DecodeError) {buf : Bytes}
    {offset : ℕ} (h : offset ≤ buf.length) : Safe (decodePropertiesAt {} pkt f buf offset) fun r =>
      offset ≤ r.2 ∧ r.2 ≤ buf.length ∧ r.1.Within buf (r.2 - offset) := by
  unfold decodePropertiesAt
  rw [sliceFrom_of_le h]
  apply safe_bind (safe_report (Properties.decode_safe pkt (buf.drop offset)))
  rintro ⟨p, n⟩ ⟨hn, hp⟩
  dsimp only at hn hp
  rw [length_drop] at hn
  refine ⟨Nat.le_add_right offset n, by dsimp only; omega, ?_, ?_⟩
  · intro g hg
    exact drop_infix (hp.sub g hg)
  · have := hp.length_le
    dsimp only
    omega

theorem optionalProperties_safe (c : Prop) [Decidable c] (pkt : PacketType)
    (f : DecodeError → DecodeError) {buf : Bytes} {offset : ℕ} (h : offset ≤ buf.length) :
    Safe (if c then decodePropertiesAt {} pkt f buf offset else pure ({}, offset)) fun r =>
      offset ≤ r.2 ∧ r.2 ≤ buf.length ∧ r.1.Within buf (r.2 - offset) := by
  by_cases hc : c
  · rw [if_pos hc]
    exact decodePropertiesAt_safe pkt f h
  · rw [if_neg hc]
    exact ⟨Nat.le_refl offset, h, Properties.within_empty buf _⟩

theorem noPropertiesAt_safe (buf : Bytes) (offset : ℕ) :
    Safe (noPropertiesAt buf offset) fun b => b = true → offset < buf.length := by
  unfold noPropertiesAt
  by_cases h : offset < buf.length
  · rw [if_pos h, index_of_lt h]
    intro _
    exact h
  · rw [if_neg h]
    intro hb
    cases hb

theorem sliceFrom_safe {buf : Bytes} {offset : ℕ} (h : offset ≤ buf.length) :
    Safe (sliceFrom buf offset : Decoded Bytes) fun v =>
      v <:+: buf ∧ v.length = buf.length - offset := by
  rw [sliceFrom_of_le h]
  exact ⟨(drop_suffix offset buf).isInfix, length_drop⟩

section Packets

variable (header : FixedHeader) (version : UInt8) (buf : Bytes)

theorem sub_of_empty {f : Bytes} (h : f = []) : f <:+: buf := by
  rw [h]
  exact nil_infix

theorem Packet.within_of_parts {pk : Packet} {buf : Bytes} (hconnect : ∀ f ∈ pk.connect.fields, f <:+: buf)
    (hproperties : ∀ f ∈ pk.properties.fields, f <:+: buf) (hpayload : pk.payload <:+: buf)
    (hcodes : pk.reasonCodes <:+: buf) (htopic : pk.topicName <:+: buf)
    (hfilters : ∀ s ∈ pk.filters, s.filter <:+: buf) (hlength : pk.length ≤ buf.length) : pk.Within buf := by
  constructor
  · intro f hf
    rcases mem_append.mp hf with hf | hf
    · rcases mem_append.mp hf with hf | hf
      · rcases mem_append.mp hf with hf | hf
        · exact hconnect f hf
        · exact hproperties f hf
      · simp only [mem_cons, not_mem_nil, or_false] at hf
        rcases hf with rfl | rfl | rfl
        · exact hpayload
        · exact hcodes
        · exact htopic
    · obtain ⟨s, hs, rfl⟩ := mem_map.mp hf
      exact hfilters s hs
  · exact hlength

variable {bound o1 o2 offset start : ℕ}

theorem Packet.within_of_body {pk : Packet} {buf : Bytes} (hconnect : pk.connect = {})
    (hproperties : pk.properties.Within buf bound) (hpayload : pk.payload <:+: buf)
    (hcodes : pk.reasonCodes <:+: buf) (htopic : pk.topicName <:+: buf)
    (hfilters : ∀ s ∈ pk.filters, s.filter <:+: buf)
    (hlength : bound + pk.payload.length + pk.reasonCodes.length + pk.topicName.length +
      (pk.filters.map Subscription.length).sum + present (pk.packetID != 0) 2 +
      present (pk.reasonCode != 0) 1 + present pk.sessionPresent 1 ≤ buf.length) :
    pk.Within buf := by
  apply Packet.within_of_parts
  · intro f hf
    rw [hconnect] at hf
    exact sub_of_empty buf (ConnectParams.mem_empty hf)
  · exact hproperties.sub
  · exact hpayload
  · exact hcodes
  · exact htopic
  · exact hfilters
  · have := hproperties.length_le
    rw [Packet.length, hconnect, ConnectParams.empty_length]
    omega

theorem connackDecode_safe : Safe ((newPacket header version).connackDecode buf) fun pk => pk.Within buf := by
  unfold Packet.connackDecode
  apply safe_bind (safe_report (decodeByteBool_safe buf 0))
  rintro ⟨sessionPresent, o1⟩ ⟨h1, h1le⟩
  apply safe_bind (safe_report (decodeByte_safe buf o1))
  rintro ⟨reasonCode, o2⟩ ⟨h2, h2le⟩
  apply safe_bind (optionalProperties_safe _ _ _ h2le)
  rintro ⟨p, o3⟩ ⟨h3, h3le, hp⟩
  dsimp only at h1 h2 h3 h3le hp
  apply Packet.within_of_body rfl hp nil_infix nil_infix nil_infix
  · intro s hs
    cases hs
  · have := present_le (reasonCode != 0) 1
    have := present_le sessionPresent 1
    show o3 - o2 + 0 + 0 + 0 + 0 + 0 + present (reasonCode != 0) 1 + present sessionPresent 1 ≤ _
    omega

theorem newPacket_within : (newPacket header version).Within buf :=
  Packet.within_of_body rfl (Properties.within_empty buf 0) nil_infix nil_infix
    nil_infix (fun s hs => by cases hs) (Nat.zero_le _)

variable {p : Properties}

/-- A reason code and properties after `o1` bytes. -/
theorem reasonCode_within (reasonCode : UInt8) (hpos : 0 < o1)
    (h : o1 ≤ o2) (hle : o2 ≤ buf.length) (hp : p.Within buf (o2 - o1)) :
    ({ newPacket header version with reasonCode, properties := p } : Packet).Within buf := by
  apply Packet.within_of_body rfl hp nil_infix nil_infix nil_infix
  · intro s hs
    cases hs
  · have := present_le (reasonCode != 0) 1
    show o2 - o1 + 0 + 0 + 0 + 0 + 0 + present (reasonCode != 0) 1 + 0 ≤ _
    omega

private theorem disconnectDecode_safe :
    Safe ((newPacket header version).disconnectDecode buf) fun pk => pk.Within buf := by
  unfold Packet.disconnectDecode
  by_cases hv : (newPacket header version).protocolVersion = 5 ∧
      (newPacket header version).fixedHeader.remaining > 0
  · rw [if_pos hv]
    apply safe_bind (safe_report (decodeByte_safe buf 0))
    rintro ⟨reasonCode, o1⟩ ⟨h1, h1le⟩
    apply safe_bind (optionalProperties_safe _ _ _ h1le)
    rintro ⟨p, o2⟩ ⟨h2, h2le, hp⟩
    dsimp only at h1 h2 h2le hp
    exact reasonCode_within header version buf reasonCode (by omega) h2 h2le hp
  · rw [if_neg hv]
    exact newPacket_within header version buf

theorem authDecode_safe : Safe ((newPacket header version).authDecode buf) fun pk => pk.Within buf := by
  unfold Packet.authDecode
  by_cases hempty : buf.length = 0
  · rw [if_pos hempty]
    exact newPacket_within header version buf
  · rw [if_neg hempty]
    apply safe_bind (safe_report (decodeByte_safe buf 0))
    rintro ⟨reasonCode, o1⟩ ⟨h1, h1le⟩
    apply safe_bind (optionalProperties_safe _ _ _ h1le)
    rintro ⟨p, o2⟩ ⟨h2, h2le, hp⟩
    dsimp only at h1 h2 h2le hp
    exact reasonCode_within header version buf reasonCode (by omega) h2 h2le hp

private theorem publishProperties_safe (h : offset ≤ buf.length) :
    Safe ((newPacket header version).decodePublishProperties buf offset) fun r =>
      offset ≤ r.2 ∧ r.2 ≤ buf.length ∧ r.1.Within buf (r.2 - offset) := by
  unfold Packet.decodePublishProperties
  by_cases hv : (newPacket header version).protocolVersion = 5
  · rw [if_pos hv]
    apply safe_bind (noPropertiesAt_safe buf offset)
    intro none hnone
    cases none with
    | true =>
      exact ⟨Nat.le_succ offset, hnone rfl, Properties.within_empty buf _⟩
    | false => exact decodePropertiesAt_safe _ _ h
  · rw [if_neg hv]
    exact ⟨Nat.le_refl offset, h, Properties.within_empty buf _⟩

theorem publishDecode_safe : Safe ((newPacket header version).publishDecode buf) fun pk => pk.Within buf := by
  unfold Packet.publishDecode
  apply safe_bind (safe_report (decodeString_safe buf 0))
  rintro ⟨topicName, o1⟩ ht
  have h1 := ht.next_eq
  have h1le := ht.le
  dsimp only at ht h1 h1le ⊢
  have hid : Safe (if (newPacket header version).fixedHeader.qos > 0 then
        report (DecodeError.wrapped · .malformedPacketID) (decodeUint16 buf o1)
      else pure ((newPacket header version).packetID, o1)) fun r =>
        o1 + present (r.1 != 0) 2 ≤ r.2 ∧ r.2 ≤ buf.length := by
    by_cases hq : (newPacket header version).fixedHeader.qos > 0
    · rw [if_pos hq]
      apply safe_mono (safe_report (decodeUint16_safe buf o1))
      rintro ⟨packetID, o2⟩ ⟨h2, h2le, -⟩
      have := present_le (packetID != 0) 2
      exact ⟨by dsimp only at h2 ⊢; omega, h2le⟩
    · rw [if_neg hq]
      exact ⟨Nat.le_refl o1, h1le⟩
  apply safe_bind hid
  rintro ⟨packetID, o2⟩ ⟨h2, h2le⟩
  dsimp only at h2 h2le ⊢
  apply safe_bind (publishProperties_safe header version buf h2le)
  rintro ⟨p, o3⟩ ⟨h3, h3le, hp⟩
  dsimp only at h3 h3le hp ⊢
  apply safe_bind (sliceFrom_safe h3le)
  intro payload hpayload
  apply Packet.within_of_body rfl hp hpayload.1 nil_infix ht.sub
  · intro s hs
    cases hs
  · show o3 - o2 + payload.length + 0 + topicName.length + 0 + present (packetID != 0) 2 + 0 + 0 ≤ _
    have := hpayload.2
    omega

theorem ack_within (packetID : UInt16) (reasonCode : UInt8)
    (h3 : 3 ≤ o1) (h : o1 ≤ o2) (hle : o2 ≤ buf.length) (hp : p.Within buf (o2 - o1)) :
    ({ newPacket header version with packetID, reasonCode, properties := p } : Packet).Within
      buf := by
  apply Packet.within_of_body rfl hp nil_infix nil_infix nil_infix
  · intro s hs
    cases hs
  · have := present_le (packetID != 0) 2
    have := present_le (reasonCode != 0) 1
    show o2 - o1 + 0 + 0 + 0 + 0 + present (packetID != 0) 2 + present (reasonCode != 0) 1 + 0 ≤ _
    omega

theorem packetID_within (packetID : UInt16) (h : 2 ≤ o1) (hle : o1 ≤ buf.length) :
    ({ newPacket header version with packetID } : Packet).Within buf := by
  apply Packet.within_of_body rfl (Properties.within_empty buf 0) nil_infix nil_infix
    nil_infix
  · intro s hs
    cases hs
  · have := present_le (packetID != 0) 2
    show 0 + 0 + 0 + 0 + 0 + present (packetID != 0) 2 + 0 + 0 ≤ _
    omega

theorem decodePubAckRelRecComp_safe :
    Safe ((newPacket header version).decodePubAckRelRecComp buf) fun pk => pk.Within buf := by
  unfold Packet.decodePubAckRelRecComp
  apply safe_bind (safe_report (decodeUint16_safe buf 0))
  rintro ⟨packetID, o1⟩ ⟨h1, h1le, -⟩
  dsimp only at h1 h1le ⊢
  by_cases hv : (newPacket header version).protocolVersion = 5 ∧
      (newPacket header version).fixedHeader.remaining > 2
  · rw [if_pos hv]
    apply safe_bind (safe_report (decodeByte_safe buf o1))
    rintro ⟨reasonCode, o2⟩ ⟨h2, h2le⟩
    dsimp only at h2 h2le ⊢
    have hcode := ack_within header version buf packetID reasonCode (by omega) (Nat.le_refl o2)
      h2le (Properties.within_empty buf _)
    by_cases hr : (newPacket header version).fixedHeader.remaining > 3
    · rw [if_pos hr]
      apply safe_bind (noPropertiesAt_safe buf o2)
      intro none _
      cases none with
      | true => exact hcode
      | false =>
        apply safe_bind (decodePropertiesAt_safe _ _ h2le)
        rintro ⟨p, o3⟩ ⟨h3, h3le, hp⟩
        exact ack_within header version buf packetID reasonCode (by omega) h3 h3le hp
    · rw [if_neg hr]
      exact hcode
  · rw [if_neg hv]
    exact packetID_within header version buf packetID (by omega) h1le

theorem reasonCodes_within {reasonCodes : Bytes} (packetID : UInt16)
    (h2 : 2 ≤ o1) (h : o1 ≤ o2) (hle : o2 ≤ buf.length) (hp : p.Within buf (o2 - o1))
    (hcodes : reasonCodes <:+: buf) (hlen : reasonCodes.length = buf.length - o2) :
    ({ newPacket header version with packetID, reasonCodes, properties := p } : Packet).Within
      buf := by
  apply Packet.within_of_body rfl hp nil_infix hcodes nil_infix
  · intro s hs
    cases hs
  · have := present_le (packetID != 0) 2
    show o2 - o1 + 0 + reasonCodes.length + 0 + 0 + present (packetID != 0) 2 + 0 + 0 ≤ _
    omega

theorem subackDecode_safe : Safe ((newPacket header version).subackDecode buf) fun pk => pk.Within buf := by
  unfold Packet.subackDecode
  apply safe_bind (safe_report (decodeUint16_safe buf 0))
  rintro ⟨packetID, o1⟩ ⟨h1, h1le, -⟩
  dsimp only at h1 h1le ⊢
  apply safe_bind (optionalProperties_safe _ _ _ h1le)
  rintro ⟨p, o2⟩ ⟨h2, h2le, hp⟩
  dsimp only at h2 h2le hp ⊢
  apply safe_bind (sliceFrom_safe h2le)
  intro reasonCodes hcodes
  exact reasonCodes_within header version buf packetID (by omega) h2 h2le hp hcodes.1 hcodes.2

theorem unsubackDecode_safe :
    Safe ((newPacket header version).unsubackDecode buf) fun pk => pk.Within buf := by
  unfold Packet.unsubackDecode
  apply safe_bind (safe_report (decodeUint16_safe buf 0))
  rintro ⟨packetID, o1⟩ ⟨h1, h1le, -⟩
  dsimp only at h1 h1le ⊢
  by_cases hv : (newPacket header version).protocolVersion = 5
  · rw [if_pos hv]
    apply safe_bind (decodePropertiesAt_safe _ _ h1le)
    rintro ⟨p, o2⟩ ⟨h2, h2le, hp⟩
    dsimp only at h2 h2le hp ⊢
    apply safe_bind (sliceFrom_safe h2le)
    intro reasonCodes hcodes
    exact reasonCodes_within header version buf packetID (by omega) h2 h2le hp hcodes.1 hcodes.2
  · rw [if_neg hv]
    exact packetID_within header version buf packetID (by omega) h1le

structure FiltersRead (filters : List Subscription) (buf : Bytes) (start offset : ℕ) : Prop where
  sub : ∀ s ∈ filters, s.filter <:+: buf
  length_le : start + (filters.map Subscription.length).sum ≤ offset
  le : offset ≤ buf.length

variable {filters : List Subscription}

theorem FiltersRead.concat {buf : Bytes} {next : ℕ}
    {sub : Subscription} (h : FiltersRead filters buf start offset) (hsub : sub.filter <:+: buf)
    (hnext : offset + sub.length ≤ next) (hle : next ≤ buf.length) :
    FiltersRead (filters ++ [sub]) buf start next where
  sub := by
    intro s hs
    rcases mem_append.mp hs with hs | hs
    · exact h.sub s hs
    · rw [mem_singleton.mp hs]
      exact hsub
  length_le := by
    have := h.length_le
    simp only [map_append, map_cons, map_nil, sum_append, sum_cons,
      sum_nil]
    omega
  le := hle

theorem Subscription.ofOption_filter (identifiers : List ℕ) (filter : Bytes) (option : UInt8) :
    (Subscription.ofOption version identifiers filter option).filter = filter := by
  unfold Subscription.ofOption
  by_cases hv : version = 5
  · rw [if_pos hv]
    rfl
  · rw [if_neg hv]

theorem decodeSubscription_safe (identifiers : List ℕ) (h : FiltersRead filters buf start offset) :
    Safe (decodeSubscription version identifiers buf filters offset) fun r =>
      offset < r.2 ∧ FiltersRead r.1 buf start r.2 := by
  unfold decodeSubscription
  apply safe_bind (safe_report (decodeString_safe buf offset))
  rintro ⟨filter, o1⟩ hf
  have h1 := hf.next_eq
  dsimp only at hf h1 ⊢
  apply safe_bind (safe_report (decodeByte_safe buf o1))
  rintro ⟨option, o2⟩ ⟨h2, h2le⟩
  dsimp only at h2 h2le ⊢
  split_ifs
  · exact safe_fail
  · exact safe_fail
  · have hfilter := Subscription.ofOption_filter version identifiers filter option
    have hlen := present_le (Subscription.ofOption version identifiers filter option).optioned 1
    refine ⟨by dsimp only; omega, h.concat ?_ ?_ h2le⟩
    · rw [hfilter]
      exact hf.sub
    · rw [Subscription.length, hfilter]
      omega

private theorem decodeFilter_safe (h : FiltersRead filters buf start offset) :
    Safe (decodeFilter buf filters offset) fun r =>
      offset < r.2 ∧ FiltersRead r.1 buf start r.2 := by
  apply safe_store (safe_report (decodeString_safe buf offset))
  intro filter next hf
  have hnext := hf.next_eq
  dsimp only at hf hnext ⊢
  refine ⟨by omega, h.concat hf.sub ?_ hf.le⟩
  show offset + (filter.length + 0) ≤ next
  omega

theorem filters_safe {step : List Subscription → ℕ → Decoded (List Subscription × ℕ)}
    (hstep : ∀ filters offset, FiltersRead filters buf start offset →
      Safe (step filters offset) fun r => offset < r.2 ∧ FiltersRead r.1 buf start r.2)
    (hstart : start ≤ buf.length) :
    Safe (readWhile buf.length step buf.length [] start) fun filters =>
      FiltersRead filters buf start buf.length := by
  have hnil : FiltersRead [] buf start start := by
    constructor
    · intro s hs
      cases hs
    · exact Nat.le_refl start
    · exact hstart
  have hloop := safe_readWhile (n := buf.length) (fun filters => FiltersRead filters buf start)
    (fun filters offset _ h => hstep filters offset h) buf.length [] start (by omega) hnil
  apply safe_mono hloop
  rintro filters ⟨last, hlast, h⟩
  exact ⟨h.sub, h.length_le.trans h.le, Nat.le_refl _⟩

theorem filters_within (packetID : UInt16) (h2 : 2 ≤ o1) (h : o1 ≤ o2) (hp : p.Within buf (o2 - o1))
    (hfilters : FiltersRead filters buf o2 buf.length) :
    ({ newPacket header version with packetID, filters, properties := p } : Packet).Within
      buf := by
  apply Packet.within_of_body rfl hp nil_infix nil_infix nil_infix hfilters.sub
  have := present_le (packetID != 0) 2
  have := hfilters.length_le
  show o2 - o1 + 0 + 0 + 0 + (filters.map Subscription.length).sum + present (packetID != 0) 2 +
    0 + 0 ≤ _
  omega

private theorem subscribeDecode_safe :
    Safe ((newPacket header version).subscribeDecode buf) fun pk => pk.Within buf := by
  unfold Packet.subscribeDecode
  apply safe_bind (safe_report (decodeUint16_safe buf 0))
  rintro ⟨packetID, o1⟩ ⟨h1, h1le, -⟩
  dsimp only at h1 h1le ⊢
  apply safe_bind (optionalProperties_safe _ _ _ h1le)
  rintro ⟨p, o2⟩ ⟨h2, h2le, hp⟩
  dsimp only at h2 h2le hp ⊢
  apply safe_bind (filters_safe buf (fun filters offset h =>
    decodeSubscription_safe version buf p.subscriptionIdentifier h) h2le)
  intro filters hfilters
  exact filters_within header version buf packetID (by omega) h2 hp hfilters

private theorem unsubscribeDecode_safe :
    Safe ((newPacket header version).unsubscribeDecode buf) fun pk => pk.Within buf := by
  unfold Packet.unsubscribeDecode
  apply safe_bind (safe_report (decodeUint16_safe buf 0))
  rintro ⟨packetID, o1⟩ ⟨h1, h1le, -⟩
  dsimp only at h1 h1le ⊢
  apply safe_bind (optionalProperties_safe _ _ _ h1le)
  rintro ⟨p, o2⟩ ⟨h2, h2le, hp⟩
  dsimp only at h2 h2le hp ⊢
  apply safe_bind (filters_safe buf (fun filters offset h => decodeFilter_safe buf h) h2le)
  intro filters hfilters
  exact filters_within header version buf packetID (by omega) h2 hp hfilters

structure ConnectParams.Within (c : ConnectParams) (buf : Bytes) (bound : ℕ) : Prop where
  sub : ∀ f ∈ c.fields, f <:+: buf
  length_le : c.length ≤ bound

/-- A stage of the decoder that goes from `offset` to `next` adds at most these bytes. -/
structure ConnectRead (c : ConnectParams) (buf : Bytes) (bound offset next : ℕ) : Prop where
  within : c.Within buf (bound + (next - offset))
  lt : offset ≤ next
  le : next ≤ buf.length

variable {c : ConnectParams}

theorem ConnectRead.same {buf : Bytes}
    (h : c.Within buf bound) (hle : offset ≤ buf.length) : ConnectRead c buf bound offset offset where
  within := ⟨h.sub, h.length_le.trans (Nat.le_add_right _ _)⟩
  lt := Nat.le_refl offset
  le := hle

section

variable (h : c.Within buf bound)
include h

theorem decodeWill_safe (hwill : c.willProperties = {}) (hle : offset ≤ buf.length) :
    Safe (c.decodeWill version buf offset) fun r => ConnectRead r.1 buf bound offset r.2 := by
  unfold ConnectParams.decodeWill
  by_cases hflag : c.willFlag
  · rw [if_pos hflag, hwill]
    apply safe_bind (optionalProperties_safe _ _ _ hle)
    rintro ⟨p, o1⟩ ⟨h1, h1le, hp⟩
    dsimp only at h1 h1le hp ⊢
    apply safe_bind (safe_report (decodeString_safe buf o1))
    rintro ⟨willTopic, o2⟩ ht
    have h2 := ht.next_eq
    dsimp only at ht h2 ⊢
    apply safe_bind (safe_report (decodeBytes_safe buf o2))
    rintro ⟨willPayload, o3⟩ hpl
    have h3 := hpl.next_eq
    dsimp only at hpl h3 ⊢
    refine ⟨⟨?_, ?_⟩, by dsimp only; omega, hpl.le⟩
    · intro f hf
      have hold : ∀ g ∈ c.fields, g <:+: buf := h.sub
      simp only [ConnectParams.fields, mem_append, mem_cons, not_mem_nil,
        or_false] at hf hold
      rcases hf with (rfl | rfl | rfl | rfl | rfl | rfl) | hf
      · exact hold _ (by tauto)
      · exact hold _ (by tauto)
      · exact hold _ (by tauto)
      · exact hpl.sub
      · exact hold _ (by tauto)
      · exact ht.sub
      · exact hp.sub f hf
    · have hlen := h.length_le
      have hplen := hp.length_le
      rw [ConnectParams.length] at hlen
      show c.password.length + c.username.length + c.protocolName.length + willPayload.length +
        c.clientIdentifier.length + willTopic.length + p.length + present (c.keepalive != 0) 2 +
        present c.flagged 1 ≤ bound + (o3 - offset)
      omega
  · rw [if_neg hflag]
    exact ConnectRead.same h hle

theorem parameter_safe {e : DecodeError} {f : Bytes → ConnectParams}
    (hf : ∀ v, ∀ g ∈ (f v).fields, g = v ∨ g ∈ c.fields) (hlen : ∀ v, (f v).length ≤ c.length + v.length) :
    Safe (store f (report (fun _ => e) (decodeBytes buf offset))) fun r =>
      ConnectRead r.1 buf bound offset r.2 := by
  apply safe_store (safe_report (decodeBytes_safe buf offset))
  intro v next hv
  have hnext := hv.next_eq
  dsimp only at hv hnext ⊢
  refine ⟨⟨?_, ?_⟩, by omega, hv.le⟩
  · intro g hg
    rcases hf v g hg with rfl | hold
    · exact hv.sub
    · exact h.sub g hold
  · have := h.length_le
    have := hlen v
    omega

private theorem decodeUsername_safe (hle : offset ≤ buf.length) :
    Safe (c.decodeUsername buf offset) fun r => ConnectRead r.1 buf bound offset r.2 := by
  unfold ConnectParams.decodeUsername
  split_ifs
  · exact safe_fail
  · apply parameter_safe buf h
    · intro v g
      simp only [ConnectParams.fields, mem_append, mem_cons]
      tauto
    · intro v
      simp only [ConnectParams.length, ConnectParams.flagged]
      omega
  · exact ConnectRead.same h hle

private theorem decodePassword_safe (hle : offset ≤ buf.length) :
    Safe (c.decodePassword buf offset) fun r => ConnectRead r.1 buf bound offset r.2 := by
  unfold ConnectParams.decodePassword
  split_ifs
  · exact safe_fail
  · apply parameter_safe buf h
    · intro v g
      simp only [ConnectParams.fields, mem_append, mem_cons]
      tauto
    · intro v
      simp only [ConnectParams.length, ConnectParams.flagged]
      omega
  · exact ConnectRead.same h hle

end

theorem connectHeader_within {protocolName clientIdentifier : Bytes} (keepalive : UInt16)
    (flags : UInt8) (hname : protocolName <:+: buf) (hid : clientIdentifier <:+: buf) :
    (({ protocolName, keepalive, clientIdentifier } : ConnectParams).decodeFlags flags).Within buf
      (protocolName.length + clientIdentifier.length + 3) := by
  constructor
  · intro f hf
    simp only [ConnectParams.fields, ConnectParams.decodeFlags, mem_append, mem_cons,
      not_mem_nil, or_false] at hf
    rcases hf with (rfl | rfl | rfl | rfl | rfl | rfl) | hf
    · exact nil_infix
    · exact nil_infix
    · exact hname
    · exact nil_infix
    · exact hid
    · exact nil_infix
    · exact sub_of_empty buf (Properties.mem_empty hf)
  · have := present_le (keepalive != 0) 2
    have := present_le
      (({ protocolName, keepalive, clientIdentifier } : ConnectParams).decodeFlags flags).flagged 1
    rw [ConnectParams.length]
    simp only [ConnectParams.decodeFlags, length_nil, Properties.empty_length] at this ⊢
    omega

theorem connectDecode_safe : Safe ((newPacket header version).connectDecode buf) fun pk => pk.Within buf := by
  unfold Packet.connectDecode
  apply safe_bind (safe_report (decodeBytes_safe buf 0))
  rintro ⟨protocolName, o1⟩ hname
  have h1 := hname.next_eq
  dsimp only at hname h1 ⊢
  apply safe_bind (safe_report (decodeByte_safe buf o1))
  rintro ⟨protocolVersion, o2⟩ ⟨h2, -⟩
  dsimp only at h2 ⊢
  apply safe_bind (safe_report (decodeByte_safe buf o2))
  rintro ⟨flags, o3⟩ ⟨h3, -⟩
  dsimp only at h3 ⊢
  apply safe_bind (safe_report (decodeUint16_safe buf o3))
  rintro ⟨keepalive, o4⟩ ⟨h4, h4le, -⟩
  dsimp only at h4 h4le ⊢
  apply safe_bind (optionalProperties_safe _ _ _ h4le)
  rintro ⟨p, o5⟩ ⟨h5, h5le, hp⟩
  dsimp only at h5 h5le hp ⊢
  apply safe_bind (safe_report (decodeString_safe buf o5))
  rintro ⟨clientIdentifier, o6⟩ hid
  have h6 := hid.next_eq
  dsimp only at hid h6 ⊢
  apply safe_bind (decodeWill_safe protocolVersion buf
    (connectHeader_within buf keepalive flags hname.sub hid.sub) rfl hid.le)
  rintro ⟨c7, o7⟩ h7
  apply safe_bind (decodeUsername_safe buf h7.within h7.le)
  rintro ⟨c8, o8⟩ h8
  apply safe_bind (decodePassword_safe buf h8.within h8.le)
  rintro ⟨c9, o9⟩ h9
  have h7lt := h7.lt
  have h8lt := h8.lt
  have h9lt := h9.lt
  have h9le := h9.le
  have hlen := h9.within.length_le
  have hplen := hp.length_le
  dsimp only at h7lt h8lt h9lt h9le hlen
  apply Packet.within_of_parts h9.within.sub hp.sub nil_infix nil_infix nil_infix
  · intro s hs
    cases hs
  · show c9.length + p.length + 0 + 0 + 0 + 0 + 0 + 0 + 0 ≤ buf.length
    omega

theorem decodeAs_safe (t : FrameType) :
    Safe ((newPacket header version).decodeAs t buf) fun pk => pk.Within buf := by
  cases t with
  | connect => exact connectDecode_safe header version buf
  | connack => exact connackDecode_safe header version buf
  | publish => exact publishDecode_safe header version buf
  | puback | pubrec | pubrel | pubcomp => exact decodePubAckRelRecComp_safe header version buf
  | subscribe => exact subscribeDecode_safe header version buf
  | suback => exact subackDecode_safe header version buf
  | unsubscribe => exact unsubscribeDecode_safe header version buf
  | unsuback => exact unsubackDecode_safe header version buf
  | pingreq | pingresp => exact newPacket_within header version buf
  | disconnect => exact disconnectDecode_safe header version buf
  | auth => exact authDecode_safe header version buf

end Packets

end MonsterMQ.Packets
