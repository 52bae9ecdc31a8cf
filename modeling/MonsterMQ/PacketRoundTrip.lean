import MonsterMQ.PacketPropertyRoundTrip

/-!
# Packets read back

For each packet type, the decoder run over the frame that the encoder wrote returns the
packet and stops at the end of the frame. The one exception is an acknowledgement whose
reason code the encoder leaves out.
-/

namespace MonsterMQ.Packets

open LittleEndian CheckedReads List

def FixedHeader.Valid (fh : FixedHeader) : FrameType → Prop
  | .publish => fh.type = .publish ∧ fh.qos ≤ 2 ∧ (fh.qos = 0 → fh.dup = false)
  | .pubrel => fh.type = .pubrel ∧ fh.qos = 1 ∧ fh.dup = false ∧ fh.retain = false
  | .subscribe => fh.type = .subscribe ∧ fh.qos = 1 ∧ fh.dup = false ∧ fh.retain = false
  | .unsubscribe => fh.type = .unsubscribe ∧ fh.qos = 1 ∧ fh.dup = false ∧ fh.retain = false
  | t => fh.type = t.toPacketType ∧ fh.qos = 0 ∧ fh.dup = false ∧ fh.retain = false

theorem uint8_le_two {v : UInt8} (h : v ≤ 2) : v = 0 ∨ v = 1 ∨ v = 2 := by
  have hall : ∀ n : Fin 256, UInt8.ofNat n.val ≤ 2 →
      UInt8.ofNat n.val = 0 ∨ UInt8.ofNat n.val = 1 ∨ UInt8.ofNat n.val = 2 := by
    decide +kernel
  have := hall ⟨v.toNat, v.toNat_lt⟩
  rw [UInt8.ofNat_toNat] at this
  exact this h

theorem FixedHeader.decode_flagByte {fh : FixedHeader} {t : FrameType} (h : fh.Valid t) :
    FixedHeader.decode fh.flagByte = .ok (t, { fh with remaining := 0 }) := by
  obtain ⟨remaining, type, qos, dup, retain⟩ := fh
  show FixedHeader.decode (FixedHeader.mk 0 type qos dup retain).flagByte =
    .ok (t, FixedHeader.mk 0 type qos dup retain)
  cases t with
  | publish =>
    obtain ⟨rfl, hqos, hdup⟩ := h
    dsimp only at hqos hdup
    rcases uint8_le_two hqos with rfl | rfl | rfl
    · rw [hdup rfl]
      cases retain <;> decide
    · cases dup <;> cases retain <;> decide
    · cases dup <;> cases retain <;> decide
  | _ =>
    obtain ⟨rfl, rfl, rfl, rfl⟩ := h
    decide

def ConnectParams.Valid (c : ConnectParams) (version : UInt8) : Prop :=
  c.protocolName.length ≤ 65535 ∧ Encodable c.clientIdentifier ∧ c.willQos ≤ 3 ∧
    c.username.length ≤ 65535 ∧ c.password.length ≤ 65535 ∧
    (c.usernameFlag = false → c.username = []) ∧ (c.passwordFlag = false → c.password = []) ∧
    (c.willFlag → Encodable c.willTopic ∧ c.willPayload.length ≤ 65535 ∧
      (version = 5 → c.willProperties.Valid .willProperties))

def Subscription.Valid (s : Subscription) (version : UInt8) : Prop :=
  Encodable s.filter ∧ s.qos ≤ 2 ∧ s.retainHandling ≤ 2 ∧
    (version ≠ 5 → s.noLocal = false ∧ s.retainAsPublished = false ∧ s.retainHandling = 0)

def Packet.ValidBody (pk : Packet) : FrameType → Prop
  | .connect => pk.connect.Valid pk.protocolVersion
  | .publish => Encodable pk.topicName ∧ (pk.fixedHeader.qos > 0 ↔ pk.packetID ≠ 0)
  | .puback | .pubrec | .pubrel | .pubcomp => pk.protocolVersion ≠ 5 → pk.reasonCode = 0
  | .subscribe => pk.packetID ≠ 0 ∧ ∀ s ∈ pk.filters, s.Valid pk.protocolVersion
  | .unsubscribe => pk.packetID ≠ 0 ∧ ∀ s ∈ pk.filters, Encodable s.filter
  | .unsuback => pk.protocolVersion ≠ 5 → pk.reasonCodes = []
  | .pingreq | .pingresp => pk.fixedHeader.remaining = 0
  | .disconnect => pk.protocolVersion ≠ 5 → pk.reasonCode = 0
  | .auth => pk.protocolVersion = 5
  | .connack | .suback => True

structure Packet.Valid (pk : Packet) (t : FrameType) : Prop where
  version : pk.protocolVersion = 4 ∨ pk.protocolVersion = 5
  header : pk.fixedHeader.Valid t
  properties : pk.protocolVersion = 5 → pk.properties.Valid t.toPacketType
  body : pk.ValidBody t
  size : ∀ body, pk.encodeAs t = .ok (pk.frame body) → body.length ≤ 268435455

theorem FixedHeader.Valid.type_eq {fh : FixedHeader} {t : FrameType} (h : fh.Valid t) :
    fh.type = t.toPacketType := by
  cases t <;> exact h.1

theorem encodeLength_pos (n : ℕ) : 0 < (encodeLength n).length := by
  obtain ⟨b, tail, h, -⟩ := encodeLength_head n
  rw [h]
  exact Nat.succ_pos _

theorem readFrame_frame {pk pk' : Packet} {t : FrameType} {body : Bytes} {version : UInt8}
    (hheader : pk.fixedHeader.Valid t) (hsize : body.length ≤ 268435455)
    (hdecode : (newPacket { pk.fixedHeader with remaining := body.length } version).decodeAs t
      body = .ok pk') (more : Bytes) :
    readFrame version (pk.frame body ++ more) = .ok (pk', more) := by
  have hdrop : (encodeLength body.length ++ (body ++ more)).drop
      (encodeLength body.length).length = body ++ more := drop_left
  rw [Packet.frame, FixedHeader.encode, cons_append, cons_append, append_assoc,
    readFrame]
  apply (bind_eq_ok).mpr
  refine ⟨_, FixedHeader.decode_flagByte (t := t) hheader, ?_⟩
  apply (bind_eq_ok).mpr
  refine ⟨_, decodeLength_encode (by dsimp only; omega) _, ?_⟩
  dsimp only
  rw [hdrop, if_neg (by rw [length_append]; omega),
    slice_of_le (Nat.zero_le _) (by rw [length_append]; omega), drop_zero,
    take_left, drop_left]
  apply (bind_eq_ok).mpr
  exact ⟨_, rfl, (bind_eq_ok).mpr ⟨_, hdecode, rfl⟩⟩

@[grind =] def Packet.sentProperties (pk : Packet) (n : ℕ) : Properties :=
  if pk.protocolVersion = 5 then pk.properties.sent pk.fixedHeader.type pk.mods n else {}

theorem Properties.encodeAll_length_le (p : Properties) (pkt : PacketType) (mods : Mods) (n : ℕ) :
    (p.encodeAll pkt mods n).length < (p.encode pkt mods n).length := by
  have := encodeLength_pos (p.encodeAll pkt mods n).length
  rw [Properties.encode, length_append]
  omega

theorem decodePropertiesAt_encode {p : Properties} {pkt : PacketType} {mods : Mods} {n : ℕ}
    {f : DecodeError → DecodeError} {buf rest : Bytes} {offset : ℕ} (hvalid : p.Valid pkt)
    (hbuf : buf.length ≤ 268435455) (h : At buf offset (p.encode pkt mods n ++ rest)) :
    decodePropertiesAt {} pkt f buf offset =
      .ok (p.sent pkt mods n, offset + (p.encode pkt mods n).length) := by
  have hlen := h.length_le
  have hall := p.encodeAll_length_le pkt mods n
  rw [length_append] at hlen
  apply (bind_eq_ok).mpr
  refine ⟨_, h.sliceFrom_eq, (bind_eq_ok).mpr ⟨_, (report_eq_ok).mpr
    (Properties.decode_encode hvalid (by omega)), rfl⟩⟩

section Sections

variable {pk : Packet} {buf rest : Bytes} {offset n : ℕ}

theorem optionalProperties_encode {f : DecodeError → DecodeError}
    (hvalid : pk.protocolVersion = 5 → pk.properties.Valid pk.fixedHeader.type)
    (hbuf : buf.length ≤ 268435455) (h : At buf offset (pk.encodeProperties n ++ rest)) :
    (if pk.protocolVersion = 5 then decodePropertiesAt {} pk.fixedHeader.type f buf offset
      else pure ({}, offset)) =
      .ok (pk.sentProperties n, offset + (pk.encodeProperties n).length) := by
  rw [Packet.encodeProperties] at h ⊢
  rw [Packet.sentProperties]
  by_cases hv : pk.protocolVersion = 5
  · rw [if_pos hv] at h
    rw [if_pos hv, if_pos hv, if_pos hv]
    exact decodePropertiesAt_encode (hvalid hv) hbuf h
  · rw [if_neg hv, if_neg hv, if_neg hv]
    rfl

variable {k : PropertyKey}

theorem sentProperties_value (hvalid : pk.properties.Valid pk.fixedHeader.type)
    (hmods : pk.mods = unrestricted) (hv : pk.protocolVersion = 5) (hk : canEncode pk.fixedHeader.type k) :
    (pk.sentProperties n).value k = pk.properties.value k := by
  rw [Packet.sentProperties, if_pos hv, hmods]
  exact Properties.sent_value_unrestricted hvalid hk

def Packet.blank (pk : Packet) (body : Bytes) : Packet :=
  newPacket { pk.fixedHeader with remaining := body.length } pk.protocolVersion

variable {body : Bytes}

theorem connackDecode_encode (hvalid : pk.protocolVersion = 5 → pk.properties.Valid pk.fixedHeader.type)
    (hsize : body.length ≤ 268435455)
    (hbody : body = [encodeBool pk.sessionPresent, pk.reasonCode] ++ pk.encodeProperties 4) :
    (pk.blank body).connackDecode body = .ok { pk.blank body with
      sessionPresent := pk.sessionPresent, reasonCode := pk.reasonCode
      properties := pk.sentProperties 4 } := by
  have h0 : At body 0 (encodeBool pk.sessionPresent :: pk.reasonCode ::
      (pk.encodeProperties 4 ++ [])) := by
    rw [append_nil]
    exact ⟨[], hbody, rfl⟩
  have h1 : At body 1 _ := h0.tail
  have h2 : At body 2 _ := h1.tail
  have hp := optionalProperties_encode (f := inProperties) hvalid hsize h2
  exact (bind_eq_ok).mpr ⟨_, (report_eq_ok).mpr (decodeByteBool_cons h0), (bind_eq_ok).mpr
    ⟨_, (report_eq_ok).mpr (decodeByte_cons h1), (bind_eq_ok).mpr ⟨_, hp, rfl⟩⟩⟩

theorem disconnectDecode_encode (hvalid : pk.protocolVersion = 5 → pk.properties.Valid pk.fixedHeader.type)
    (hcode : pk.protocolVersion ≠ 5 → pk.reasonCode = 0) (hsize : body.length ≤ 268435455)
    (hbody : body = if pk.protocolVersion = 5 then pk.reasonCode :: pk.encodeProperties 1
      else []) :
    (pk.blank body).disconnectDecode body = .ok { pk.blank body with
      reasonCode := pk.reasonCode, properties := pk.sentProperties 1 } := by
  rw [Packet.disconnectDecode]
  by_cases hv : pk.protocolVersion = 5
  · rw [if_pos hv] at hbody
    have h0 : At body 0 (pk.reasonCode :: (pk.encodeProperties 1 ++ [])) := by
      rw [append_nil]
      exact ⟨[], hbody, rfl⟩
    have h1 : At body 1 _ := h0.tail
    have hp := optionalProperties_encode (f := inProperties) hvalid hsize h1
    have hlong : 1 < body.length := by
      have := encodeLength_pos (pk.properties.encodeAll pk.fixedHeader.type pk.mods 1).length
      rw [hbody, length_cons, Packet.encodeProperties, if_pos hv, Properties.encode,
        length_append]
      omega
    have hsome : (pk.blank body).protocolVersion = 5 ∧
        (pk.blank body).fixedHeader.remaining > 0 := ⟨hv, by exact Nat.lt_of_succ_lt hlong⟩
    have htwo : (pk.blank body).fixedHeader.remaining > 1 := hlong
    rw [if_pos hv] at hp
    rw [if_pos hsome]
    apply (bind_eq_ok).mpr
    refine ⟨_, (report_eq_ok).mpr (decodeByte_cons h0), ?_⟩
    dsimp only
    rw [if_pos htwo]
    exact (bind_eq_ok).mpr ⟨_, hp, rfl⟩
  · have hnone : ¬ ((pk.blank body).protocolVersion = 5 ∧
        (pk.blank body).fixedHeader.remaining > 0) := fun h => hv h.1
    rw [if_neg hnone, hcode hv, Packet.sentProperties, if_neg hv]
    rfl

theorem authDecode_encode (hvalid : pk.properties.Valid pk.fixedHeader.type)
    (hv : pk.protocolVersion = 5) (hsize : body.length ≤ 268435455)
    (hbody : body = pk.reasonCode :: pk.properties.encode pk.fixedHeader.type pk.mods 1) :
    (pk.blank body).authDecode body = .ok { pk.blank body with
      reasonCode := pk.reasonCode, properties := pk.sentProperties 1 } := by
  have h0 : At body 0 (pk.reasonCode ::
      (pk.properties.encode pk.fixedHeader.type pk.mods 1 ++ [])) := by
    rw [append_nil]
    exact ⟨[], hbody, rfl⟩
  have h1 : At body 1 _ := h0.tail
  have hp := decodePropertiesAt_encode (f := inProperties) hvalid hsize h1
  have hlong : 1 < body.length := by
    have := encodeLength_pos (pk.properties.encodeAll pk.fixedHeader.type pk.mods 1).length
    rw [hbody, length_cons, Properties.encode, length_append]
    omega
  rw [Packet.authDecode, if_neg (by omega), Packet.sentProperties, if_pos hv]
  apply (bind_eq_ok).mpr
  refine ⟨_, (report_eq_ok).mpr (decodeByte_cons h0), ?_⟩
  dsimp only
  rw [if_pos hlong]
  exact (bind_eq_ok).mpr ⟨_, hp, rfl⟩

theorem subackDecode_encode (hvalid : pk.protocolVersion = 5 → pk.properties.Valid pk.fixedHeader.type)
    (hsize : body.length ≤ 268435455)
    (hbody : body = encodeUint16 pk.packetID ++ pk.encodeProperties n ++ pk.reasonCodes) :
    (pk.blank body).subackDecode body = .ok { pk.blank body with
      packetID := pk.packetID, reasonCodes := pk.reasonCodes
      properties := pk.sentProperties n } := by
  have h0 : At body 0 (encodeUint16 pk.packetID ++ (pk.encodeProperties n ++ pk.reasonCodes)) :=
    ⟨[], by rw [hbody, append_assoc]; rfl, rfl⟩
  have h2 := h0.next
  have hp := optionalProperties_encode (f := inProperties) hvalid hsize h2
  have hrest := h2.next
  exact (bind_eq_ok).mpr ⟨_, (report_eq_ok).mpr (decodeUint16_encode h0), (bind_eq_ok).mpr
    ⟨_, hp, (bind_eq_ok).mpr ⟨_, hrest.sliceFrom_eq, rfl⟩⟩⟩

theorem unsubackDecode_encode (hvalid : pk.protocolVersion = 5 → pk.properties.Valid pk.fixedHeader.type)
    (hcodes : pk.protocolVersion ≠ 5 → pk.reasonCodes = []) (hsize : body.length ≤ 268435455)
    (hbody : body = encodeUint16 pk.packetID ++
      if pk.protocolVersion = 5 then pk.encodeProperties 2 ++ pk.reasonCodes else []) :
    (pk.blank body).unsubackDecode body = .ok { pk.blank body with
      packetID := pk.packetID, reasonCodes := pk.reasonCodes
      properties := pk.sentProperties 2 } := by
  have h0 : At body 0 (encodeUint16 pk.packetID ++
      if pk.protocolVersion = 5 then pk.encodeProperties 2 ++ pk.reasonCodes else []) :=
    ⟨[], hbody, rfl⟩
  have h2 := h0.next
  apply (bind_eq_ok).mpr
  refine ⟨_, (report_eq_ok).mpr (decodeUint16_encode h0), ?_⟩
  dsimp only
  by_cases hv : pk.protocolVersion = 5
  · have hfive : (pk.blank body).protocolVersion = 5 := hv
    rw [if_pos hv] at h2
    have hp := optionalProperties_encode (f := inProperties) hvalid hsize h2
    have hrest := h2.next
    rw [if_pos hv] at hp
    rw [if_pos hfive]
    exact (bind_eq_ok).mpr ⟨_, hp, (bind_eq_ok).mpr ⟨_, hrest.sliceFrom_eq, rfl⟩⟩
  · have hfive : ¬ (pk.blank body).protocolVersion = 5 := hv
    rw [if_neg hfive, hcodes hv, Packet.sentProperties, if_neg hv]
    rfl

theorem noPropertiesAt_cons {b : UInt8} (h : At buf offset (b :: rest)) :
    noPropertiesAt buf offset = .ok (decide (b = 0)) := by
  have hlen := h.length_le
  rw [length_cons] at hlen
  rw [noPropertiesAt, if_pos (by omega), h.index_head]
  rfl

variable {p : Properties}

theorem encode_of_empty {pkt : PacketType} {mods : Mods}
    (h : (p.encodeAll pkt mods n).length = 0) : p.encode pkt mods n = [0] := by
  rw [Properties.encode, h, eq_nil_of_length_eq_zero h]
  rfl

theorem publishProperties_encode
    (hvalid : pk.properties.Valid pk.fixedHeader.type) (hv : pk.protocolVersion = 5)
    (hsize : body.length ≤ 268435455)
    (h : At body offset (pk.properties.encode pk.fixedHeader.type pk.mods n ++ rest)) :
    (pk.blank body).decodePublishProperties body offset =
      .ok (pk.properties.sent pk.fixedHeader.type pk.mods n,
        offset + (pk.properties.encode pk.fixedHeader.type pk.mods n).length) := by
  have hfive : (pk.blank body).protocolVersion = 5 := hv
  obtain ⟨b, tail, hhead, hzero⟩ :=
    encodeLength_head (pk.properties.encodeAll pk.fixedHeader.type pk.mods n).length
  have hcons : At body offset (b :: (tail ++
      (pk.properties.encodeAll pk.fixedHeader.type pk.mods n ++ rest))) := by
    rw [Properties.encode, hhead, append_assoc] at h
    exact h
  rw [Packet.decodePublishProperties, if_pos hfive]
  apply (bind_eq_ok).mpr
  refine ⟨_, noPropertiesAt_cons hcons, ?_⟩
  by_cases hb : b = 0
  · have hempty := hzero hb
    rw [if_pos (decide_eq_true hb), encode_of_empty hempty,
      Properties.sent_of_empty hvalid hempty]
    rfl
  · rw [if_neg (by rw [decide_eq_true_eq]; exact hb)]
    exact decodePropertiesAt_encode hvalid hsize h

theorem packetID_encode (h : At body offset
      ((if pk.fixedHeader.qos > 0 then encodeUint16 pk.packetID else []) ++ rest))
    (hid : ¬ pk.fixedHeader.qos > 0 → pk.packetID = 0) :
    (if (pk.blank body).fixedHeader.qos > 0 then
        report (DecodeError.wrapped · .malformedPacketID) (decodeUint16 body offset)
      else pure ((pk.blank body).packetID, offset)) =
      .ok (pk.packetID, offset +
        (if pk.fixedHeader.qos > 0 then encodeUint16 pk.packetID else []).length) := by
  by_cases hq : pk.fixedHeader.qos > 0
  · have hq' : (pk.blank body).fixedHeader.qos > 0 := hq
    rw [if_pos hq] at h
    rw [if_pos hq', if_pos hq]
    exact (report_eq_ok).mpr (decodeUint16_encode h)
  · have hq' : ¬ (pk.blank body).fixedHeader.qos > 0 := hq
    rw [if_neg hq', if_neg hq, hid hq]
    rfl

theorem publishDecode_start {tail : Bytes}
    (htopic : Encodable pk.topicName) (hid : ¬ pk.fixedHeader.qos > 0 → pk.packetID = 0)
    (hbody : body = pk.publishStart ++ (tail ++ pk.payload))
    (hr : (pk.blank body).decodePublishProperties body pk.publishStart.length =
      .ok (p, pk.publishStart.length + tail.length)) :
    (pk.blank body).publishDecode body = .ok { pk.blank body with
      topicName := pk.topicName, packetID := pk.packetID, properties := p
      payload := pk.payload } := by
  have h0 : At body 0 (encodeString pk.topicName ++
      ((if pk.fixedHeader.qos > 0 then encodeUint16 pk.packetID else []) ++
        (tail ++ pk.payload))) := by
    rw [hbody, Packet.publishStart, append_assoc]
    exact at_zero _
  have h1 := h0.next
  have hstart : pk.publishStart.length = 0 + (2 + pk.topicName.length) +
      (if pk.fixedHeader.qos > 0 then encodeUint16 pk.packetID else []).length := by
    rw [Packet.publishStart, length_append, encodeString_length, Nat.zero_add]
  rw [encodeString_length] at h1
  have h2 := h1.next
  rw [← hstart] at h2
  have hid' := packetID_encode h1 hid
  rw [← hstart] at hid'
  exact (bind_eq_ok).mpr ⟨_, (report_eq_ok).mpr (decodeString_encode htopic.1 htopic.2 h0),
    (bind_eq_ok).mpr ⟨_, hid', (bind_eq_ok).mpr ⟨_, hr, (bind_eq_ok).mpr
      ⟨_, h2.next.sliceFrom_eq, rfl⟩⟩⟩⟩

def Packet.publishTail (pk : Packet) : Bytes :=
  if pk.protocolVersion ≠ 5 then []
  else if !pk.properties.hasPublishProperties then [0]
  else pk.properties.encode pk.fixedHeader.type pk.mods
    (pk.publishStart.length + pk.payload.length)

def Packet.publishSent (pk : Packet) : Properties :=
  if pk.protocolVersion = 5 ∧ pk.properties.hasPublishProperties then
    pk.properties.sent pk.fixedHeader.type pk.mods (pk.publishStart.length + pk.payload.length)
  else {}

theorem publishTail_cases (pk : Packet) :
    (pk.protocolVersion ≠ 5 ∧ pk.publishTail = [] ∧ pk.publishSent = {}) ∨
    (pk.protocolVersion = 5 ∧ pk.properties.hasPublishProperties = false ∧
      pk.publishTail = [0] ∧ pk.publishSent = {}) ∨
    (pk.protocolVersion = 5 ∧ pk.properties.hasPublishProperties = true ∧
      pk.publishTail = pk.properties.encode pk.fixedHeader.type pk.mods
        (pk.publishStart.length + pk.payload.length) ∧
      pk.publishSent = pk.properties.sent pk.fixedHeader.type pk.mods
        (pk.publishStart.length + pk.payload.length)) := by
  by_cases hv : pk.protocolVersion = 5
  · right
    cases hp : pk.properties.hasPublishProperties with
    | false =>
      left
      refine ⟨hv, rfl, ?_, ?_⟩
      · rw [Packet.publishTail, if_neg (fun h => h hv), hp]
        rfl
      · rw [Packet.publishSent, if_neg]
        rintro ⟨-, h⟩
        rw [hp] at h
        cases h
    | true =>
      right
      refine ⟨hv, rfl, ?_, ?_⟩
      · rw [Packet.publishTail, if_neg (fun h => h hv), hp]
        rfl
      · rw [Packet.publishSent, if_pos ⟨hv, hp⟩]
  · left
    refine ⟨hv, ?_, ?_⟩
    · rw [Packet.publishTail, if_pos hv]
    · rw [Packet.publishSent, if_neg (fun h => hv h.1)]

theorem publishEncode_eq (hid : ¬ (pk.fixedHeader.qos > 0 ∧ pk.packetID = 0)) :
    pk.publishEncode = .ok (pk.frame (pk.publishStart ++ (pk.publishTail ++ pk.payload))) := by
  rw [Packet.publishEncode, if_neg hid]
  obtain ⟨hv, htail, -⟩ | ⟨hv, hp, htail, -⟩ | ⟨hv, hp, htail, -⟩ := publishTail_cases pk
  · rw [if_pos (Or.inl hv), if_neg hv, htail, append_assoc]
  · have hfast : pk.protocolVersion ≠ 5 ∨ (!pk.properties.hasPublishProperties) = true := by
      rw [hp]
      exact Or.inr rfl
    rw [if_pos hfast, if_pos hv, htail, append_assoc]
  · have hslow : ¬ (pk.protocolVersion ≠ 5 ∨ (!pk.properties.hasPublishProperties) = true) := by
      simp [hv, hp]
    rw [if_neg hslow, htail, append_assoc]

theorem publishTail_decode (hvalid : pk.protocolVersion = 5 → pk.properties.Valid pk.fixedHeader.type)
    (hsize : body.length ≤ 268435455) (h : At body offset (pk.publishTail ++ rest)) :
    (pk.blank body).decodePublishProperties body offset =
      .ok (pk.publishSent, offset + pk.publishTail.length) := by
  obtain ⟨hv, htail, hsent⟩ | ⟨hv, -, htail, hsent⟩ | ⟨hv, -, htail, hsent⟩ :=
    publishTail_cases pk
  · have hfive : ¬ (pk.blank body).protocolVersion = 5 := hv
    rw [htail, hsent, Packet.decodePublishProperties, if_neg hfive]
    rfl
  · have hfive : (pk.blank body).protocolVersion = 5 := hv
    rw [htail] at h
    rw [htail, hsent, Packet.decodePublishProperties, if_pos hfive]
    apply (bind_eq_ok).mpr
    exact ⟨_, noPropertiesAt_cons h, rfl⟩
  · rw [htail] at h
    rw [htail, hsent]
    exact publishProperties_encode (hvalid hv) hv hsize h

theorem publishDecode_encode (hvalid : pk.protocolVersion = 5 → pk.properties.Valid pk.fixedHeader.type)
    (htopic : Encodable pk.topicName) (hid : ¬ pk.fixedHeader.qos > 0 → pk.packetID = 0)
    (hsize : body.length ≤ 268435455) (hbody : body = pk.publishStart ++ (pk.publishTail ++ pk.payload)) :
    (pk.blank body).publishDecode body = .ok { pk.blank body with
      topicName := pk.topicName, packetID := pk.packetID, properties := pk.publishSent
      payload := pk.payload } := by
  have hat : At body pk.publishStart.length (pk.publishTail ++ pk.payload) :=
    ⟨pk.publishStart, hbody, rfl⟩
  exact publishDecode_start htopic hid hbody (publishTail_decode hvalid hsize hat)

theorem value_of_no_publish_properties (hp : p.hasPublishProperties = false) (hvalid : p.Valid .publish)
    (hk : canEncode .publish k) : p.value k = ({} : Properties).value k := by
  simp only [Properties.hasPublishProperties, Bool.or_eq_false_iff] at hp
  obtain ⟨⟨⟨⟨⟨⟨⟨hformat, hexpiry⟩, hcontent⟩, hresponse⟩, hcorrelation⟩, hids⟩, halias⟩, huser⟩ := hp
  cases k with
  | payloadFormat => exact Properties.value_of_not_written (n := 0) (hvalid _ hk) hformat
  | messageExpiryInterval => exact Properties.value_of_not_written (n := 0) (hvalid _ hk) hexpiry
  | contentType => exact Properties.value_of_not_written (n := 0) (hvalid _ hk) hcontent
  | responseTopic =>
    have hnil : p.responseTopic = [] := by simpa using hresponse
    rw [Properties.value, hnil]
    rfl
  | correlationData =>
    have hnil : p.correlationData = [] := by simpa using hcorrelation
    rw [Properties.value, hnil]
    rfl
  | subscriptionIdentifier => exact Properties.value_of_not_written (n := 0) (hvalid _ hk) hids
  | topicAlias => exact Properties.value_of_not_written (n := 0) (hvalid _ hk) halias
  | user =>
    have hnil : p.user = [] := by simpa using huser
    rw [Properties.value, hnil]
    rfl
  | _ => exact absurd hk (by decide)

theorem publishSent_value (hvalid : pk.properties.Valid .publish)
    (htype : pk.fixedHeader.type = .publish) (hmods : pk.mods = unrestricted)
    (hv : pk.protocolVersion = 5) (hk : canEncode .publish k) :
    pk.publishSent.value k = pk.properties.value k := by
  obtain ⟨hv', -⟩ | ⟨-, hp, -, hsent⟩ | ⟨-, -, -, hsent⟩ := publishTail_cases pk
  · exact absurd hv hv'
  · rw [hsent]
    exact (value_of_no_publish_properties hp hvalid hk).symm
  · rw [hsent, hmods, htype]
    exact Properties.sent_value_unrestricted hvalid hk

theorem encode_length_gt_one {pkt : PacketType} {mods : Mods} :
    (p.encode pkt mods n).length > 1 ↔ (p.encodeAll pkt mods n).length ≠ 0 := by
  constructor
  · intro h hzero
    rw [encode_of_empty hzero] at h
    exact absurd h (by decide)
  · intro h
    have := p.encodeAll_length_le pkt mods n
    omega

/-- The encoder cuts the acknowledgement down to its packet id. -/
def Packet.ackShort (pk : Packet) : Prop :=
  pk.protocolVersion ≠ 5 ∨
    (pk.reasonCode < 0x80 ∧ pk.properties.reasonString = [] ∧ pk.properties.user.length = 0)

theorem shortAckDecode_encode (hbody : body = encodeUint16 pk.packetID) :
    (pk.blank body).decodePubAckRelRecComp body =
      .ok { pk.blank body with packetID := pk.packetID } := by
  have h0 : At body 0 (encodeUint16 pk.packetID ++ []) := by
    rw [append_nil]
    exact ⟨[], hbody, rfl⟩
  have hlen : ¬ (pk.blank body).fixedHeader.remaining > 2 := by
    show ¬ body.length > 2
    rw [hbody, encodeUint16_length]
    decide
  apply (bind_eq_ok).mpr
  refine ⟨_, (report_eq_ok).mpr (decodeUint16_encode h0), ?_⟩
  dsimp only
  rw [if_neg (fun h => hlen h.2)]
  rfl

theorem longAckDecode_encode (hvalid : pk.properties.Valid pk.fixedHeader.type)
    (hv : pk.protocolVersion = 5) (hsize : body.length ≤ 268435455)
    (htail : pk.reasonCode ≥ 0x80 ∨ (pk.encodeProperties 2).length > 1)
    (hbody : body = encodeUint16 pk.packetID ++ pk.ackTail) :
    (pk.blank body).decodePubAckRelRecComp body = .ok { pk.blank body with
      packetID := pk.packetID, reasonCode := pk.reasonCode
      properties := pk.sentProperties 2 } := by
  have hfive : (pk.blank body).protocolVersion = 5 := hv
  have hall : (pk.encodeProperties 2).length > 1 ↔
      (pk.properties.encodeAll pk.fixedHeader.type pk.mods 2).length ≠ 0 := by
    rw [Packet.encodeProperties, if_pos hv]
    exact encode_length_gt_one
  have h0 : At body 0 (encodeUint16 pk.packetID ++ (pk.reasonCode ::
      (if (pk.encodeProperties 2).length > 1 then pk.encodeProperties 2 else []))) := by
    rw [hbody, Packet.ackTail, if_pos htail]
    exact at_zero _
  have h2 : At body 2 _ := h0.next
  have h3 : At body 3
      (if (pk.encodeProperties 2).length > 1 then pk.encodeProperties 2 else []) :=
    h2.tail
  have hlen := h3.length_le
  have hsome : (pk.blank body).protocolVersion = 5 ∧
      (pk.blank body).fixedHeader.remaining > 2 := by
    refine ⟨hv, ?_⟩
    show body.length > 2
    omega
  apply (bind_eq_ok).mpr
  refine ⟨_, (report_eq_ok).mpr (decodeUint16_encode h0), ?_⟩
  dsimp only
  rw [if_pos hsome]
  apply (bind_eq_ok).mpr
  refine ⟨_, (report_eq_ok).mpr (decodeByte_cons h2), ?_⟩
  dsimp only
  rw [Packet.sentProperties, if_pos hv]
  by_cases hmore : (pk.encodeProperties 2).length > 1
  · rw [if_pos hmore] at h3 hlen
    have hthree : (pk.blank body).fixedHeader.remaining > 3 := by
      show body.length > 3
      omega
    have h3' : At body 3 (pk.properties.encode pk.fixedHeader.type pk.mods 2 ++ []) := by
      rw [append_nil]
      rwa [Packet.encodeProperties, if_pos hv] at h3
    obtain ⟨b, tail, hhead, hzero⟩ :=
      encodeLength_head (pk.properties.encodeAll pk.fixedHeader.type pk.mods 2).length
    have hcons : At body 3 (b :: (tail ++
        (pk.properties.encodeAll pk.fixedHeader.type pk.mods 2 ++ []))) := by
      rw [Properties.encode, hhead, append_assoc] at h3'
      exact h3'
    have hb : b ≠ 0 := fun hb => hall.mp hmore (hzero hb)
    rw [if_pos hthree]
    apply (bind_eq_ok).mpr
    refine ⟨_, noPropertiesAt_cons hcons, ?_⟩
    rw [if_neg (by rw [decide_eq_true_eq]; exact hb)]
    exact (bind_eq_ok).mpr ⟨_, decodePropertiesAt_encode hvalid hsize h3', rfl⟩
  · rw [if_neg hmore, length_nil] at hlen
    have hthree : ¬ (pk.blank body).fixedHeader.remaining > 3 := by
      show ¬ body.length > 3
      omega
    have hempty := of_not_not fun h => hmore (hall.mpr h)
    rw [if_neg hthree, Properties.sent_of_empty hvalid hempty]
    rfl

end Sections

end MonsterMQ.Packets
