import MonsterMQ.PacketRequestRoundTrip

/-!
# The packet codec

What is encoded is decoded to the same packet, except for acknowledgements whose reason
code is left out; and when a PUBLISH for a client with a maximum packet size keeps its
user properties.
-/

namespace MonsterMQ.Packets

open LittleEndian CheckedReads List

def Packet.identifiers (pk : Packet) : List ℕ :=
  if pk.protocolVersion = 5 then pk.properties.subscriptionIdentifier else []

structure ConnectParams.Agrees (version : UInt8) (c c' : ConnectParams) : Prop where
  protocolName : c'.protocolName = c.protocolName
  keepalive : c'.keepalive = c.keepalive
  clientIdentifier : c'.clientIdentifier = c.clientIdentifier
  username : c'.usernameFlag = c.usernameFlag ∧ c'.username = c.username
  password : c'.passwordFlag = c.passwordFlag ∧ c'.password = c.password
  clean : c'.clean = c.clean
  will : c'.willFlag = c.willFlag ∧ c'.willQos = c.willQos ∧ c'.willRetain = c.willRetain
  willMessage : c.willFlag → c'.willTopic = c.willTopic ∧ c'.willPayload = c.willPayload ∧
    (version = 5 → ∀ k, canEncode .willProperties k →
      c'.willProperties.value k = c.willProperties.value k)

def Packet.SameBody (pk pk' : Packet) : FrameType → Prop
  | .connect => pk.connect.Agrees pk.protocolVersion pk'.connect
  | .connack => pk'.sessionPresent = pk.sessionPresent ∧ pk'.reasonCode = pk.reasonCode
  | .publish => pk'.topicName = pk.topicName ∧ pk'.packetID = pk.packetID ∧
      pk'.payload = pk.payload
  | .puback | .pubrec | .pubrel | .pubcomp =>
    pk'.packetID = pk.packetID ∧ pk'.reasonCode = pk.reasonCode
  | .subscribe => pk'.packetID = pk.packetID ∧
      pk'.filters = pk.filters.map (Subscription.identified pk.identifiers)
  | .unsubscribe => pk'.packetID = pk.packetID ∧
      pk'.filters.map Subscription.filter = pk.filters.map Subscription.filter
  | .suback | .unsuback => pk'.packetID = pk.packetID ∧ pk'.reasonCodes = pk.reasonCodes
  | .pingreq | .pingresp => True
  | .disconnect | .auth => pk'.reasonCode = pk.reasonCode

/-- Two packets are the same in their flags, in every property that the packet type allows
and in the fields of the packet type. -/
structure Packet.Agrees (t : FrameType) (pk pk' : Packet) : Prop where
  type : pk'.fixedHeader.type = pk.fixedHeader.type
  qos : pk'.fixedHeader.qos = pk.fixedHeader.qos
  dup : pk'.fixedHeader.dup = pk.fixedHeader.dup
  retain : pk'.fixedHeader.retain = pk.fixedHeader.retain
  version : pk'.protocolVersion = pk.protocolVersion
  properties : pk.protocolVersion = 5 → ∀ k, canEncode t.toPacketType k →
    pk'.properties.value k = pk.properties.value k
  body : pk.SameBody pk' t

/-- The packet is encoded, and whatever follows its bytes, exactly these are decoded, to the
same packet. -/
def RoundTrips (t : FrameType) (pk : Packet) : Prop :=
  ∃ bytes pk', pk.encodeAs t = .ok bytes ∧
    (∀ more, readFrame pk.protocolVersion (bytes ++ more) = .ok (pk', more)) ∧ pk.Agrees t pk'

/-- An acknowledgement of version 5 with a reason code that is neither success nor an error,
and without a reason string and user properties. -/
def Packet.CutsReasonCode (pk : Packet) (t : FrameType) : Prop :=
  t ∈ [FrameType.puback, .pubrec, .pubrel, .pubcomp] ∧ pk.protocolVersion = 5 ∧
    pk.reasonCode ≠ 0 ∧ pk.reasonCode < 0x80 ∧ pk.properties.reasonString = [] ∧
    pk.properties.user = []

section RoundTrip

variable {pk pk' : Packet} {t : FrameType} {body : Bytes}

/-- A packet type whose decoder returns an agreeing packet for the body makes a round trip. -/
theorem roundTrips_of_body (hvalid : pk.Valid t) (hencode : pk.encodeAs t = .ok (pk.frame body))
    (hdecode : body.length ≤ 268435455 → (pk.blank body).decodeAs t body = .ok pk')
    (hagrees : pk.Agrees t pk') : RoundTrips t pk := by
  have hsize := hvalid.size body hencode
  exact ⟨_, pk', hencode, readFrame_frame hvalid.header hsize (hdecode hsize), hagrees⟩

theorem agrees_of_blank (hheader : pk'.fixedHeader = { pk.fixedHeader with remaining := body.length })
    (hversion : pk'.protocolVersion = pk.protocolVersion)
    (hproperties : pk.protocolVersion = 5 → ∀ k, canEncode t.toPacketType k →
      pk'.properties.value k = pk.properties.value k)
    (hbody : pk.SameBody pk' t) : pk.Agrees t pk' where
  type := by rw [hheader]
  qos := by rw [hheader]
  dup := by rw [hheader]
  retain := by rw [hheader]
  version := hversion
  properties := hproperties
  body := hbody

theorem Packet.Valid.sectionValid (h : pk.Valid t) :
    pk.protocolVersion = 5 → pk.properties.Valid pk.fixedHeader.type := by
  intro hv
  rw [h.header.type_eq]
  exact h.properties hv

theorem sent_agrees (h : pk.Valid t) (hmods : pk.mods = unrestricted) (n : ℕ) :
    pk.protocolVersion = 5 → ∀ k, canEncode t.toPacketType k →
      (pk.sentProperties n).value k = pk.properties.value k := by
  intro hv k hk
  rw [← h.header.type_eq] at hk
  exact sentProperties_value (h.sectionValid hv) hmods hv hk

private theorem sent_identifiers (h : pk.Valid .subscribe) (hmods : pk.mods = unrestricted) (n : ℕ) :
    (pk.sentProperties n).subscriptionIdentifier = pk.identifiers := by
  rw [Packet.identifiers]
  by_cases hv : pk.protocolVersion = 5
  · rw [if_pos hv]
    exact PropertyValue.identifiers.inj
      (sent_agrees h hmods n hv .subscriptionIdentifier (by decide))
  · rw [if_neg hv, Packet.sentProperties, if_neg hv]

theorem sentConnect_agrees (hc : pk.connect.Valid pk.protocolVersion)
    (hmods : pk.mods = unrestricted) : pk.connect.Agrees pk.protocolVersion pk.sentConnect := by
  obtain ⟨-, -, -, -, -, -, -, hwill⟩ := hc
  rw [Packet.sentConnect]
  by_cases hflag : pk.connect.willFlag
  · rw [if_pos hflag]
    exact {
      protocolName := rfl
      keepalive := rfl
      clientIdentifier := rfl
      username := ⟨rfl, rfl⟩
      password := ⟨rfl, rfl⟩
      clean := rfl
      will := ⟨rfl, rfl, rfl⟩
      willMessage := by
        intro _
        refine ⟨rfl, rfl, ?_⟩
        intro hv k hk
        dsimp only
        rw [if_pos hv, hmods]
        exact Properties.sent_value_unrestricted ((hwill hflag).2.2 hv) hk }
  · rw [if_neg hflag]
    exact {
      protocolName := rfl
      keepalive := rfl
      clientIdentifier := rfl
      username := ⟨rfl, rfl⟩
      password := ⟨rfl, rfl⟩
      clean := rfl
      will := ⟨rfl, rfl, rfl⟩
      willMessage := fun h => absurd h hflag }

private theorem ack_values {pkt : PacketType} {p : Properties}
    (hpkt : pkt ∈ [PacketType.puback, .pubrec, .pubrel, .pubcomp])
    (hreason : p.reasonString = []) (huser : p.user = []) {k : PropertyKey}
    (hk : canEncode pkt k) : p.value k = ({} : Properties).value k := by
  have honly : k = .reasonString ∨ k = .user := by
    revert hk
    simp only [mem_cons, not_mem_nil, or_false] at hpkt
    rcases hpkt with rfl | rfl | rfl | rfl <;> cases k <;> decide
  rcases honly with rfl | rfl
  · rw [Properties.value, hreason]
    rfl
  · rw [Properties.value, huser]
    rfl

private theorem ackEncode_eq (pk : Packet) : (pk.ackShort ∧
      pk.encodePubAckRelRecComp = .ok (pk.frame (encodeUint16 pk.packetID))) ∨
    (¬ pk.ackShort ∧
      pk.encodePubAckRelRecComp = .ok (pk.frame (encodeUint16 pk.packetID ++ pk.ackTail))) := by
  by_cases h : pk.ackShort
  · exact Or.inl ⟨h, if_pos h⟩
  · exact Or.inr ⟨h, if_neg h⟩

theorem encodeAll_ne_nil {p : Properties} {pkt : PacketType} {mods : Mods} {n : ℕ}
    {k : PropertyKey} (h : p.encodeProperty pkt mods n k ≠ []) : (p.encodeAll pkt mods n).length ≠ 0 := by
  intro hzero
  have hnil := flatMap_eq_nil_iff.mp (eq_nil_of_length_eq_zero hzero)
  exact h (hnil k (mem_propertyOrder k))

theorem ackTail_of_long (htype : pk.fixedHeader.type ∈
      [PacketType.puback, .pubrec, .pubrel, .pubcomp])
    (hmods : pk.mods = unrestricted) (hlong : ¬ pk.ackShort) :
    pk.protocolVersion = 5 ∧
      (pk.reasonCode ≥ 0x80 ∨ (pk.encodeProperties 2).length > 1) := by
  rw [Packet.ackShort, not_or, not_not] at hlong
  obtain ⟨hv, hlong⟩ := hlong
  have hcan : ∀ k, k = .reasonString ∨ k = .user → canEncode pk.fixedHeader.type k := by
    intro k hk
    simp only [mem_cons, not_mem_nil, or_false] at htype
    rcases htype with h | h | h | h <;> rw [h] <;> rcases hk with rfl | rfl <;> decide
  refine ⟨hv, ?_⟩
  by_cases hcode : pk.reasonCode < 0x80
  · right
    rw [Packet.encodeProperties, if_pos hv]
    apply (encode_length_gt_one).mpr
    by_cases hreason : pk.properties.reasonString = []
    · have huser : pk.properties.user ≠ [] := by
        intro huser
        exact hlong ⟨hcode, hreason, by rw [huser]; rfl⟩
      have hsends : (canEncode pk.fixedHeader.type .user &&
          pk.properties.written pk.mods 2 .user) = true := by
        rw [hcan .user (Or.inr rfl), hmods]
        rfl
      obtain ⟨u, users, hu⟩ := exists_cons_of_ne_nil huser
      apply encodeAll_ne_nil (k := .user)
      rw [Properties.encodeProperty, if_pos hsends]
      show pk.properties.userBytes ≠ []
      rw [Properties.userBytes, hu, flatMap_cons, UserProperty.encode]
      exact cons_ne_nil _ _
    · have hsends : (canEncode pk.fixedHeader.type .reasonString &&
          pk.properties.written pk.mods 2 .reasonString) = true := by
        rw [hcan .reasonString (Or.inl rfl), hmods]
        simp [Properties.written, unrestricted, Mods.fits, hreason]
      apply encodeAll_ne_nil (k := .reasonString)
      rw [encodeProperty_single ⟨by decide, by decide⟩, Properties.sends, if_pos hsends]
      exact cons_ne_nil _ _
  · exact Or.inl (UInt8.not_lt.mp hcode)

/-- The four acknowledgements: the round trip fails exactly when the reason code is cut. -/
theorem ack_roundTrips_iff (hvalid : pk.Valid t) (hmods : pk.mods = unrestricted)
    (ht : t ∈ [FrameType.puback, .pubrec, .pubrel, .pubcomp])
    (hencode : pk.encodeAs t = pk.encodePubAckRelRecComp)
    (hdecode : ∀ (q : Packet) b, q.decodeAs t b = q.decodePubAckRelRecComp b)
    (hsame : ∀ pk', pk.SameBody pk' t ↔
      pk'.packetID = pk.packetID ∧ pk'.reasonCode = pk.reasonCode)
    (hold : pk.protocolVersion ≠ 5 → pk.reasonCode = 0) :
    RoundTrips t pk ↔ ¬ pk.CutsReasonCode t := by
  have htype : pk.fixedHeader.type ∈ [PacketType.puback, .pubrec, .pubrel, .pubcomp] := by
    rw [hvalid.header.type_eq]
    simp only [mem_cons, not_mem_nil, or_false] at ht
    rcases ht with rfl | rfl | rfl | rfl <;> decide
  obtain ⟨hshort, hframe⟩ | ⟨hlong, hframe⟩ := ackEncode_eq pk
  · rw [← hencode] at hframe
    have hback := @shortAckDecode_encode pk _ rfl
    rw [← hdecode] at hback
    have hread := readFrame_frame hvalid.header (hvalid.size _ hframe) hback
    constructor
    · rintro ⟨bytes, pk', hbytes, hread', hagrees⟩ hcuts
      rw [hframe, Except.ok.injEq] at hbytes
      have h := hread []
      rw [hbytes, hread' [], Except.ok.injEq, Prod.mk.injEq] at h
      have hcode := ((hsame pk').mp hagrees.body).2
      rw [h.1] at hcode
      exact hcuts.2.2.1 hcode.symm
    · intro hcuts
      have hcode : pk.reasonCode = 0 := by
        by_contra hcode
        rcases hshort with hv | ⟨hlow, hreason, huser⟩
        · exact hcode (hold hv)
        · by_cases hv : pk.protocolVersion = 5
          · exact hcuts ⟨ht, hv, hcode, hlow, hreason, eq_nil_of_length_eq_zero huser⟩
          · exact hcode (hold hv)
      refine ⟨_, _, hframe, hread, agrees_of_blank rfl rfl ?_ ((hsame _).mpr ⟨rfl, hcode.symm⟩)⟩
      intro hv k hk
      rcases hshort with hv' | ⟨-, hreason, huser⟩
      · exact absurd hv hv'
      · rw [← hvalid.header.type_eq] at hk
        exact (ack_values htype hreason (eq_nil_of_length_eq_zero huser) hk).symm
  · obtain ⟨hv, htail⟩ := ackTail_of_long htype hmods hlong
    constructor
    · rintro - ⟨-, -, -, hlow, hreason, huser⟩
      exact hlong (Or.inr ⟨hlow, hreason, by rw [huser]; rfl⟩)
    · intro _
      apply roundTrips_of_body hvalid (hencode.trans hframe)
      · intro hsize
        rw [hdecode]
        exact longAckDecode_encode (hvalid.sectionValid hv) hv hsize htail rfl
      · exact agrees_of_blank rfl rfl (sent_agrees hvalid hmods 2) ((hsame _).mpr ⟨rfl, rfl⟩)

private theorem ping_frame (h : pk.fixedHeader.remaining = 0) : pk.fixedHeader.encode = pk.frame [] := by
  rw [Packet.frame, append_nil, FixedHeader.encode, FixedHeader.encode, h]
  rfl

/-- Without restrictions a valid packet makes the round trip, unless it is an
acknowledgement whose reason code the encoder cuts. -/
theorem roundTrips_iff (hvalid : pk.Valid t) (hmods : pk.mods = unrestricted) :
    RoundTrips t pk ↔ ¬ pk.CutsReasonCode t := by
  have hother : RoundTrips t pk → t ∉ [FrameType.puback, .pubrec, .pubrel, .pubcomp] →
      (RoundTrips t pk ↔ ¬ pk.CutsReasonCode t) :=
    fun h ht => ⟨fun _ hcuts => ht hcuts.1, fun _ => h⟩
  have hbody := hvalid.body
  cases t with
  | puback | pubrec | pubrel | pubcomp =>
    exact ack_roundTrips_iff hvalid hmods (by decide) rfl (fun _ _ => rfl) (fun _ => Iff.rfl) hbody
  | connect =>
    apply hother _ (by decide)
    apply roundTrips_of_body hvalid rfl
    · intro hsize
      exact connectDecode_encode hvalid.sectionValid hbody hsize rfl
    · exact agrees_of_blank rfl rfl (sent_agrees hvalid hmods 0) (sentConnect_agrees hbody hmods)
  | connack =>
    apply hother _ (by decide)
    apply roundTrips_of_body hvalid rfl
    · intro hsize
      exact connackDecode_encode hvalid.sectionValid hsize rfl
    · exact agrees_of_blank rfl rfl (sent_agrees hvalid hmods 4) ⟨rfl, rfl⟩
  | publish =>
    apply hother _ (by decide)
    obtain ⟨htopic, hid⟩ := hbody
    have hid' : ¬ (pk.fixedHeader.qos > 0 ∧ pk.packetID = 0) := fun h => hid.mp h.1 h.2
    apply roundTrips_of_body hvalid (publishEncode_eq hid')
    · intro hsize
      exact publishDecode_encode hvalid.sectionValid htopic
        (fun h => of_not_not fun hne => h (hid.mpr hne)) hsize rfl
    · refine agrees_of_blank rfl rfl ?_ ⟨rfl, rfl, rfl⟩
      intro hv k hk
      exact publishSent_value (hvalid.properties hv) hvalid.header.type_eq hmods hv hk
  | subscribe =>
    apply hother _ (by decide)
    apply roundTrips_of_body hvalid (if_neg hbody.1)
    · intro hsize
      exact subscribeDecode_encode hvalid.sectionValid hbody.2 hsize rfl
    · refine agrees_of_blank rfl rfl (sent_agrees hvalid hmods _) ⟨rfl, ?_⟩
      dsimp only
      rw [sent_identifiers hvalid hmods]
  | suback =>
    apply hother _ (by decide)
    apply roundTrips_of_body hvalid rfl
    · intro hsize
      exact subackDecode_encode hvalid.sectionValid hsize rfl
    · exact agrees_of_blank rfl rfl (sent_agrees hvalid hmods _) ⟨rfl, rfl⟩
  | unsubscribe =>
    apply hother _ (by decide)
    apply roundTrips_of_body hvalid (if_neg hbody.1)
    · intro hsize
      exact unsubscribeDecode_encode hvalid.sectionValid hbody.2 hsize rfl
    · refine agrees_of_blank rfl rfl (sent_agrees hvalid hmods _) ⟨rfl, ?_⟩
      dsimp only
      rw [map_map]
      rfl
  | unsuback =>
    apply hother _ (by decide)
    apply roundTrips_of_body hvalid rfl
    · intro hsize
      exact unsubackDecode_encode hvalid.sectionValid hbody hsize rfl
    · exact agrees_of_blank rfl rfl (sent_agrees hvalid hmods 2) ⟨rfl, rfl⟩
  | pingreq | pingresp =>
    apply hother _ (by decide)
    apply roundTrips_of_body hvalid (congrArg Except.ok (ping_frame hbody))
    · intro _
      rfl
    · exact agrees_of_blank rfl rfl (fun _ k hk => absurd hk (by cases k <;> decide)) trivial
  | disconnect =>
    apply hother _ (by decide)
    apply roundTrips_of_body hvalid rfl
    · intro hsize
      exact disconnectDecode_encode hvalid.sectionValid hbody hsize rfl
    · exact agrees_of_blank rfl rfl (sent_agrees hvalid hmods 1) rfl
  | auth =>
    apply hother _ (by decide)
    apply roundTrips_of_body hvalid rfl
    · intro hsize
      exact authDecode_encode (hvalid.sectionValid hbody) hbody hsize rfl
    · exact agrees_of_blank rfl rfl (sent_agrees hvalid hmods 1) rfl

end RoundTrip

end MonsterMQ.Packets
