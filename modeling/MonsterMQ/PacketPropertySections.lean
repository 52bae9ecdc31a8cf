import MonsterMQ.PacketDecodingBounds

/-!
# The property sections of a packet

Where the layout of a packet puts its property sections, and that a section that reaches
out of the packet, or holds a property that reaches out of the section, makes the decoder
of the packet fail.
-/

namespace MonsterMQ.Packets

open LittleEndian CheckedReads List

inductive SectionAt (buf : Bytes) (qos : UInt8) : FrameType → UInt8 → ℕ → Prop
  | connack : SectionAt buf qos .connack 5 2
  | publish {w : ℕ} : stringWidth buf = some w →
      SectionAt buf qos .publish 5 (if qos > 0 then w + 2 else w)
  | ack {t : FrameType} : t ∈ [FrameType.puback, .pubrec, .pubrel, .pubcomp] →
      3 < buf.length → SectionAt buf qos t 5 3
  | identified {t : FrameType} : t ∈ [FrameType.subscribe, .suback, .unsubscribe, .unsuback] →
      SectionAt buf qos t 5 2
  | disconnect : 1 < buf.length → SectionAt buf qos .disconnect 5 1
  | auth {version : UInt8} : 1 < buf.length → SectionAt buf qos .auth version 1
  | connect {version flags : UInt8} {w : ℕ} {rest : Bytes} : stringWidth buf = some w →
      buf.drop w = 5 :: flags :: rest → SectionAt buf qos .connect version (w + 4)
  | will {version flags : UInt8} {w n bu i : ℕ} {rest : Bytes} : stringWidth buf = some w →
      buf.drop w = 5 :: flags :: rest → bit flags 2 →
      decodeLength (buf.drop (w + 4)) = .ok (n, bu) →
      stringWidth (buf.drop (w + 4 + (n + bu))) = some i →
      SectionAt buf qos .connect version (w + 4 + (n + bu) + i)

theorem decodePropertiesAt_overruns {pkt : PacketType} {f : DecodeError → DecodeError}
    {buf : Bytes} {offset : ℕ} (h : Overruns (buf.drop offset)) (r : Properties × ℕ) :
    decodePropertiesAt {} pkt f buf offset ≠ .ok r := by
  intro hok
  have hle : offset ≤ buf.length := by
    by_contra hlt
    rw [drop_eq_nil_of_le (by omega)] at h
    obtain ⟨n, bu, hlength, -⟩ := h
    cases hlength
  rw [decodePropertiesAt, sliceFrom_of_le hle] at hok
  obtain ⟨rest, hrest, hok⟩ := (bind_eq_ok).mp hok
  cases hrest
  obtain ⟨r', hr', -⟩ := (bind_eq_ok).mp hok
  exact Properties.decode_overruns pkt h r' ((report_eq_ok).mp hr')

theorem not_overruns_of_none {buf : Bytes} {offset : ℕ}
    (h : noPropertiesAt buf offset = .ok true) : ¬ Overruns (buf.drop offset) := by
  unfold noPropertiesAt at h
  by_cases hlt : offset < buf.length
  · rw [if_pos hlt, index_of_lt hlt] at h
    have hzero : buf.get ⟨offset, hlt⟩ = 0 := by simpa using Except.ok.inj h
    have hdrop : buf.drop offset = 0 :: buf.drop (offset + 1) := by
      rw [drop_eq_getElem_cons hlt]
      exact congrArg (· :: _) hzero
    have hlength : decodeLength (0 :: buf.drop (offset + 1)) = .ok (0, 1) := rfl
    rintro ⟨n, bu, hn, hover⟩
    rw [hdrop, hlength] at hn
    cases hn
    rcases hover with hbig | ⟨o, -, ho, -⟩
    · exact Nat.not_lt_zero _ hbig
    · exact Nat.not_lt_zero _ ho
  · rw [if_neg hlt] at h
    cases h

section Types

variable (header : FixedHeader) (buf : Bytes) (pk : Packet)

variable {version : UInt8}

private theorem connackDecode_sections (hv : (newPacket header version).protocolVersion = 5)
    (h : (newPacket header version).connackDecode buf = .ok pk) : ¬ Overruns (buf.drop 2) := by
  intro hover
  obtain ⟨r1, h1, h⟩ := (bind_eq_ok).mp h
  have ho1 := (safe_of_ok (decodeByteBool_safe buf 0) ((report_eq_ok).mp h1)).1
  obtain ⟨r2, h2, h⟩ := (bind_eq_ok).mp h
  have ho2 := (safe_of_ok (decodeByte_safe buf r1.2) ((report_eq_ok).mp h2)).1
  obtain ⟨r3, h3, -⟩ := (bind_eq_ok).mp h
  rw [if_pos hv, ho2, ho1] at h3
  exact decodePropertiesAt_overruns hover r3 h3

theorem disconnectDecode_sections (hv : (newPacket header version).protocolVersion = 5)
    (hremaining : (newPacket header version).fixedHeader.remaining > 1)
    (h : (newPacket header version).disconnectDecode buf = .ok pk) : ¬ Overruns (buf.drop 1) := by
  intro hover
  have hsome : (newPacket header version).protocolVersion = 5 ∧
      (newPacket header version).fixedHeader.remaining > 0 := ⟨hv, Nat.lt_of_succ_lt hremaining⟩
  rw [Packet.disconnectDecode, if_pos hsome] at h
  obtain ⟨r1, h1, h⟩ := (bind_eq_ok).mp h
  have ho1 := (safe_of_ok (decodeByte_safe buf 0) ((report_eq_ok).mp h1)).1
  obtain ⟨r2, h2, -⟩ := (bind_eq_ok).mp h
  rw [if_pos hremaining, ho1] at h2
  exact decodePropertiesAt_overruns hover r2 h2

private theorem authDecode_sections (hlong : 1 < buf.length)
    (h : (newPacket header version).authDecode buf = .ok pk) : ¬ Overruns (buf.drop 1) := by
  intro hover
  rw [Packet.authDecode, if_neg (by omega)] at h
  obtain ⟨r1, h1, h⟩ := (bind_eq_ok).mp h
  have ho1 := (safe_of_ok (decodeByte_safe buf 0) ((report_eq_ok).mp h1)).1
  obtain ⟨r2, h2, -⟩ := (bind_eq_ok).mp h
  rw [ho1, if_pos hlong] at h2
  exact decodePropertiesAt_overruns hover r2 h2

section

variable (hv : (newPacket header version).protocolVersion = 5)
include hv

theorem publishDecode_sections {w : ℕ}
    (hw : stringWidth buf = some w) (h : (newPacket header version).publishDecode buf = .ok pk) :
    ¬ Overruns (buf.drop (if header.qos > 0 then w + 2 else w)) := by
  intro hover
  obtain ⟨r1, h1, h⟩ := (bind_eq_ok).mp h
  have ht := safe_of_ok (decodeString_safe buf 0) ((report_eq_ok).mp h1)
  have ho1 : r1.2 = w := by
    have := ht.width
    rw [drop_zero, hw, Nat.sub_zero, Option.some.injEq] at this
    exact this.symm
  obtain ⟨r2, h2, h⟩ := (bind_eq_ok).mp h
  have ho2 : r2.2 = if header.qos > 0 then w + 2 else w := by
    by_cases hq : header.qos > 0
    · rw [if_pos hq]
      rw [show (newPacket header version).fixedHeader.qos = header.qos from rfl, if_pos hq] at h2
      rw [(safe_of_ok (decodeUint16_safe buf r1.2) ((report_eq_ok).mp h2)).1, ho1]
    · rw [if_neg hq]
      rw [show (newPacket header version).fixedHeader.qos = header.qos from rfl, if_neg hq] at h2
      cases h2
      exact ho1
  obtain ⟨r3, h3, -⟩ := (bind_eq_ok).mp h
  rw [← ho2] at hover
  rw [Packet.decodePublishProperties, if_pos hv] at h3
  obtain ⟨none, hnone, h3⟩ := (bind_eq_ok).mp h3
  cases none with
  | true => exact not_overruns_of_none hnone hover
  | false => exact decodePropertiesAt_overruns hover r3 h3

theorem decodePubAckRelRecComp_sections (hremaining : (newPacket header version).fixedHeader.remaining > 3)
    (h : (newPacket header version).decodePubAckRelRecComp buf = .ok pk) : ¬ Overruns (buf.drop 3) := by
  intro hover
  obtain ⟨⟨packetID, o1⟩, h1, h⟩ := (bind_eq_ok).mp h
  have ho1 := (safe_of_ok (decodeUint16_safe buf 0) ((report_eq_ok).mp h1)).1
  have hsome : (newPacket header version).protocolVersion = 5 ∧
      (newPacket header version).fixedHeader.remaining > 2 := ⟨hv, Nat.lt_of_succ_lt hremaining⟩
  dsimp only at ho1 h
  rw [if_pos hsome] at h
  obtain ⟨⟨reasonCode, o2⟩, h2, h⟩ := (bind_eq_ok).mp h
  have ho2 := (safe_of_ok (decodeByte_safe buf o1) ((report_eq_ok).mp h2)).1
  dsimp only at ho2 h
  rw [ho1] at ho2
  rw [if_pos hremaining] at h
  obtain ⟨none, hnone, h⟩ := (bind_eq_ok).mp h
  rw [ho2] at hnone
  cases none with
  | true => exact not_overruns_of_none hnone hover
  | false =>
    obtain ⟨r3, h3, -⟩ := (bind_eq_ok).mp h
    rw [ho2] at h3
    exact decodePropertiesAt_overruns hover r3 h3

private theorem subackDecode_sections
    (h : (newPacket header version).subackDecode buf = .ok pk) : ¬ Overruns (buf.drop 2) := by
  intro hover
  obtain ⟨r1, h1, h⟩ := (bind_eq_ok).mp h
  have ho1 := (safe_of_ok (decodeUint16_safe buf 0) ((report_eq_ok).mp h1)).1
  obtain ⟨r2, h2, -⟩ := (bind_eq_ok).mp h
  rw [if_pos hv, ho1] at h2
  exact decodePropertiesAt_overruns hover r2 h2

private theorem subscribeDecode_sections
    (h : (newPacket header version).subscribeDecode buf = .ok pk) : ¬ Overruns (buf.drop 2) := by
  intro hover
  obtain ⟨r1, h1, h⟩ := (bind_eq_ok).mp h
  have ho1 := (safe_of_ok (decodeUint16_safe buf 0) ((report_eq_ok).mp h1)).1
  obtain ⟨r2, h2, -⟩ := (bind_eq_ok).mp h
  rw [if_pos hv, ho1] at h2
  exact decodePropertiesAt_overruns hover r2 h2

private theorem unsubscribeDecode_sections (h : (newPacket header version).unsubscribeDecode buf = .ok pk) :
    ¬ Overruns (buf.drop 2) := by
  intro hover
  obtain ⟨r1, h1, h⟩ := (bind_eq_ok).mp h
  have ho1 := (safe_of_ok (decodeUint16_safe buf 0) ((report_eq_ok).mp h1)).1
  obtain ⟨r2, h2, -⟩ := (bind_eq_ok).mp h
  rw [if_pos hv, ho1] at h2
  exact decodePropertiesAt_overruns hover r2 h2

private theorem unsubackDecode_sections
    (h : (newPacket header version).unsubackDecode buf = .ok pk) : ¬ Overruns (buf.drop 2) := by
  intro hover
  obtain ⟨⟨packetID, o1⟩, h1, h⟩ := (bind_eq_ok).mp h
  have ho1 := (safe_of_ok (decodeUint16_safe buf 0) ((report_eq_ok).mp h1)).1
  dsimp only at ho1 h
  rw [if_pos hv] at h
  obtain ⟨r2, h2, -⟩ := (bind_eq_ok).mp h
  rw [ho1] at h2
  exact decodePropertiesAt_overruns hover r2 h2

end

/-- What the variable header of an accepted CONNECT says about where its sections begin. -/
structure ConnectLayout (buf : Bytes) (w : ℕ) (version flags : UInt8) : Prop where
  head : ∃ rest, buf.drop w = version :: flags :: rest
  properties : version = 5 → ¬ Overruns (buf.drop (w + 4))
  will : version = 5 → bit flags 2 → ∀ n bu i, decodeLength (buf.drop (w + 4)) = .ok (n, bu) →
    stringWidth (buf.drop (w + 4 + (n + bu))) = some i →
    ¬ Overruns (buf.drop (w + 4 + (n + bu) + i))

theorem Properties.decode_length {p : Properties} {pkt : PacketType} {b : Bytes} {n bu : ℕ}
    {r : Properties × ℕ} (hn : decodeLength b = .ok (n, bu)) (h : p.decode pkt b = .ok r) : r.2 = n + bu := by
  rw [Properties.decode, hn] at h
  change (if n = 0 then _ else _) = _ at h
  by_cases hzero : n = 0
  · rw [if_pos hzero] at h
    cases h
    rfl
  rw [if_neg hzero] at h
  by_cases hbig : n > (b.drop bu).length
  · rw [if_pos hbig] at h
    exact absurd h fail_ne_ok
  rw [if_neg hbig] at h
  obtain ⟨bt, -, h⟩ := (bind_eq_ok).mp h
  obtain ⟨s, -, h⟩ := (bind_eq_ok).mp h
  cases h
  rfl

private theorem decodePropertiesAt_length {p : Properties} {pkt : PacketType}
    {f : DecodeError → DecodeError} {buf : Bytes} {offset n bu : ℕ} {r : Properties × ℕ}
    (hle : offset ≤ buf.length) (hn : decodeLength (buf.drop offset) = .ok (n, bu))
    (h : decodePropertiesAt p pkt f buf offset = .ok r) : r.2 = offset + (n + bu) := by
  rw [decodePropertiesAt, sliceFrom_of_le hle] at h
  obtain ⟨rest, hrest, h⟩ := (bind_eq_ok).mp h
  cases hrest
  obtain ⟨⟨q, m⟩, hq, h⟩ := (bind_eq_ok).mp h
  have hm : m = n + bu := Properties.decode_length hn ((report_eq_ok).mp hq)
  cases h
  show offset + m = _
  rw [hm]

theorem connectDecode_layout {w : ℕ} (hw : stringWidth buf = some w)
    (h : (newPacket header version).connectDecode buf = .ok pk) : ∃ v flags, ConnectLayout buf w v flags := by
  obtain ⟨⟨protocolName, o1⟩, h1, h⟩ := (bind_eq_ok).mp h
  have hname := safe_of_ok (decodeBytes_safe buf 0) ((report_eq_ok).mp h1)
  have ho1 : o1 = w := by
    have := hname.width
    rw [drop_zero, hw, Nat.sub_zero, Option.some.injEq] at this
    exact this.symm
  subst ho1
  obtain ⟨⟨v, o2⟩, h2, h⟩ := (bind_eq_ok).mp h
  obtain ⟨ho2, -, hv⟩ := safe_of_ok (decodeByte_head buf o1) ((report_eq_ok).mp h2)
  obtain ⟨⟨flags, o3⟩, h3, h⟩ := (bind_eq_ok).mp h
  obtain ⟨ho3, -, hflags⟩ := safe_of_ok (decodeByte_head buf o2) ((report_eq_ok).mp h3)
  obtain ⟨⟨keepalive, o4⟩, h4, h⟩ := (bind_eq_ok).mp h
  obtain ⟨ho4, hle4, -⟩ := safe_of_ok (decodeUint16_safe buf o3) ((report_eq_ok).mp h4)
  dsimp only at ho2 hv ho3 hflags ho4 hle4
  have h4eq : o4 = o1 + 4 := by omega
  subst h4eq
  obtain ⟨⟨p, o5⟩, h5, h⟩ := (bind_eq_ok).mp h
  obtain ⟨⟨clientIdentifier, o6⟩, h6, h⟩ := (bind_eq_ok).mp h
  have hid := safe_of_ok (decodeString_safe buf o5) ((report_eq_ok).mp h6)
  obtain ⟨r7, h7, -⟩ := (bind_eq_ok).mp h
  refine ⟨v, flags, ⟨⟨_, by rw [hv, ← ho2, hflags]⟩, ?_, ?_⟩⟩
  · intro hfive hover
    rw [if_pos hfive] at h5
    exact decodePropertiesAt_overruns hover _ h5
  · intro hfive hwill n bu i hn hi hover
    rw [if_pos hfive] at h5
    have ho5 : o5 = o1 + 4 + (n + bu) := decodePropertiesAt_length hle4 hn h5
    have ho6 : o6 = o5 + i := by
      have hwidth := hid.width
      have hnext := hid.next_eq
      dsimp only at hwidth hnext
      rw [ho5, hi, Option.some.injEq] at hwidth
      omega
    rw [ConnectParams.decodeWill] at h7
    have hflag : (({ (newPacket header version).connect with
        protocolName, keepalive, clientIdentifier } : ConnectParams).decodeFlags flags).willFlag :=
      hwill
    rw [if_pos hflag] at h7
    obtain ⟨r8, h8, -⟩ := (bind_eq_ok).mp h7
    rw [if_pos hfive, ho6, ho5] at h8
    exact decodePropertiesAt_overruns hover _ h8

end Types

/-- No property section of an accepted packet reaches out of the packet, and no property of
it reaches out of the section. -/
theorem readPacket_sections {t : FrameType} {version qos : UInt8} {dup retain : Bool}
    {buf : Bytes} {pk : Packet} {offset : ℕ} (hat : SectionAt buf qos t version offset)
    (h : readPacket t version qos dup retain buf = .ok pk) : ¬ Overruns (buf.drop offset) := by
  cases hat with
  | connack => exact connackDecode_sections _ buf pk rfl h
  | publish hw => exact publishDecode_sections _ buf pk rfl hw h
  | ack ht hlong =>
    simp only [mem_cons, not_mem_nil, or_false] at ht
    rcases ht with rfl | rfl | rfl | rfl
    · exact decodePubAckRelRecComp_sections _ buf pk rfl (by exact hlong) h
    · exact decodePubAckRelRecComp_sections _ buf pk rfl (by exact hlong) h
    · exact decodePubAckRelRecComp_sections _ buf pk rfl (by exact hlong) h
    · exact decodePubAckRelRecComp_sections _ buf pk rfl (by exact hlong) h
  | identified ht =>
    simp only [mem_cons, not_mem_nil, or_false] at ht
    rcases ht with rfl | rfl | rfl | rfl
    · exact subscribeDecode_sections _ buf pk rfl h
    · exact subackDecode_sections _ buf pk rfl h
    · exact unsubscribeDecode_sections _ buf pk rfl h
    · exact unsubackDecode_sections _ buf pk rfl h
  | disconnect hlong => exact disconnectDecode_sections _ buf pk rfl (by exact hlong) h
  | auth hlong => exact authDecode_sections _ buf pk hlong h
  | connect hw hhead =>
    obtain ⟨v, flags, hlayout⟩ := connectDecode_layout _ buf pk hw h
    obtain ⟨rest, hrest⟩ := hlayout.head
    rw [hhead, List.cons.injEq] at hrest
    exact hlayout.properties hrest.1.symm
  | will hw hhead hwill hn hi =>
    obtain ⟨v, flags, hlayout⟩ := connectDecode_layout _ buf pk hw h
    obtain ⟨rest, hrest⟩ := hlayout.head
    rw [hhead, List.cons.injEq, List.cons.injEq] at hrest
    rw [hrest.2.1] at hwill
    exact hlayout.will hrest.1.symm hwill _ _ _ hn hi

/-- Decoding the body of a frame comes to an end without an index or a slice bound outside
the body. It gives an error, or a packet whose strings and byte strings are parts of the
body and whose fields are together no longer than it; and an error whenever a property
section of the packet announces more than the packet holds or one of its properties does
not end inside the announced length. -/
theorem readPacket_in_bounds (t : FrameType) (version qos : UInt8) (dup retain : Bool) (buf : Bytes) :
    ((∃ e, readPacket t version qos dup retain buf = fail e) ∨
      ∃ pk, readPacket t version qos dup retain buf = .ok pk ∧
        (∀ f ∈ pk.fields, f <:+: buf) ∧ pk.length ≤ buf.length) ∧
    ∀ offset, SectionAt buf qos t version offset → Overruns (buf.drop offset) →
      ∃ e, readPacket t version qos dup retain buf = fail e := by
  have hsafe : Safe (readPacket t version qos dup retain buf) fun pk => pk.Within buf :=
    decodeAs_safe _ version buf t
  constructor
  · cases hr : readPacket t version qos dup retain buf with
    | ok pk =>
      have hpk := safe_of_ok hsafe hr
      exact Or.inr ⟨pk, rfl, hpk.sub, hpk.length_le⟩
    | error fault =>
      obtain ⟨e, he⟩ := fails_of_safe hsafe (fun pk hok => by rw [hr] at hok; cases hok)
      exact Or.inl ⟨e, hr ▸ he⟩
  · intro offset hat hover
    exact fails_of_safe hsafe fun pk hok => readPacket_sections hat hok hover

/-- A PUBLISH of three property bytes whose content type, of four, reaches into the payload. -/
theorem content_type_past_section_rejected :
    (SectionAt [0, 1, 97, 3, 3, 0, 4, 65, 66, 67, 68] 0 .publish 5 3 ∧
      Overruns [3, 3, 0, 4, 65, 66, 67, 68]) ∧
    ∃ e, readPacket .publish 5 0 false false [0, 1, 97, 3, 3, 0, 4, 65, 66, 67, 68] = fail e := by
  have hat : SectionAt [0, 1, 97, 3, 3, 0, 4, 65, 66, 67, 68] 0 .publish 5 3 :=
    SectionAt.publish rfl
  have hover : Overruns [3, 3, 0, 4, 65, 66, 67, 68] := by
    refine ⟨3, 1, rfl, Or.inr ⟨0, Walk.here 0, by decide, ?_⟩⟩
    intro last hlast
    cases hlast
    decide
  exact ⟨⟨hat, hover⟩, (readPacket_in_bounds .publish 5 0 false false
    [0, 1, 97, 3, 3, 0, 4, 65, 66, 67, 68]).2 3 hat hover⟩

end MonsterMQ.Packets
