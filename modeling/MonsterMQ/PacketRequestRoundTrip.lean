import MonsterMQ.PacketRoundTrip

/-!
# Requests read back

The packets with a list of filters, and CONNECT with its optional parts.
-/

namespace MonsterMQ.Packets

open LittleEndian CheckedReads List

/-- The options of a filter as they come back: with the identifier of the packet. -/
def Subscription.identified (identifiers : List ℕ) (s : Subscription) : Subscription :=
  { s with identifier := identifiers.head?.getD 0 }

theorem Subscription.decodeOptions_encode {s : Subscription} (hqos : s.qos ≤ 2)
    (hhandling : s.retainHandling ≤ 2) : Subscription.decodeOptions { filter := s.filter } s.encodeOptions =
      { s with identifier := 0 } ∧
    ¬ (s.encodeOptions &&& 0xC0 ≠ 0 ∨ (s.encodeOptions >>> 4) &&& 3 = 3) := by
  obtain ⟨filter, identifier, retainHandling, qos, retainAsPublished, noLocal⟩ := s
  have hall : ∀ q ∈ [(0 : UInt8), 1, 2], ∀ r ∈ [(0 : UInt8), 1, 2], ∀ a n : Bool,
      ∀ b, b = (Subscription.mk [] 0 r q a n).encodeOptions →
      (b &&& 3 = q ∧ bit b 2 = n ∧ bit b 3 = a ∧ (3 : UInt8) &&& (b >>> 4) = r) ∧
        ¬ (b &&& 0xC0 ≠ 0 ∨ (b >>> 4) &&& 3 = 3) := by
    intro q hq r hr a n b hb
    subst hb
    revert q r a n
    decide +kernel
  have hq : qos ∈ [(0 : UInt8), 1, 2] := by
    rcases uint8_le_two hqos with h | h | h <;> simp only at h <;> simp [h]
  have hr : retainHandling ∈ [(0 : UInt8), 1, 2] := by
    rcases uint8_le_two hhandling with h | h | h <;> simp only at h <;> simp [h]
  obtain ⟨⟨h1, h2, h3, h4⟩, h5⟩ := hall qos hq retainHandling hr retainAsPublished noLocal _ rfl
  refine ⟨?_, h5⟩
  show Subscription.mk _ _ _ _ _ _ = Subscription.mk _ _ _ _ _ _
  congr 1

theorem Subscription.ofOption_encode {s : Subscription} {version : UInt8}
    (hs : s.Valid version) (identifiers : List ℕ) : Subscription.ofOption version identifiers s.filter
      (if version = 5 then s.encodeOptions else s.qos) = s.identified identifiers := by
  obtain ⟨-, hqos, hhandling, hold⟩ := hs
  rw [Subscription.ofOption, Subscription.identified]
  by_cases hv : version = 5
  · rw [if_pos hv, if_pos hv, (Subscription.decodeOptions_encode hqos hhandling).1]
  · obtain ⟨hlocal, hretain, hzero⟩ := hold hv
    rw [if_neg hv, if_neg hv, hlocal, hretain, hzero]

section Filters

variable {buf rest : Bytes} {offset : ℕ} {version : UInt8} {identifiers : List ℕ}

theorem decodeSubscription_encode {s : Subscription} {filters : List Subscription}
    (hs : s.Valid version) (h : At buf offset (s.encode version ++ rest)) :
    decodeSubscription version identifiers buf filters offset =
      .ok (filters ++ [s.identified identifiers], offset + (s.encode version).length) := by
  have hlen : (s.encode version).length = 2 + s.filter.length + 1 := by
    rw [Subscription.encode, length_append, encodeString_length]
    rfl
  rw [Subscription.encode, append_assoc] at h
  have h1 := h.next
  rw [encodeString_length] at h1
  have hback := Subscription.ofOption_encode hs identifiers
  apply (bind_eq_ok).mpr
  refine ⟨_, (report_eq_ok).mpr (decodeString_encode hs.1.1 hs.1.2 h), (bind_eq_ok).mpr
    ⟨_, (report_eq_ok).mpr (decodeByte_cons h1), ?_⟩⟩
  dsimp only
  have hoptions : ¬ (version = 5 ∧
      ((if version = 5 then s.encodeOptions else s.qos) &&& 0xC0 ≠ 0 ∨
        ((if version = 5 then s.encodeOptions else s.qos) >>> 4) &&& 3 = 3)) := by
    rintro ⟨hv, hbad⟩
    rw [if_pos hv] at hbad
    exact (Subscription.decodeOptions_encode hs.2.1 hs.2.2.1).2 hbad
  have hqos : ¬ (s.identified identifiers).qos > 2 := UInt8.not_lt.mpr hs.2.1
  rw [if_neg hoptions, hback, if_neg hqos, hlen]
  rfl

private theorem decodeFilter_encode {s : Subscription} {filters : List Subscription}
    (hs : Encodable s.filter) (h : At buf offset (encodeString s.filter ++ rest)) :
    decodeFilter buf filters offset =
      .ok (filters ++ [{ filter := s.filter }], offset + (encodeString s.filter).length) := by
  rw [decodeFilter, decodeString_encode hs.1 hs.2 h, encodeString_length]
  rfl

theorem filters_yield {step : List Subscription → ℕ → Decoded (List Subscription × ℕ)}
    (enc : Subscription → Bytes) (back : Subscription → Subscription) (good : Subscription → Prop)
    (hpos : ∀ s, 0 < (enc s).length)
    (hstep : ∀ s filters offset rest, good s → At buf offset (enc s ++ rest) →
      step filters offset = .ok (filters ++ [back s], offset + (enc s).length))
    (subs : List Subscription) : ∀ filters offset, (∀ s ∈ subs, good s) →
      At buf offset (subs.flatMap enc) →
      Yields buf.length step filters offset (filters ++ subs.map back) := by
  induction subs with
  | nil =>
    intro filters offset _ h
    have hlen := h.length_le
    rw [flatMap_nil, length_nil] at hlen
    rw [map_nil, append_nil]
    exact yields_done (by omega)
  | cons s subs ih =>
    intro filters offset hgood h
    obtain ⟨hs, hgood⟩ := forall_mem_cons.mp hgood
    rw [flatMap_cons] at h
    have hnext := h.next
    have hlen := hnext.length_le
    have hlt := hpos s
    have hrest := ih (filters ++ [back s]) (offset + (enc s).length) hgood hnext
    rw [append_assoc] at hrest
    exact yields_step (by omega) (hstep s filters offset _ hs h) (by omega) hrest

end Filters

section Packets

variable {pk : Packet} {body : Bytes}

theorem subscribeDecode_encode (hvalid : pk.protocolVersion = 5 → pk.properties.Valid pk.fixedHeader.type)
    (hfilters : ∀ s ∈ pk.filters, s.Valid pk.protocolVersion) (hsize : body.length ≤ 268435455)
    {n : ℕ} (hbody : body = encodeUint16 pk.packetID ++ pk.encodeProperties n ++
      pk.filters.flatMap (Subscription.encode pk.protocolVersion)) :
    (pk.blank body).subscribeDecode body = .ok { pk.blank body with
      packetID := pk.packetID, properties := pk.sentProperties n
      filters := pk.filters.map
        (Subscription.identified (pk.sentProperties n).subscriptionIdentifier) } := by
  have h0 : At body 0 (encodeUint16 pk.packetID ++ (pk.encodeProperties n ++
      pk.filters.flatMap (Subscription.encode pk.protocolVersion))) :=
    ⟨[], by rw [hbody, append_assoc]; rfl, rfl⟩
  have h2 := h0.next
  have hp := optionalProperties_encode (f := inProperties) hvalid hsize h2
  have hloop := filters_yield (Subscription.encode pk.protocolVersion)
    (Subscription.identified (pk.sentProperties n).subscriptionIdentifier)
    (fun s => s.Valid pk.protocolVersion)
    (fun s => by rw [Subscription.encode, length_append]; exact Nat.succ_pos _)
    (fun s filters offset rest hs h => decodeSubscription_encode hs h)
    pk.filters [] _ hfilters h2.next body.length (by omega)
  exact (bind_eq_ok).mpr ⟨_, (report_eq_ok).mpr (decodeUint16_encode h0), (bind_eq_ok).mpr
    ⟨_, hp, (bind_eq_ok).mpr ⟨_, hloop, rfl⟩⟩⟩

theorem unsubscribeDecode_encode (hvalid : pk.protocolVersion = 5 → pk.properties.Valid pk.fixedHeader.type)
    (hfilters : ∀ s ∈ pk.filters, Encodable s.filter) (hsize : body.length ≤ 268435455)
    {n : ℕ} (hbody : body = encodeUint16 pk.packetID ++ pk.encodeProperties n ++
      pk.filters.flatMap fun s => encodeString s.filter) :
    (pk.blank body).unsubscribeDecode body = .ok { pk.blank body with
      packetID := pk.packetID, properties := pk.sentProperties n
      filters := pk.filters.map fun s => { filter := s.filter } } := by
  have h0 : At body 0 (encodeUint16 pk.packetID ++ (pk.encodeProperties n ++
      pk.filters.flatMap fun s => encodeString s.filter)) :=
    ⟨[], by rw [hbody, append_assoc]; rfl, rfl⟩
  have h2 := h0.next
  have hp := optionalProperties_encode (f := inProperties) hvalid hsize h2
  have hloop := filters_yield (fun s => encodeString s.filter) (fun s => { filter := s.filter })
    (fun s => Encodable s.filter)
    (fun s => by rw [encodeString_length]; omega)
    (fun s filters offset rest hs h => decodeFilter_encode hs h)
    pk.filters [] _ hfilters h2.next body.length (by omega)
  exact (bind_eq_ok).mpr ⟨_, (report_eq_ok).mpr (decodeUint16_encode h0), (bind_eq_ok).mpr
    ⟨_, hp, (bind_eq_ok).mpr ⟨_, hloop, rfl⟩⟩⟩

private theorem uint8_le_three {v : UInt8} (h : v ≤ 3) : v ∈ [(0 : UInt8), 1, 2, 3] := by
  have hall : ∀ n : Fin 256, UInt8.ofNat n.val ≤ 3 →
      UInt8.ofNat n.val ∈ [(0 : UInt8), 1, 2, 3] := by
    decide +kernel
  have := hall ⟨v.toNat, v.toNat_lt⟩
  rw [UInt8.ofNat_toNat] at this
  exact this h

theorem ConnectParams.decodeFlags_flagByte {c : ConnectParams} (h : c.willQos ≤ 3) :
    bit c.flagByte 1 = c.clean ∧ bit c.flagByte 2 = c.willFlag ∧
      (3 : UInt8) &&& (c.flagByte >>> 3) = c.willQos ∧ bit c.flagByte 5 = c.willRetain ∧
      bit c.flagByte 6 = c.passwordFlag ∧ bit c.flagByte 7 = c.usernameFlag ∧
      (1 : UInt8) &&& c.flagByte = 0 := by
  have hall : ∀ clean will retain password username : Bool, ∀ q ∈ [(0 : UInt8), 1, 2, 3], ∀ b,
      b = encodeBool clean <<< 1 ||| encodeBool will <<< 2 ||| q <<< 3 |||
        encodeBool retain <<< 5 ||| encodeBool password <<< 6 ||| encodeBool username <<< 7 →
      bit b 1 = clean ∧ bit b 2 = will ∧ (3 : UInt8) &&& (b >>> 3) = q ∧ bit b 5 = retain ∧
        bit b 6 = password ∧ bit b 7 = username ∧ (1 : UInt8) &&& b = 0 := by
    intro clean will retain password username q hq b hb
    subst hb
    revert clean will retain password username q
    decide +kernel
  exact hall c.clean c.willFlag c.willRetain c.passwordFlag c.usernameFlag c.willQos
    (uint8_le_three h) _ rfl

/-- The parameters of a CONNECT as the decoder gets them: the will only with its flag. -/
@[grind =] def Packet.sentConnect (pk : Packet) : ConnectParams :=
  if pk.connect.willFlag then
    { pk.connect with
      willProperties := if pk.protocolVersion = 5 then
        pk.connect.willProperties.sent .willProperties pk.mods 0 else {} }
  else { pk.connect with willProperties := {}, willTopic := [], willPayload := [] }

/-- The parameters after the variable header and the client identifier. -/
def ConnectParams.started (c : ConnectParams) : ConnectParams :=
  ConnectParams.decodeFlags
    { protocolName := c.protocolName, keepalive := c.keepalive
      clientIdentifier := c.clientIdentifier } c.flagByte

theorem ConnectParams.started_eq {c : ConnectParams} (h : c.willQos ≤ 3) : c.started = { c with
      willProperties := {}, willTopic := [], willPayload := [], username := []
      password := [] } := by
  obtain ⟨h1, h2, h3, h4, h5, h6, -⟩ := ConnectParams.decodeFlags_flagByte h
  rw [ConnectParams.started, ConnectParams.decodeFlags, h1, h2, h3, h4, h5, h6]

theorem decodeWill_encode {offset : ℕ} {rest : Bytes} (hc : pk.connect.Valid pk.protocolVersion)
    (hsize : body.length ≤ 268435455) (h : At body offset (pk.encodeWill ++ rest)) :
    pk.connect.started.decodeWill pk.protocolVersion body offset =
      .ok ({ pk.sentConnect with username := [], password := [] },
        offset + pk.encodeWill.length) := by
  obtain ⟨-, -, hqos, -, -, -, -, hwill⟩ := hc
  rw [ConnectParams.started_eq hqos, ConnectParams.decodeWill, Packet.sentConnect]
  rw [Packet.encodeWill] at h ⊢
  by_cases hflag : pk.connect.willFlag
  · obtain ⟨htopic, hpayload, hvalid⟩ := hwill hflag
    rw [if_pos hflag] at h
    rw [if_pos hflag, if_pos hflag, if_pos hflag]
    rw [append_assoc, append_assoc] at h
    have h1 := h.next
    have h2 := h1.next
    rw [encodeString_length] at h2
    have hp : (if pk.protocolVersion = 5 then
          decodePropertiesAt {} .willProperties (fun _ => .malformedWillProperties) body offset
        else pure ({}, offset)) =
        .ok (if pk.protocolVersion = 5 then
            pk.connect.willProperties.sent .willProperties pk.mods 0 else {},
          offset + (if pk.protocolVersion = 5 then
            pk.connect.willProperties.encode .willProperties pk.mods 0 else []).length) := by
      by_cases hv : pk.protocolVersion = 5
      · rw [if_pos hv] at h
        rw [if_pos hv, if_pos hv, if_pos hv]
        exact decodePropertiesAt_encode (hvalid hv) hsize h
      · rw [if_neg hv, if_neg hv, if_neg hv]
        rfl
    apply (bind_eq_ok).mpr
    refine ⟨_, hp, (bind_eq_ok).mpr ⟨_, (report_eq_ok).mpr
      (decodeString_encode htopic.1 htopic.2 h1), (bind_eq_ok).mpr ⟨_, (report_eq_ok).mpr
        (decodeBytes_encode hpayload h2), ?_⟩⟩⟩
    rw [length_append, length_append, encodeString_length, encodeBytes_length]
    show Except.ok (_, _) = Except.ok (_, _)
    congr 2
    omega
  · rw [if_neg hflag, if_neg hflag, if_neg hflag]
    rfl

theorem decodeUsername_encode {c : ConnectParams} {offset : ℕ} {rest : Bytes}
    (hlen : c.username.length ≤ 65535) (hnone : c.usernameFlag = false → c.username = [])
    (h : At body offset ((if c.usernameFlag then encodeBytes c.username else []) ++ rest)) :
    ({ c with username := [], password := [] } : ConnectParams).decodeUsername body offset =
      .ok ({ c with password := [] },
        offset + (if c.usernameFlag then encodeBytes c.username else []).length) := by
  rw [ConnectParams.decodeUsername]
  cases hflag : c.usernameFlag with
  | true =>
    rw [hflag, if_pos rfl] at h
    have hle := h.length_le
    rw [length_append, encodeBytes_length] at hle
    rw [if_pos rfl, if_neg (by omega), decodeBytes_encode hlen h, if_pos rfl, encodeBytes_length]
    show Except.ok _ = _
    rw [← hflag]
  | false =>
    rw [if_neg (by decide), if_neg (by decide), hnone hflag]
    show Except.ok _ = _
    rw [← hflag]
    rfl

theorem decodePassword_encode {c : ConnectParams} {offset : ℕ} {rest : Bytes}
    (hlen : c.password.length ≤ 65535) (hnone : c.passwordFlag = false → c.password = [])
    (h : At body offset ((if c.passwordFlag then encodeBytes c.password else []) ++ rest)) :
    ({ c with password := [] } : ConnectParams).decodePassword body offset =
      .ok (c, offset + (if c.passwordFlag then encodeBytes c.password else []).length) := by
  rw [ConnectParams.decodePassword]
  cases hflag : c.passwordFlag with
  | true =>
    rw [hflag, if_pos rfl] at h
    have hle := h.length_le
    rw [length_append, encodeBytes_length] at hle
    rw [if_pos rfl, if_neg (by omega), decodeBytes_encode hlen h, if_pos rfl, encodeBytes_length]
    show Except.ok _ = _
    rw [← hflag]
  | false =>
    have hc : ({ c with password := [] } : ConnectParams) = c := by
      rw [← hnone hflag]
    rw [← hflag, hc, if_neg (by rw [hflag]; decide), if_neg (by rw [hflag]; decide)]
    rfl

theorem sentConnect_credentials (pk : Packet) : pk.sentConnect.usernameFlag = pk.connect.usernameFlag ∧
      pk.sentConnect.username = pk.connect.username ∧
      pk.sentConnect.passwordFlag = pk.connect.passwordFlag ∧
      pk.sentConnect.password = pk.connect.password := by
  rw [Packet.sentConnect]
  split <;> exact ⟨rfl, rfl, rfl, rfl⟩

theorem connectDecode_encode (hvalid : pk.protocolVersion = 5 → pk.properties.Valid pk.fixedHeader.type)
    (hc : pk.connect.Valid pk.protocolVersion) (hsize : body.length ≤ 268435455)
    (hbody : body = pk.connectBody) : (pk.blank body).connectDecode body = .ok { pk.blank body with
      connect := pk.sentConnect, properties := pk.sentProperties 0 } := by
  obtain ⟨hname, hid, hqos, husername, hpassword, hnouser, hnopassword, -⟩ := id hc
  obtain ⟨huflag, huname, hpflag, hpword⟩ := sentConnect_credentials pk
  obtain ⟨-, -, -, -, -, -, hreserved⟩ := ConnectParams.decodeFlags_flagByte hqos
  have h0 : At body 0 (encodeBytes pk.connect.protocolName ++ (pk.protocolVersion ::
      (pk.connect.flagByte :: (encodeUint16 pk.connect.keepalive ++ (pk.encodeProperties 0 ++
        (encodeString pk.connect.clientIdentifier ++ (pk.encodeWill ++
          ((if pk.sentConnect.usernameFlag then encodeBytes pk.sentConnect.username else []) ++
            ((if pk.sentConnect.passwordFlag then encodeBytes pk.sentConnect.password else []) ++
              []))))))))) := by
    rw [huflag, huname, hpflag, hpword, hbody, Packet.connectBody, append_nil]
    simp only [append_assoc, cons_append, nil_append]
    exact at_zero _
  have h1 := h0.next
  rw [encodeBytes_length] at h1
  have h2 := h1.tail
  have h3 := h2.tail
  have h4 := h3.next
  have hp := optionalProperties_encode (f := inProperties) hvalid hsize h4
  have h5 := h4.next
  have h6 := h5.next
  rw [encodeString_length] at h6
  have h7 := h6.next
  have h8 := h7.next
  have hwill := decodeWill_encode hc hsize h6
  have huser := decodeUsername_encode (c := pk.sentConnect) (by rw [huname]; exact husername)
    (by rw [huflag, huname]; exact hnouser) h7
  have hpass := decodePassword_encode (c := pk.sentConnect) (by rw [hpword]; exact hpassword)
    (by rw [hpflag, hpword]; exact hnopassword) h8
  apply (bind_eq_ok).mpr
  refine ⟨_, (report_eq_ok).mpr (decodeBytes_encode hname h0), ?_⟩
  apply (bind_eq_ok).mpr
  refine ⟨_, (report_eq_ok).mpr (decodeByte_cons h1), ?_⟩
  apply (bind_eq_ok).mpr
  refine ⟨_, (report_eq_ok).mpr (decodeByte_cons h2), ?_⟩
  apply (bind_eq_ok).mpr
  refine ⟨_, (report_eq_ok).mpr (decodeUint16_encode h3), ?_⟩
  apply (bind_eq_ok).mpr
  refine ⟨_, hp, ?_⟩
  apply (bind_eq_ok).mpr
  refine ⟨_, (report_eq_ok).mpr (decodeString_encode hid.1 hid.2 h5), ?_⟩
  apply (bind_eq_ok).mpr
  refine ⟨_, hwill, ?_⟩
  apply (bind_eq_ok).mpr
  refine ⟨_, huser, ?_⟩
  apply (bind_eq_ok).mpr
  refine ⟨_, hpass, ?_⟩
  dsimp only
  rw [hreserved]
  rfl

end Packets

end MonsterMQ.Packets
