import MonsterMQ.PacketCodecCorrect

/-!
# PUBLISH packets and the maximum packet size

What the writer does with a PUBLISH for a client that announced a maximum packet size,
and when that is what the client may expect: the message with all its user properties, or
no message because it is too large.
-/

namespace MonsterMQ.Packets

open LittleEndian CheckedReads List

inductive WriteResult
  | failed
  | tooLarge
  | frame (bytes : Bytes)
  deriving DecidableEq, Repr

/-- `encodeOne`: a PUBLISH that is larger than the client takes is dropped. -/
def Packet.encodeOne (pk : Packet) : WriteResult :=
  match pk.publishEncode with
  | .error _ => .failed
  | .ok bytes =>
    if pk.mods.maxSize > 0 ∧ UInt32.ofNat bytes.length > pk.mods.maxSize then .tooLarge
    else .frame bytes

def Packet.limited (pk : Packet) (maxSize : UInt32) : Packet :=
  { pk with mods := { unrestricted with maxSize } }

/-- The client gets the PUBLISH with all its user properties, or it is reported too large. -/
def KeepsUserProperties (pk : Packet) (maxSize : UInt32) : Prop :=
  (pk.limited maxSize).encodeOne = .tooLarge ∨
    ∃ bytes pk', (pk.limited maxSize).encodeOne = .frame bytes ∧
      readFrame pk.protocolVersion bytes = .ok (pk', []) ∧
      pk'.properties.user = pk.properties.user

/-- The bytes of the properties of a PUBLISH other than its user properties. -/
def Properties.plainSize (p : Properties) : ℕ :=
  (if p.payloadFormatFlag then 2 else 0) + (if p.messageExpiryInterval > 0 then 5 else 0) +
    (if p.contentType ≠ [] then 3 + p.contentType.length else 0) +
    (if p.responseTopic ≠ [] then 3 + p.responseTopic.length else 0) +
    (if p.correlationData ≠ [] then 3 + p.correlationData.length else 0) +
    (p.subscriptionIdentifier.map fun v => 1 + lengthSize v).sum +
    (if p.topicAliasFlag then 3 else 0)

/-- The bytes of a PUBLISH apart from its properties and the fixed header. -/
def Packet.plainSize (pk : Packet) : ℕ :=
  2 + pk.topicName.length + (if pk.fixedHeader.qos > 0 then 2 else 0) + pk.payload.length

def Packet.strippedSize (pk : Packet) : ℕ :=
  let body := pk.plainSize + (lengthSize pk.properties.plainSize + pk.properties.plainSize)
  1 + lengthSize body + body

private theorem lengthSize_div {n : ℕ} (h : 128 ≤ n) (hle : n ≤ 268435455) :
    lengthSize n = lengthSize (n / 128) + 1 := by
  unfold lengthSize
  split_ifs <;> omega

private theorem encodeLengthLoop_length (fuel : ℕ) : ∀ n, n < fuel → n ≤ 268435455 →
    (encodeLengthLoop fuel n).length = lengthSize n := by
  induction fuel with
  | zero =>
    intro n hn
    exact absurd hn (Nat.not_lt_zero n)
  | succ fuel ih =>
    intro n hn hle
    rw [encodeLengthLoop]
    by_cases hmore : n / 128 > 0
    · rw [if_pos hmore, length_cons, ih (n / 128) (by omega) (by omega),
        lengthSize_div (by omega) hle]
    · rw [if_neg hmore, lengthSize, if_pos (by omega)]
      rfl

theorem encodeLength_length {n : ℕ} (h : n ≤ 268435455) : (encodeLength n).length = lengthSize n :=
  encodeLengthLoop_length (n + 1) n (by omega) h

theorem Packet.plainSize_eq (pk : Packet) : pk.publishStart.length + pk.payload.length = pk.plainSize := by
  rw [Packet.publishStart, Packet.plainSize, length_append, encodeString_length]
  split <;> rfl

theorem identifierBytes_length {p : Properties} (h : ∀ v ∈ p.subscriptionIdentifier, 1 ≤ v ∧ v ≤ 268435455) :
    p.identifierBytes.length = (p.subscriptionIdentifier.map fun v => 1 + lengthSize v).sum := by
  rw [Properties.identifierBytes]
  generalize p.subscriptionIdentifier = ids at h
  induction ids with
  | nil => rfl
  | cons v ids ih =>
    obtain ⟨hv, h⟩ := forall_mem_cons.mp h
    rw [flatMap_cons, length_append, ih h, if_pos (by omega), length_cons,
      encodeLength_length hv.2, map_cons, sum_cons, Nat.add_comm 1]

private theorem written_user {p : Properties} {maxSize : UInt32} {n : ℕ} :
    p.written { unrestricted with maxSize } n .user =
      ({ unrestricted with maxSize } : Mods).fits n p.userBytes.length := rfl

theorem encodeProperty_length {p : Properties} {pkt : PacketType} {mods : Mods} {n : ℕ}
    {k : PropertyKey} (hk : k.single) (hcan : canEncode pkt k) : (p.encodeProperty pkt mods n k).length =
      if p.written mods n k then (p.valueBytes k).length + 1 else 0 := by
  rw [encodeProperty_single hk, Properties.sends, hcan, Bool.true_and]
  split
  · exact length_cons
  · rfl

private theorem encodeProperty_other {p : Properties} {pkt : PacketType} {mods : Mods} {n : ℕ}
    {k : PropertyKey} (hcan : canEncode pkt k = false) : (p.encodeProperty pkt mods n k).length = 0 := by
  have hsends : ¬ (canEncode pkt k && p.written mods n k) = true := by
    rw [hcan, Bool.false_and]
    decide
  have hnil : p.encodeProperty pkt mods n k = [] := if_neg hsends
  rw [hnil]
  rfl

theorem sum_publish_properties (f : PropertyKey → ℕ) (hf : ∀ k, canEncode .publish k = false → f k = 0) :
    (propertyOrder.map f).sum = f .payloadFormat + f .messageExpiryInterval + f .contentType +
      f .responseTopic + f .correlationData + f .subscriptionIdentifier + f .topicAlias +
      f .user := by
  have hrest : ∀ k ∈ propertyOrder, k ∉ [PropertyKey.payloadFormat, .messageExpiryInterval,
      .contentType, .responseTopic, .correlationData, .subscriptionIdentifier, .topicAlias,
      .user] → f k = 0 := by
    intro k _ hk
    apply hf
    revert hk
    cases k <;> decide
  simp only [propertyOrder, forall_mem_cons] at hrest
  simp only [propertyOrder, map_cons, map_nil, sum_cons, sum_nil]
  grind

theorem encodeAll_publish_length {p : Properties} {maxSize : UInt32} {n : ℕ} (h : p.Valid .publish) :
    (p.encodeAll .publish { unrestricted with maxSize } n).length = p.plainSize +
      if ({ unrestricted with maxSize } : Mods).fits n p.userBytes.length then p.userBytes.length
      else 0 := by
  have hids : (p.encodeProperty .publish { unrestricted with maxSize } n
      .subscriptionIdentifier).length =
      (p.subscriptionIdentifier.map fun v => 1 + lengthSize v).sum := by
    rw [← identifierBytes_length (h .subscriptionIdentifier (by decide)).1,
      Properties.encodeProperty]
    split
    · rfl
    · rename_i hnone
      have hcan : canEncode .publish .subscriptionIdentifier = true := by decide
      have hnil : p.subscriptionIdentifier = [] := by
        simpa [Properties.written, hcan] using hnone
      rw [Properties.identifierBytes, hnil]
      rfl
  have huser : (p.encodeProperty .publish { unrestricted with maxSize } n .user).length =
      if ({ unrestricted with maxSize } : Mods).fits n p.userBytes.length then p.userBytes.length
      else 0 := by
    rw [Properties.encodeProperty, written_user]
    show (if ({ unrestricted with maxSize } : Mods).fits n p.userBytes.length = true then _
      else []).length = _
    split <;> rfl
  have halias : (p.encodeProperty .publish { unrestricted with maxSize } n .topicAlias).length =
      if p.topicAliasFlag then 3 else 0 := by
    rw [encodeProperty_length (by constructor <;> decide) (by decide), Properties.written]
    cases hflag : p.topicAliasFlag with
    | true =>
      rw [decide_eq_true (h .topicAlias (by decide) hflag)]
      rfl
    | false => rfl
  have htopic : (p.encodeProperty .publish { unrestricted with maxSize } n .responseTopic).length =
      if p.responseTopic ≠ [] then 3 + p.responseTopic.length else 0 := by
    have hno : containsWildcard p.responseTopic = false :=
      Bool.eq_false_iff.mpr (h .responseTopic (by decide)).2
    rw [encodeProperty_length (by constructor <;> decide) (by decide), Properties.written,
      Properties.valueBytes, encodeString_length, hno]
    by_cases hnil : p.responseTopic = []
    · simp [hnil]
    · simp [hnil, unrestricted]
      omega
  have hcontent : (p.encodeProperty .publish { unrestricted with maxSize } n .contentType).length =
      if p.contentType ≠ [] then 3 + p.contentType.length else 0 := by
    rw [encodeProperty_length (by constructor <;> decide) (by decide), Properties.written,
      Properties.valueBytes, encodeString_length]
    by_cases hnil : p.contentType = []
    · simp [hnil]
    · simp [hnil]
      omega
  have hcorrelation : (p.encodeProperty .publish { unrestricted with maxSize } n
      .correlationData).length =
      if p.correlationData ≠ [] then 3 + p.correlationData.length else 0 := by
    rw [encodeProperty_length (by constructor <;> decide) (by decide), Properties.written,
      Properties.valueBytes, encodeBytes_length]
    by_cases hnil : p.correlationData = []
    · simp [hnil]
    · simp [hnil, unrestricted]
      omega
  have hformat : (p.encodeProperty .publish { unrestricted with maxSize } n
      .payloadFormat).length = if p.payloadFormatFlag then 2 else 0 := by
    rw [encodeProperty_length (by constructor <;> decide) (by decide)]
    rfl
  have hexpiry : (p.encodeProperty .publish { unrestricted with maxSize } n
      .messageExpiryInterval).length = if p.messageExpiryInterval > 0 then 5 else 0 := by
    rw [encodeProperty_length (by constructor <;> decide) (by decide), Properties.written]
    simp [Properties.valueBytes, encodeUint32_length]
  rw [Properties.encodeAll, length_flatMap,
    sum_publish_properties _ fun k hk => encodeProperty_other hk, hids, huser, halias, htopic,
    hcontent, hcorrelation, hformat, hexpiry, Properties.plainSize]

/-- The user properties survive: there are none, they pass the encoder's test, or the packet
is too large even without them. -/
def Packet.UserPropertiesFit (pk : Packet) (maxSize : UInt32) : Prop :=
  pk.properties.user = [] ∨
    pk.plainSize + pk.properties.userBytes.length + 1 < maxSize.toNat ∨
    maxSize.toNat < pk.strippedSize

section Limit

variable {pk : Packet} {maxSize : UInt32}

def Packet.limitedSize (pk : Packet) (maxSize : UInt32) : ℕ :=
  pk.properties.plainSize +
    if ({ unrestricted with maxSize } : Mods).fits pk.plainSize pk.properties.userBytes.length then
      pk.properties.userBytes.length
    else 0

theorem frame_length_eq {pk : Packet} {body : Bytes} (h : body.length ≤ 268435455) :
    (pk.frame body).length = 1 + lengthSize body.length + body.length := by
  rw [Packet.frame, FixedHeader.encode, length_append, length_cons,
    encodeLength_length h]
  omega

theorem length_le_frame (pk : Packet) (body : Bytes) : body.length ≤ (pk.frame body).length := by
  rw [Packet.frame, length_append]
  exact Nat.le_add_left _ _

theorem limited_body_length (hvalid : pk.Valid .publish) (hv : pk.protocolVersion = 5)
    (hp : pk.properties.hasPublishProperties = true) (hsize : pk.limitedSize maxSize ≤ 268435455) :
    ((pk.limited maxSize).publishStart ++ ((pk.limited maxSize).publishTail ++
      (pk.limited maxSize).payload)).length =
      pk.plainSize + (lengthSize (pk.limitedSize maxSize) + pk.limitedSize maxSize) := by
  obtain ⟨hv', -⟩ | ⟨-, hp', -⟩ | ⟨-, -, htail, -⟩ := publishTail_cases (pk.limited maxSize)
  · exact absurd hv hv'
  · exact absurd (hp.symm.trans hp') (by decide)
  have htype : (pk.limited maxSize).fixedHeader.type = .publish := hvalid.header.type_eq
  have hall : ((pk.limited maxSize).properties.encodeAll (pk.limited maxSize).fixedHeader.type
      (pk.limited maxSize).mods ((pk.limited maxSize).publishStart.length +
        (pk.limited maxSize).payload.length)).length = pk.limitedSize maxSize := by
    rw [Packet.plainSize_eq, htype]
    exact encodeAll_publish_length (hvalid.properties hv)
  have hsum := (pk.limited maxSize).plainSize_eq
  have hplain : (pk.limited maxSize).plainSize = pk.plainSize := rfl
  rw [htail, length_append, length_append, Properties.encode, length_append, hall,
    encodeLength_length hsize]
  omega

theorem lengthSize_mono {m n : ℕ} (h : m ≤ n) : lengthSize m ≤ lengthSize n := by
  unfold lengthSize
  split_ifs <;> omega

theorem limited_tail_le (hvalid : pk.Valid .publish) (hmods : pk.mods = unrestricted)
    (hsize : pk.publishTail.length ≤ 268435455) :
    (pk.limited maxSize).publishTail.length ≤ pk.publishTail.length := by
  obtain ⟨hv, htail, -⟩ | ⟨hv, hp, htail, -⟩ | ⟨hv, hp, htail, -⟩ := publishTail_cases pk
  · have htail' : (pk.limited maxSize).publishTail = [] := if_pos hv
    rw [htail, htail']
  · have hp' : (!pk.properties.hasPublishProperties) = true := by rw [hp]; rfl
    have htail' : (pk.limited maxSize).publishTail = [0] :=
      (if_neg (fun h => h hv)).trans (if_pos hp')
    rw [htail, htail']
  · have hp' : ¬ (!pk.properties.hasPublishProperties) = true := by rw [hp]; decide
    have htail' : (pk.limited maxSize).publishTail =
        pk.properties.encode pk.fixedHeader.type { unrestricted with maxSize }
          (pk.publishStart.length + pk.payload.length) :=
      (if_neg (fun h => h hv)).trans (if_neg hp')
    have hlengths (limit : UInt32) := @encodeAll_publish_length pk.properties limit
      (pk.publishStart.length + pk.payload.length) (hvalid.properties hv)
    have hfull := hlengths 0
    have hlimited := hlengths maxSize
    have hle : (pk.properties.encodeAll .publish { unrestricted with maxSize }
          (pk.publishStart.length + pk.payload.length)).length ≤
        (pk.properties.encodeAll .publish unrestricted
          (pk.publishStart.length + pk.payload.length)).length := by
      have hfits : ({ unrestricted with maxSize := 0 } : Mods).fits
          (pk.publishStart.length + pk.payload.length) pk.properties.userBytes.length = true := rfl
      rw [hfits, if_pos rfl] at hfull
      rw [hlimited]
      refine le_trans ?_ hfull.ge
      split <;> omega
    have hall := pk.properties.encodeAll_length_le pk.fixedHeader.type pk.mods
      (pk.publishStart.length + pk.payload.length)
    have htype : pk.fixedHeader.type = .publish := hvalid.header.type_eq
    rw [htail] at hsize
    rw [htail, htail']
    rw [htype, hmods] at hall hsize ⊢
    rw [Properties.encode, length_append, Properties.encode, length_append,
      encodeLength_length (by omega), encodeLength_length (by omega)]
    have := lengthSize_mono hle
    omega

theorem limited_frame (hvalid : pk.Valid .publish) (hmods : pk.mods = unrestricted) :
    ∃ pk', (pk.limited maxSize).publishEncode = .ok ((pk.limited maxSize).frame
        ((pk.limited maxSize).publishStart ++ ((pk.limited maxSize).publishTail ++
          (pk.limited maxSize).payload))) ∧
      ((pk.limited maxSize).publishStart ++
        ((pk.limited maxSize).publishTail ++ (pk.limited maxSize).payload)).length ≤ 268435455 ∧
      readFrame pk.protocolVersion ((pk.limited maxSize).frame
        ((pk.limited maxSize).publishStart ++ ((pk.limited maxSize).publishTail ++
          (pk.limited maxSize).payload))) = .ok (pk', []) ∧
      pk'.properties = (pk.limited maxSize).publishSent := by
  obtain ⟨htopic, hid⟩ := hvalid.body
  have hid' : ¬ (pk.fixedHeader.qos > 0 ∧ pk.packetID = 0) := fun h => hid.mp h.1 h.2
  have hfull := hvalid.size _ (publishEncode_eq hid')
  have hle : (pk.limited maxSize).publishTail.length ≤ pk.publishTail.length := by
    apply limited_tail_le hvalid hmods
    rw [length_append, length_append] at hfull
    omega
  have hbody : ((pk.limited maxSize).publishStart ++ ((pk.limited maxSize).publishTail ++
      (pk.limited maxSize).payload)).length ≤
      (pk.publishStart ++ (pk.publishTail ++ pk.payload)).length := by
    have hstart : (pk.limited maxSize).publishStart = pk.publishStart := rfl
    have hpayload : (pk.limited maxSize).payload = pk.payload := rfl
    rw [hstart, hpayload]
    simp only [length_append]
    omega
  have hsize := hbody.trans hfull
  have hdecode := @publishDecode_encode (pk.limited maxSize) _ hvalid.sectionValid htopic
    (fun h => of_not_not fun hne => h (hid.mpr hne)) hsize rfl
  have hread := @readFrame_frame (pk.limited maxSize) _ _ _ _ hvalid.header hsize hdecode []
  rw [append_nil] at hread
  exact ⟨_, publishEncode_eq hid', hsize, hread, rfl⟩

private theorem limited_sent_user_nil (hnil : pk.properties.user = []) :
    (pk.limited maxSize).publishSent.user = [] := by
  have hvalue : ∀ mods n, (pk.properties.sent pk.fixedHeader.type mods n).user = [] := by
    intro mods n
    apply PropertyValue.pairs.inj
    refine (pk.properties.sent_value pk.fixedHeader.type mods n .user).trans ?_
    split
    · rw [Properties.value, hnil]
    · rfl
  obtain ⟨-, -, hsent⟩ | ⟨-, -, -, hsent⟩ | ⟨-, -, -, hsent⟩ :=
    publishTail_cases (pk.limited maxSize)
  · rw [hsent]
  · rw [hsent]
  · rw [hsent]
    exact hvalue _ _

def Packet.limitedFrame (pk : Packet) (maxSize : UInt32) : Bytes :=
  (pk.limited maxSize).frame ((pk.limited maxSize).publishStart ++
    ((pk.limited maxSize).publishTail ++ (pk.limited maxSize).payload))

private theorem ofNat_lt_iff {n : ℕ} (h : n < 4294967296) : UInt32.ofNat n < maxSize ↔ n < maxSize.toNat := by
  rw [UInt32.lt_iff_toNat_lt, UInt32.toNat_ofNat_of_lt' h]

private theorem lt_ofNat_iff {n : ℕ} (h : n < 4294967296) : maxSize < UInt32.ofNat n ↔ maxSize.toNat < n := by
  rw [UInt32.lt_iff_toNat_lt, UInt32.toNat_ofNat_of_lt' h]

section

variable (hvalid : pk.Valid .publish)
include hvalid

/-- The client gets the user properties or a size report, by the frame and what is in it. -/
theorem keepsUserProperties_iff_sent (hmods : pk.mods = unrestricted) (hmax : 0 < maxSize) :
    KeepsUserProperties pk maxSize ↔ maxSize.toNat < (pk.limitedFrame maxSize).length ∨
      (pk.limited maxSize).publishSent.user = pk.properties.user := by
  obtain ⟨pk', hencode, hsize, hread, hsent⟩ := @limited_frame pk maxSize hvalid hmods
  have hlarge : maxSize < UInt32.ofNat (pk.limitedFrame maxSize).length ↔
      maxSize.toNat < (pk.limitedFrame maxSize).length := by
    apply lt_ofNat_iff
    have hfour : lengthSize _ ≤ 4 := lengthSize_mono hsize
    rw [Packet.limitedFrame, frame_length_eq hsize]
    omega
  by_cases hbig : maxSize.toNat < (pk.limitedFrame maxSize).length
  · refine iff_of_true (Or.inl ?_) (Or.inl hbig)
    rw [Packet.encodeOne, hencode]
    exact if_pos ⟨hmax, hlarge.mpr hbig⟩
  · have hone : (pk.limited maxSize).encodeOne = .frame (pk.limitedFrame maxSize) := by
      rw [Packet.encodeOne, hencode]
      exact if_neg (fun h => hbig (hlarge.mp h.2))
    rw [KeepsUserProperties, hone, ← hsent]
    constructor
    · rintro (h | ⟨bytes, pk₁, hbytes, hread', huser⟩)
      · cases h
      · rw [← WriteResult.frame.inj hbytes] at hread'
        have heq := hread'.symm.trans hread
        rw [Except.ok.injEq, Prod.mk.injEq] at heq
        rw [← heq.1]
        exact Or.inr huser
    · rintro (h | huser)
      · exact absurd h hbig
      · exact Or.inr ⟨_, pk', rfl, hread, huser⟩

/-- With user properties the properties are written, and these are among them when they
pass the test of the encoder. -/
theorem limited_sent_user (hv : pk.protocolVersion = 5) (hp : pk.properties.hasPublishProperties = true) :
    (pk.limited maxSize).publishSent.user =
      if ({ unrestricted with maxSize } : Mods).fits pk.plainSize
        pk.properties.userBytes.length then pk.properties.user else [] := by
  obtain ⟨hv', -⟩ | ⟨-, hp', -⟩ | ⟨-, -, -, hsent⟩ := publishTail_cases (pk.limited maxSize)
  · exact absurd hv hv'
  · exact absurd (hp.symm.trans hp') (by decide)
  have htype : (pk.limited maxSize).fixedHeader.type = .publish := hvalid.header.type_eq
  rw [hsent, htype, (pk.limited maxSize).plainSize_eq]
  apply PropertyValue.pairs.inj
  refine (pk.properties.sent_value .publish { unrestricted with maxSize } pk.plainSize .user).trans ?_
  have hsends : pk.properties.sends .publish { unrestricted with maxSize } pk.plainSize .user =
      ({ unrestricted with maxSize } : Mods).fits pk.plainSize pk.properties.userBytes.length := rfl
  rw [hsends]
  split <;> rfl

theorem userBytes_le_frame (hmods : pk.mods = unrestricted)
    (hv : pk.protocolVersion = 5) (hp : pk.properties.hasPublishProperties = true) :
    pk.plainSize + (pk.properties.plainSize + pk.properties.userBytes.length) ≤ 268435455 := by
  obtain ⟨-, hid⟩ := hvalid.body
  have hid' : ¬ (pk.fixedHeader.qos > 0 ∧ pk.packetID = 0) := fun h => hid.mp h.1 h.2
  have hfull := hvalid.size _ (publishEncode_eq hid')
  obtain ⟨hv', -⟩ | ⟨-, hp', -⟩ | ⟨-, -, htail, -⟩ := publishTail_cases pk
  · exact absurd hv hv'
  · exact absurd (hp.symm.trans hp') (by decide)
  have htype : pk.fixedHeader.type = .publish := hvalid.header.type_eq
  have hall := pk.properties.encodeAll_length_le .publish unrestricted
    (pk.publishStart.length + pk.payload.length)
  have hsum := @encodeAll_publish_length pk.properties 0
    (pk.publishStart.length + pk.payload.length) (hvalid.properties hv)
  have hfits : ({ unrestricted with maxSize := 0 } : Mods).fits
      (pk.publishStart.length + pk.payload.length) pk.properties.userBytes.length = true := rfl
  rw [hfits, if_pos rfl] at hsum
  have hsum' : (pk.properties.encodeAll .publish unrestricted
      (pk.publishStart.length + pk.payload.length)).length =
      pk.properties.plainSize + pk.properties.userBytes.length := hsum
  rw [htail, htype, hmods, length_append, length_append] at hfull
  have hplain := pk.plainSize_eq
  omega

/-- The user properties reach the client, or it is told that the packet is too large,
exactly when they fit. -/
theorem keepsUserProperties_iff (hmods : pk.mods = unrestricted)
    (hv : pk.protocolVersion = 5) (hmax : 0 < maxSize) :
    KeepsUserProperties pk maxSize ↔ pk.UserPropertiesFit maxSize := by
  rw [keepsUserProperties_iff_sent hvalid hmods hmax, Packet.UserPropertiesFit]
  by_cases hnil : pk.properties.user = []
  · rw [hnil]
    exact iff_of_true (Or.inr (limited_sent_user_nil hnil)) (Or.inl rfl)
  have hp : pk.properties.hasPublishProperties = true := by
    have hlen : 0 < pk.properties.user.length := length_pos_iff.mpr hnil
    simp [Properties.hasPublishProperties, hnil]
  have hsmall := userBytes_le_frame hvalid hmods hv hp
  have hfits : ({ unrestricted with maxSize } : Mods).fits pk.plainSize
      pk.properties.userBytes.length = true ↔
      pk.plainSize + pk.properties.userBytes.length + 1 < maxSize.toNat := by
    have hne : (maxSize == 0) = false := beq_eq_false_iff_ne.mpr (UInt32.pos_iff_ne_zero.mp hmax)
    rw [Mods.fits]
    dsimp only
    rw [hne, Bool.false_or, decide_eq_true_iff]
    exact ofNat_lt_iff (by omega)
  rw [limited_sent_user hvalid hv hp]
  by_cases hfit : pk.plainSize + pk.properties.userBytes.length + 1 < maxSize.toNat
  · rw [if_pos (hfits.mpr hfit)]
    exact iff_of_true (Or.inr rfl) (Or.inr (Or.inl hfit))
  · have hno : ¬ ({ unrestricted with maxSize } : Mods).fits pk.plainSize
        pk.properties.userBytes.length = true := fun h => hfit (hfits.mp h)
    have hlimited : pk.limitedSize maxSize = pk.properties.plainSize := by
      rw [Packet.limitedSize, if_neg hno, Nat.add_zero]
    have hbody := @limited_body_length pk maxSize hvalid hv hp (by rw [hlimited]; omega)
    have hlength : (pk.limitedFrame maxSize).length = pk.strippedSize := by
      obtain ⟨-, -, hsize, -, -⟩ := @limited_frame pk maxSize hvalid hmods
      rw [Packet.limitedFrame, frame_length_eq hsize, hbody, hlimited]
      rfl
    rw [if_neg hno, hlength]
    constructor
    · rintro (h | h)
      · exact Or.inr (Or.inr h)
      · exact absurd h.symm hnil
    · rintro (h | h | h)
      · exact absurd h hnil
      · exact absurd h hfit
      · exact Or.inl h

end

/-- What a receiver may expect of the codec: the packet makes the round trip, and a PUBLISH
for a client with a maximum packet size has all its user properties or is reported. -/
def CodecMeets (t : FrameType) (pk : Packet) (maxSize : UInt32) : Prop :=
  RoundTrips t pk ∧
    (t = .publish → pk.protocolVersion = 5 → 0 < maxSize → KeepsUserProperties pk maxSize)

theorem codecMeets_iff {t : FrameType} (hvalid : pk.Valid t) (hmods : pk.mods = unrestricted) :
    CodecMeets t pk maxSize ↔ ¬ pk.CutsReasonCode t ∧
      (t = .publish → pk.protocolVersion = 5 → 0 < maxSize → pk.UserPropertiesFit maxSize) := by
  rw [CodecMeets, roundTrips_iff hvalid hmods]
  apply and_congr_right
  intro _
  constructor
  · intro h ht hv hmax
    subst ht
    exact (keepsUserProperties_iff hvalid hmods hv hmax).mp (h rfl hv hmax)
  · intro h ht hv hmax
    subst ht
    exact (keepsUserProperties_iff hvalid hmods hv hmax).mpr (h rfl hv hmax)

end Limit

def noSubscribersPubrec : Packet where
  fixedHeader := { type := .pubrec }
  packetID := 1
  protocolVersion := 5
  reasonCode := 0x10
  mods := unrestricted

def userPropertyPublish : Packet where
  fixedHeader := { type := .publish }
  topicName := [0x74]
  payload := [0x31, 0x32]
  protocolVersion := 5
  properties := { user := [⟨[0x6b], [0x76]⟩] }
  mods := unrestricted

theorem noSubscribersPubrec_valid : noSubscribersPubrec.Valid .pubrec where
  version := Or.inr rfl
  header := ⟨rfl, rfl, rfl, rfl⟩
  properties := by
    intro _ k hk
    cases k with
    | reasonString => exact ⟨Nat.zero_le _, rfl⟩
    | user => exact fun u hu => absurd hu not_mem_nil
    | _ => exact absurd hk (by decide)
  body := fun h => absurd rfl h
  size := by
    intro body h
    have hbytes : noSubscribersPubrec.encodeAs .pubrec = .ok [0x50, 0x02, 0x00, 0x01] := by decide
    have hle := length_le_frame noSubscribersPubrec body
    rw [← Except.ok.inj (hbytes.symm.trans h)] at hle
    exact hle.trans (by decide)

theorem userPropertyPublish_valid : userPropertyPublish.Valid .publish where
  version := Or.inr rfl
  header := ⟨rfl, by decide, fun _ => rfl⟩
  properties := by
    intro _ k hk
    cases k with
    | payloadFormat | topicAlias => exact fun h => absurd h (by decide)
    | contentType => exact ⟨Nat.zero_le _, rfl⟩
    | responseTopic => exact ⟨⟨Nat.zero_le _, rfl⟩, by decide⟩
    | correlationData => exact Nat.zero_le _
    | subscriptionIdentifier =>
      exact ⟨fun v hv => absurd hv not_mem_nil, fun _ => Nat.zero_le _⟩
    | user =>
      intro u hu
      rw [mem_singleton.mp hu]
      exact ⟨⟨by decide, by decide⟩, by decide, by decide⟩
    | messageExpiryInterval => trivial
    | _ => exact absurd hk (by decide)
  body := ⟨⟨by decide, by decide⟩, by decide⟩
  size := by
    intro body h
    have hbytes : userPropertyPublish.encodeAs .publish = .ok [0x30, 0x0d, 0x00, 0x01, 0x74,
      0x07, 0x26, 0x00, 0x01, 0x6b, 0x00, 0x01, 0x76, 0x31, 0x32] := by decide
    have hle := length_le_frame userPropertyPublish body
    rw [← Except.ok.inj (hbytes.symm.trans h)] at hle
    exact hle.trans (by decide)

theorem userPropertyPublish_meets : CodecMeets .publish userPropertyPublish 100 :=
  (codecMeets_iff userPropertyPublish_valid rfl).mpr
    ⟨fun h => absurd h.1 (by decide), fun _ _ _ => Or.inr (Or.inl (by decide))⟩

/-- The PUBREC is read back as one that says success, and to a client that takes twelve bytes
the PUBLISH goes out without its user property. -/
theorem reason_code_and_user_property_lost :
    (noSubscribersPubrec.Valid .pubrec ∧ noSubscribersPubrec.mods = unrestricted ∧
      ¬ RoundTrips .pubrec noSubscribersPubrec) ∧
    userPropertyPublish.Valid .publish ∧ userPropertyPublish.mods = unrestricted ∧
      ¬ KeepsUserProperties userPropertyPublish 12 := by
  refine ⟨⟨noSubscribersPubrec_valid, rfl, ?_⟩, userPropertyPublish_valid, rfl, ?_⟩
  · rw [roundTrips_iff noSubscribersPubrec_valid rfl, not_not]
    exact ⟨by decide, rfl, by decide, by decide, rfl, rfl⟩
  · rw [keepsUserProperties_iff userPropertyPublish_valid rfl rfl (by decide)]
    rintro (h | h | h)
    · exact absurd h (by decide)
    · exact absurd h (by decide)
    · exact absurd h (by decide)

end MonsterMQ.Packets
