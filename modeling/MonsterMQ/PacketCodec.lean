import MonsterMQ.CheckedReads
import MonsterMQ.Utf8
import Mathlib.Tactic.SplitIfs
import Mathlib.Tactic.NormNum

/-!
# The field codec of MQTT packets

The helpers of the packet codec that read and write one field: two and four byte integers, length-prefixed
byte strings, UTF-8 strings and variable byte integers.
-/

namespace MonsterMQ.Packets

open LittleEndian CheckedReads List

/-- The errors of the decoders. `wrapped e code` is `fmt.Errorf("%s: %w", e, code)`. -/
inductive DecodeError
  | eof
  | malformedProtocolName
  | malformedProtocolVersion
  | malformedFlags
  | malformedKeepalive
  | malformedPacketID
  | malformedTopic
  | malformedWillTopic
  | malformedWillPayload
  | malformedUsername
  | malformedPassword
  | malformedQos
  | malformedOffsetUintOutOfRange
  | malformedOffsetBytesOutOfRange
  | malformedOffsetByteOutOfRange
  | malformedOffsetBoolOutOfRange
  | malformedInvalidUTF8
  | malformedVariableByteInteger
  | malformedProperties
  | malformedWillProperties
  | malformedSessionPresent
  | malformedReasonCode
  | malformedSubscriptionOptions
  | protocolViolationFlagNoUsername
  | protocolViolationFlagNoPassword
  | protocolViolationQosOutOfRange
  | protocolViolationDupNoQos
  | clientIdentifierNotValid
  | invalidPacketType
  | unsupportedProperty (k pkt : UInt8)
  | duplicateProperty (k : UInt8)
  | invalidPropertyValue (k : UInt8)
  | wrapped (e code : DecodeError)
  deriving DecidableEq, Repr

abbrev Decoded (α : Type) := Read DecodeError α

def bigEndianUint16 : Bytes → Decoded UInt16
  | b0 :: b1 :: _ => .ok (UInt16.ofNat (b0.toNat * 256 + b1.toNat))
  | _ => .error .panic

def bigEndianUint32 : Bytes → Decoded UInt32
  | b0 :: b1 :: b2 :: b3 :: _ =>
    .ok (UInt32.ofNat (((b0.toNat * 256 + b1.toNat) * 256 + b2.toNat) * 256 + b3.toNat))
  | _ => .error .panic

@[grind =] def decodeUint16 (buf : Bytes) (offset : ℕ) : Decoded (UInt16 × ℕ) :=
  if buf.length < offset + 2 then fail .malformedOffsetUintOutOfRange
  else do
    let b ← slice buf offset (offset + 2)
    let v ← bigEndianUint16 b
    return (v, offset + 2)

@[grind =] def decodeUint32 (buf : Bytes) (offset : ℕ) : Decoded (UInt32 × ℕ) :=
  if buf.length < offset + 4 then fail .malformedOffsetUintOutOfRange
  else do
    let b ← slice buf offset (offset + 4)
    let v ← bigEndianUint32 b
    return (v, offset + 4)

@[grind =] def decodeBytes (buf : Bytes) (offset : ℕ) : Decoded (Bytes × ℕ) := do
  let (length, next) ← decodeUint16 buf offset
  if next + length.toNat > buf.length then fail .malformedOffsetBytesOutOfRange
  else do
    let b ← slice buf next (next + length.toNat)
    return (b, next + length.toNat)

def validUTF8 : Bytes → Bool
  | [] => true
  | c :: rest =>
    if c = 0 then false
    else if c ≥ 0x80 then Utf8.valid (c :: rest) && !(c :: rest).contains 0
    else validUTF8 rest

@[grind =] def decodeString (buf : Bytes) (offset : ℕ) : Decoded (Bytes × ℕ) := do
  let (b, n) ← decodeBytes buf offset
  if validUTF8 b then return (b, n) else fail .malformedInvalidUTF8

@[grind =] def decodeByte (buf : Bytes) (offset : ℕ) : Decoded (UInt8 × ℕ) :=
  if buf.length ≤ offset then fail .malformedOffsetByteOutOfRange
  else do
    let b ← index buf offset
    return (b, offset + 1)

@[grind =] def decodeByteBool (buf : Bytes) (offset : ℕ) : Decoded (Bool × ℕ) :=
  if buf.length ≤ offset then fail .malformedOffsetBoolOutOfRange
  else do
    let b ← index buf offset
    return (1 &&& b > 0, offset + 1)

@[grind =] def decodeLengthLoop : ℕ → ℕ → ℕ → Bytes → Decoded (ℕ × ℕ)
  | _, _, _, [] => fail .eof
  | multiplier, value, bu, eb :: rest =>
    let value := value ||| (eb &&& 127).toNat <<< multiplier
    if value > 268435455 then fail .malformedVariableByteInteger
    else if eb &&& 128 = 0 then .ok (value, bu)
    else if bu = 4 then fail .malformedVariableByteInteger
    else decodeLengthLoop (multiplier + 7) value (bu + 1) rest

def decodeLength (b : Bytes) : Decoded (ℕ × ℕ) := decodeLengthLoop 0 0 1 b

def encodeBool (b : Bool) : UInt8 := if b then 1 else 0

def encodeUint16 (v : UInt16) : Bytes :=
  [UInt8.ofNat (v.toNat / 256), UInt8.ofNat v.toNat]

def encodeUint32 (v : UInt32) : Bytes :=
  [UInt8.ofNat (v.toNat / 256 / 256 / 256), UInt8.ofNat (v.toNat / 256 / 256),
    UInt8.ofNat (v.toNat / 256), UInt8.ofNat v.toNat]

@[grind =] def encodeBytes (val : Bytes) : Bytes := encodeUint16 (UInt16.ofNat val.length) ++ val

def encodeString (val : Bytes) : Bytes := encodeUint16 (UInt16.ofNat val.length) ++ val

@[grind =] def encodeLengthLoop : ℕ → ℕ → Bytes
  | 0, _ => []
  | fuel + 1, length =>
    let eb := UInt8.ofNat (length % 128)
    if length / 128 > 0 then (eb ||| 0x80) :: encodeLengthLoop fuel (length / 128) else [eb]

@[grind =] def encodeLength (length : ℕ) : Bytes := encodeLengthLoop (length + 1) length

def stringWidth : Bytes → Option ℕ
  | b0 :: b1 :: _ => some (2 + (b0.toNat * 256 + b1.toNat))
  | _ => none

@[grind =] def varIntWidth : Bytes → Option ℕ
  | [] => none
  | b :: bs => if b < 128 then some 1 else (varIntWidth bs).map (· + 1)

/-- The bytes of a variable byte integer in its shortest form. -/
@[grind =] def lengthSize (n : ℕ) : ℕ :=
  if n < 128 then 1 else if n < 16384 then 2 else if n < 2097152 then 3 else 4

theorem stringWidth_append {a : Bytes} {w : ℕ} (b : Bytes) (h : stringWidth a = some w) :
    stringWidth (a ++ b) = some w := by
  match a, h with
  | _ :: _ :: _, h => exact h

theorem varIntWidth_append {a : Bytes} {w : ℕ} (b : Bytes) (h : varIntWidth a = some w) :
    varIntWidth (a ++ b) = some w := by
  induction a generalizing w with
  | nil => cases h
  | cons c a ih =>
    rw [cons_append, varIntWidth]
    rw [varIntWidth] at h
    by_cases hc : c < 128
    · rw [if_pos hc] at h ⊢
      exact h
    · rw [if_neg hc] at h ⊢
      obtain ⟨w', hw', rfl⟩ := Option.map_eq_some_iff.mp h
      rw [ih hw']
      rfl

private theorem two_bytes_of_le {buf : Bytes} {offset : ℕ} (h : offset + 2 ≤ buf.length) :
    ∃ b0 b1, (buf.take (offset + 2)).drop offset = [b0, b1] ∧
      buf.drop offset = b0 :: b1 :: buf.drop (offset + 2) := by
  have h0 : offset < buf.length := by omega
  have h1 : offset + 1 < buf.length := by omega
  refine ⟨buf[offset], buf[offset + 1], ?_, ?_⟩
  · rw [← take_drop, drop_eq_getElem_cons h0, drop_eq_getElem_cons h1]
    rfl
  · rw [drop_eq_getElem_cons h0, drop_eq_getElem_cons h1]

theorem decodeUint16_safe (buf : Bytes) (offset : ℕ) :
    Safe (decodeUint16 buf offset) fun r => r.2 = offset + 2 ∧ r.2 ≤ buf.length ∧
      stringWidth (buf.drop offset) = some (2 + r.1.toNat) := by
  unfold decodeUint16
  by_cases h : buf.length < offset + 2
  · rw [if_pos h]
    exact safe_fail
  · rw [if_neg h]
    obtain ⟨b0, b1, hs, hd⟩ := two_bytes_of_le (Nat.not_lt.mp h)
    rw [slice_of_le (by omega) (by omega), hs, hd]
    refine ⟨rfl, by omega, ?_⟩
    have hlt : b0.toNat * 256 + b1.toNat < 65536 := by
      have := b0.toNat_lt
      have := b1.toNat_lt
      omega
    show some _ = some _
    rw [UInt16.toNat_ofNat_of_lt' hlt]

theorem decodeUint32_safe (buf : Bytes) (offset : ℕ) :
    Safe (decodeUint32 buf offset) fun r => r.2 = offset + 4 ∧ r.2 ≤ buf.length := by
  unfold decodeUint32
  by_cases h : buf.length < offset + 4
  · rw [if_pos h]
    exact safe_fail
  · rw [if_neg h, slice_of_le (by omega) (by omega)]
    have hlen := slice_length (b := buf) (i := offset) (Nat.not_lt.mp h)
    match (buf.take (offset + 4)).drop offset, hlen with
    | [_, _, _, _], _ => exact ⟨rfl, by omega⟩
    | [], hlen => simp at hlen
    | [_], hlen => simp at hlen
    | [_, _], hlen => simp at hlen
    | [_, _, _], hlen => simp at hlen
    | _ :: _ :: _ :: _ :: _ :: _, hlen => simp at hlen

theorem decodeByte_safe (buf : Bytes) (offset : ℕ) :
    Safe (decodeByte buf offset) fun r => r.2 = offset + 1 ∧ r.2 ≤ buf.length := by
  unfold decodeByte
  by_cases h : buf.length ≤ offset
  · rw [if_pos h]
    exact safe_fail
  · rw [if_neg h, index_of_lt (Nat.not_le.mp h)]
    exact ⟨rfl, by omega⟩

theorem decodeByteBool_safe (buf : Bytes) (offset : ℕ) :
    Safe (decodeByteBool buf offset) fun r => r.2 = offset + 1 ∧ r.2 ≤ buf.length := by
  unfold decodeByteBool
  by_cases h : buf.length ≤ offset
  · rw [if_pos h]
    exact safe_fail
  · rw [if_neg h, index_of_lt (Nat.not_le.mp h)]
    exact ⟨rfl, by omega⟩

/-- What a length-prefixed field is in relation to the string it was read from. -/
structure FieldAt (buf : Bytes) (offset : ℕ) (v : Bytes) (next : ℕ) : Prop where
  sub : v <:+: buf
  next_eq : next = offset + 2 + v.length
  le : next ≤ buf.length
  width : stringWidth (buf.drop offset) = some (next - offset)

theorem decodeBytes_safe (buf : Bytes) (offset : ℕ) :
    Safe (decodeBytes buf offset) fun r => FieldAt buf offset r.1 r.2 := by
  unfold decodeBytes
  apply safe_bind (decodeUint16_safe buf offset)
  rintro ⟨length, next⟩ ⟨hnext, hle, hwidth⟩
  dsimp only at hnext hle hwidth ⊢
  by_cases h : next + length.toNat > buf.length
  · rw [if_pos h]
    exact safe_fail
  · rw [if_neg h, slice_of_le (by omega) (by omega)]
    have hlen := slice_length (b := buf) (i := next) (Nat.not_lt.mp h)
    exact {
      sub := slice_infix buf next (next + length.toNat)
      next_eq := by
        show next + length.toNat = offset + 2 + ((buf.take (next + length.toNat)).drop next).length
        omega
      le := Nat.not_lt.mp h
      width := by
        rw [hwidth]
        congr 1
        show 2 + length.toNat = next + length.toNat - offset
        omega }

theorem decodeString_safe (buf : Bytes) (offset : ℕ) :
    Safe (decodeString buf offset) fun r => FieldAt buf offset r.1 r.2 := by
  unfold decodeString
  apply safe_bind (decodeBytes_safe buf offset)
  rintro ⟨b, n⟩ h
  dsimp only at h ⊢
  by_cases hv : validUTF8 b
  · rw [if_pos hv]
    exact h
  · rw [if_neg hv]
    exact safe_fail

theorem high_bit_clear_iff (eb : UInt8) : eb &&& 128 = 0 ↔ eb < 128 := by
  have h : ∀ n : Fin 256, (UInt8.ofNat n.val &&& 128 = 0 ↔ UInt8.ofNat n.val < 128) := by
    decide +kernel
  have := h ⟨eb.toNat, eb.toNat_lt⟩
  rwa [UInt8.ofNat_toNat] at this

private theorem low_bits_lt (eb : UInt8) : (eb &&& 127).toNat < 2 ^ 7 := by
  rw [UInt8.toNat_and]
  exact Nat.and_lt_two_pow eb.toNat (by decide)

theorem decodeLengthLoop_safe (b : Bytes) : ∀ value bu, 1 ≤ bu → bu ≤ 4 → value < 2 ^ (7 * (bu - 1)) →
    Safe (decodeLengthLoop (7 * (bu - 1)) value bu b) fun r =>
      bu ≤ r.2 ∧ r.2 ≤ 4 ∧ varIntWidth b = some (r.2 + 1 - bu) ∧ r.2 + 1 - bu ≤ b.length ∧
        r.1 < 2 ^ (7 * r.2) := by
  induction b with
  | nil =>
    intro value bu _ _ _
    exact safe_fail
  | cons eb rest ih =>
    intro value bu hpos hle hvalue
    have hexp : 7 * (bu - 1) + 7 = 7 * bu := by omega
    have hshift : (eb &&& 127).toNat <<< (7 * (bu - 1)) < 2 ^ (7 * bu) := by
      rw [Nat.shiftLeft_eq, ← hexp, Nat.pow_add, Nat.mul_comm]
      exact Nat.mul_lt_mul_of_pos_left (low_bits_lt eb) (Nat.two_pow_pos _)
    have hold : value < 2 ^ (7 * bu) :=
      Nat.lt_of_lt_of_le hvalue (Nat.pow_le_pow_right (by decide) (by omega))
    have hnew := Nat.or_lt_two_pow hold hshift
    rw [decodeLengthLoop]
    by_cases hbig : value ||| (eb &&& 127).toNat <<< (7 * (bu - 1)) > 268435455
    · rw [if_pos hbig]
      exact safe_fail
    rw [if_neg hbig]
    by_cases hlast : eb &&& 128 = 0
    · rw [if_pos hlast]
      have hwidth : varIntWidth (eb :: rest) = some 1 := by
        rw [varIntWidth, if_pos ((high_bit_clear_iff eb).mp hlast)]
      refine ⟨Nat.le_refl _, hle, ?_, ?_, hnew⟩
      · rw [hwidth]
        congr 1
        dsimp only
        omega
      · rw [length_cons]
        dsimp only
        omega
    rw [if_neg hlast]
    by_cases hfour : bu = 4
    · rw [if_pos hfour]
      exact safe_fail
    rw [if_neg hfour]
    have hih := ih (value ||| (eb &&& 127).toNat <<< (7 * (bu - 1))) (bu + 1) (by omega) (by omega)
      hnew
    rw [Nat.add_sub_cancel] at hih
    rw [hexp]
    apply safe_mono hih
    rintro ⟨v, u⟩ ⟨h1, h2, h3, h4, h5⟩
    dsimp only at h1 h2 h3 h4 h5 ⊢
    have hwidth : varIntWidth (eb :: rest) = some (u + 1 - (bu + 1) + 1) := by
      rw [varIntWidth, if_neg (fun h => hlast ((high_bit_clear_iff eb).mpr h)), h3]
      rfl
    refine ⟨by omega, h2, ?_, ?_, h5⟩
    · rw [hwidth]
      congr 1
      omega
    · rw [length_cons]
      omega

theorem lengthSize_le {n bu : ℕ} (h1 : 1 ≤ bu) (h4 : bu ≤ 4) (h : n < 2 ^ (7 * bu)) : lengthSize n ≤ bu := by
  unfold lengthSize
  have : bu = 1 ∨ bu = 2 ∨ bu = 3 ∨ bu = 4 := by omega
  rcases this with rfl | rfl | rfl | rfl <;> norm_num at h <;> split_ifs <;> omega

theorem decodeLength_safe (b : Bytes) :
    Safe (decodeLength b) fun r => 1 ≤ r.2 ∧ r.2 ≤ b.length ∧ varIntWidth b = some r.2 ∧
      lengthSize r.1 ≤ r.2 := by
  have h := decodeLengthLoop_safe b 0 1 (by omega) (by omega) (by norm_num)
  apply safe_mono h
  rintro ⟨n, bu⟩ ⟨h1, h2, h3, h4, h5⟩
  dsimp only at h1 h2 h3 h4 h5 ⊢
  rw [Nat.add_sub_cancel] at h3 h4
  exact ⟨h1, h4, h3, lengthSize_le h1 h2 h5⟩

end MonsterMQ.Packets
