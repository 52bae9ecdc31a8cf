import MonsterMQ.PacketEncoders

/-!
# Fields read back

Every reader of one field returns the value its writer wrote and stops at its end.
-/

namespace MonsterMQ.Packets

open LittleEndian CheckedReads List

theorem encodeUint16_length (v : UInt16) : (encodeUint16 v).length = 2 := rfl

theorem encodeUint32_length (v : UInt32) : (encodeUint32 v).length = 4 := rfl

theorem encodeBytes_length (v : Bytes) : (encodeBytes v).length = 2 + v.length := by
  rw [encodeBytes, length_append, encodeUint16_length]

theorem encodeString_length (v : Bytes) : (encodeString v).length = 2 + v.length :=
  encodeBytes_length v

section Fields

variable {buf rest : Bytes} {offset : ℕ}

theorem decodeUint16_encode {v : UInt16} (h : At buf offset (encodeUint16 v ++ rest)) :
    decodeUint16 buf offset = .ok (v, offset + 2) := by
  have hle := h.length_le
  rw [length_append, encodeUint16_length] at hle
  unfold decodeUint16
  rw [if_neg (by omega), h.slice_left 2 rfl]
  show Except.ok (_, _) = _
  have hv : UInt16.ofNat ((UInt8.ofNat (v.toNat / 256)).toNat * 256 +
      (UInt8.ofNat v.toNat).toNat) = v := by
    have hlt := v.toNat_lt
    have hhigh : (UInt8.ofNat (v.toNat / 256)).toNat = v.toNat / 256 :=
      UInt8.toNat_ofNat_of_lt' (by norm_num; omega)
    have hlow : (UInt8.ofNat v.toNat).toNat = v.toNat % 256 := UInt8.toNat_ofNat'
    rw [hhigh, hlow, Nat.div_add_mod']
    exact UInt16.ofNat_toNat
  rw [hv]

theorem decodeUint32_encode {v : UInt32} (h : At buf offset (encodeUint32 v ++ rest)) :
    decodeUint32 buf offset = .ok (v, offset + 4) := by
  have hle := h.length_le
  rw [length_append, encodeUint32_length] at hle
  unfold decodeUint32
  rw [if_neg (by omega), h.slice_left 4 rfl]
  show Except.ok (_, _) = _
  have hv : UInt32.ofNat ((((UInt8.ofNat (v.toNat / 256 / 256 / 256)).toNat * 256 +
      (UInt8.ofNat (v.toNat / 256 / 256)).toNat) * 256 + (UInt8.ofNat (v.toNat / 256)).toNat) * 256 +
      (UInt8.ofNat v.toNat).toNat) = v := by
    have hlt := v.toNat_lt
    have hhigh : (UInt8.ofNat (v.toNat / 256 / 256 / 256)).toNat = v.toNat / 256 / 256 / 256 :=
      UInt8.toNat_ofNat_of_lt' (by norm_num; omega)
    have hmod : ∀ n : ℕ, (UInt8.ofNat n).toNat = n % 256 := fun n => UInt8.toNat_ofNat'
    rw [hhigh, hmod, hmod, hmod, Nat.div_add_mod', Nat.div_add_mod', Nat.div_add_mod']
    exact UInt32.ofNat_toNat
  rw [hv]

theorem decodeByte_cons {b : UInt8} (h : At buf offset (b :: rest)) :
    decodeByte buf offset = .ok (b, offset + 1) := by
  have hle := h.length_le
  rw [length_cons] at hle
  unfold decodeByte
  rw [if_neg (by omega), h.index_head]
  rfl

theorem decodeByteBool_cons {b : Bool} (h : At buf offset (encodeBool b :: rest)) :
    decodeByteBool buf offset = .ok (b, offset + 1) := by
  have hle := h.length_le
  rw [length_cons] at hle
  unfold decodeByteBool
  rw [if_neg (by omega), h.index_head]
  cases b <;> rfl

theorem decodeBytes_encode {v : Bytes} (hv : v.length ≤ 65535) (h : At buf offset (encodeBytes v ++ rest)) :
    decodeBytes buf offset = .ok (v, offset + (2 + v.length)) := by
  rw [encodeBytes, append_assoc] at h
  unfold decodeBytes
  rw [decodeUint16_encode h]
  have hnext := h.next
  rw [encodeUint16_length] at hnext
  have hlen : (UInt16.ofNat v.length).toNat = v.length :=
    UInt16.toNat_ofNat_of_lt' (by norm_num; omega)
  have hle := hnext.length_le
  rw [length_append] at hle
  show (if _ then _ else _) = _
  rw [hlen, if_neg (by omega), hnext.slice_left v.length rfl, Nat.add_assoc]
  rfl

theorem decodeString_encode {v : Bytes} (hv : v.length ≤ 65535) (hutf : validUTF8 v)
    (h : At buf offset (encodeString v ++ rest)) :
    decodeString buf offset = .ok (v, offset + (2 + v.length)) := by
  unfold decodeString
  rw [decodeBytes_encode hv h]
  show (if _ then _ else _) = _
  rw [if_pos hutf]
  rfl

end Fields

theorem length_byte_low {n : ℕ} (h : n < 128) : (UInt8.ofNat n &&& 127).toNat = n ∧
    UInt8.ofNat n &&& 128 = 0 ∧ ((UInt8.ofNat n ||| 0x80) &&& 127).toNat = n ∧
    (UInt8.ofNat n ||| 0x80) &&& 128 ≠ 0 := by
  have hall : ∀ n : Fin 128, (UInt8.ofNat n.val &&& 127).toNat = n.val ∧
      UInt8.ofNat n.val &&& 128 = 0 ∧ ((UInt8.ofNat n.val ||| 0x80) &&& 127).toNat = n.val ∧
      (UInt8.ofNat n.val ||| 0x80) &&& 128 ≠ 0 := by
    decide
  exact hall ⟨n, h⟩

theorem or_shift {value x m : ℕ} (h : value < 2 ^ m) : value ||| x <<< m = value + x * 2 ^ m := by
  rw [Nat.or_comm, ← Nat.shiftLeft_add_eq_or_of_lt h, Nat.shiftLeft_eq, Nat.add_comm]

theorem decodeLengthLoop_encode (rest : Bytes) (fuel : ℕ) : ∀ n value bu, n < fuel → 1 ≤ bu →
    value < 2 ^ (7 * (bu - 1)) → value + n * 2 ^ (7 * (bu - 1)) ≤ 268435455 → bu ≤ 4 →
    decodeLengthLoop (7 * (bu - 1)) value bu (encodeLengthLoop fuel n ++ rest) =
      .ok (value + n * 2 ^ (7 * (bu - 1)), bu + (encodeLengthLoop fuel n).length - 1) := by
  induction fuel with
  | zero =>
    intro n value bu hn
    exact absurd hn (Nat.not_lt_zero n)
  | succ fuel ih =>
    intro n value bu hn hpos hvalue hmax hbu
    obtain ⟨hlow, hclear, hlow', hset⟩ := length_byte_low (Nat.mod_lt n (by decide : 0 < 128))
    have hdigits : n % 128 + n / 128 * 128 = n := Nat.mod_add_div' n 128
    have hsplit : value + n % 128 * 2 ^ (7 * (bu - 1)) + n / 128 * (128 * 2 ^ (7 * (bu - 1))) =
        value + n * 2 ^ (7 * (bu - 1)) := by
      rw [Nat.add_assoc, ← Nat.mul_assoc, ← Nat.add_mul, hdigits]
    have hfirst : value + n % 128 * 2 ^ (7 * (bu - 1)) ≤ 268435455 := by omega
    rw [encodeLengthLoop]
    by_cases hmore : n / 128 > 0
    · rw [if_pos hmore, cons_append, decodeLengthLoop, hlow', or_shift hvalue,
        if_neg (by omega), if_neg hset]
      have hexp : 2 ^ (7 * (bu + 1 - 1)) = 128 * 2 ^ (7 * (bu - 1)) := by
        rw [show 7 * (bu + 1 - 1) = 7 + 7 * (bu - 1) by omega, Nat.pow_add]
      have hlt : value + n % 128 * 2 ^ (7 * (bu - 1)) < 2 ^ (7 * (bu + 1 - 1)) := by
        rw [hexp]
        have : n % 128 + 1 ≤ 128 := Nat.mod_lt n (by decide)
        have := Nat.mul_le_mul_right (2 ^ (7 * (bu - 1))) this
        rw [Nat.add_mul, Nat.one_mul] at this
        omega
      have hfour : bu ≠ 4 := by
        rintro rfl
        norm_num at hsplit hmax
        omega
      have hmul : 7 * (bu - 1) + 7 = 7 * (bu + 1 - 1) := by omega
      rw [if_neg hfour, hmul, ih (n / 128) _ (bu + 1) (by omega) (by omega) hlt
        (by rw [hexp]; omega) (by omega), hexp, hsplit, length_cons]
      congr 2
      omega
    · rw [if_neg hmore, cons_append, decodeLengthLoop, hlow, or_shift hvalue,
        if_neg (by omega), if_pos hclear]
      have : n % 128 = n := by omega
      rw [this]
      rfl

theorem decodeLength_encode {n : ℕ} (h : n ≤ 268435455) (rest : Bytes) :
    decodeLength (encodeLength n ++ rest) = .ok (n, (encodeLength n).length) := by
  have hloop := decodeLengthLoop_encode rest (n + 1) n 0 1 (by omega) (by omega) (by norm_num)
    (by norm_num; omega) (by omega)
  norm_num at hloop
  exact hloop

theorem encodeLength_head (n : ℕ) : ∃ b tail, encodeLength n = b :: tail ∧ (b = 0 → n = 0) := by
  obtain ⟨hlow, -, -, hset⟩ := length_byte_low (Nat.mod_lt n (by decide : 0 < 128))
  rw [encodeLength, encodeLengthLoop]
  by_cases hmore : n / 128 > 0
  · rw [if_pos hmore]
    refine ⟨_, _, rfl, ?_⟩
    intro hzero
    rw [hzero] at hset
    exact absurd rfl hset
  · rw [if_neg hmore]
    refine ⟨_, _, rfl, ?_⟩
    intro hzero
    rw [hzero] at hlow
    have : n % 128 = 0 := by simpa using hlow.symm
    omega

end MonsterMQ.Packets
