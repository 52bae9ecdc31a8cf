import Mathlib.Data.Nat.Notation
import Mathlib.Tactic.Ring

/-!
# Little-endian byte strings

The width-indexed encoding of a natural number as little-endian bytes and its
inverse, together with the splitting rules a length-prefixed format needs.
Nothing here refers to a particular format.
-/

namespace MonsterMQ.LittleEndian

abbrev Bytes := List UInt8

instance lawfulBEqBytes : LawfulBEq Bytes := inferInstance

/-- The `w` low bytes of `n`, least significant first. -/
@[grind =] def put : ℕ → ℕ → Bytes
  | 0, _ => []
  | w + 1, n => UInt8.ofNat (n % 256) :: put w (n / 256)

/-- The number a byte string denotes, least significant byte first. -/
@[grind =] def get : Bytes → ℕ
  | [] => 0
  | b :: bs => b.toNat + 256 * get bs

@[simp] theorem put_length (w n : ℕ) : (put w n).length = w := by
  induction w generalizing n with
  | zero => rfl
  | succ w ih => simp [put, ih]

@[simp] theorem get_nil : get [] = 0 := rfl

theorem get_cons (b : UInt8) (bs : Bytes) : get (b :: bs) = b.toNat + 256 * get bs := rfl

private theorem get_put (w n : ℕ) : get (put w n) = n % 256 ^ w := by
  induction w generalizing n with
  | zero => simp [put, Nat.mod_one]
  | succ w ih =>
    have hb : (UInt8.ofNat (n % 256)).toNat = n % 256 := by
      simp [UInt8.toNat_ofNat']
    rw [put, get_cons, ih, hb, pow_succ', Nat.mod_mul]

theorem get_put_of_lt {w n : ℕ} (h : n < 256 ^ w) : get (put w n) = n := by
  rw [get_put, Nat.mod_eq_of_lt h]

theorem put_get (bs : Bytes) : put bs.length (get bs) = bs := by
  induction bs with
  | nil => rfl
  | cons b bs ih =>
    have hb := b.toNat_lt
    have hmod : (b.toNat + 256 * get bs) % 256 = b.toNat := by omega
    have hdiv : (b.toNat + 256 * get bs) / 256 = get bs := by omega
    simp only [List.length_cons, put, get_cons, hmod, hdiv, ih]
    simp

@[simp] theorem take_put_append (w n : ℕ) (rest : Bytes) : (put w n ++ rest).take w = put w n :=
  List.take_left' (put_length w n)

section Words

/-- The word-sized fields, written and read through their natural value. -/
@[grind =] def put16 (v : UInt16) : Bytes := put 2 v.toNat
def put32 (v : UInt32) : Bytes := put 4 v.toNat
def put64 (v : UInt64) : Bytes := put 8 v.toNat

@[grind =] def get16 (bs : Bytes) : UInt16 := UInt16.ofNat (get (bs.take 2))
def get32 (bs : Bytes) : UInt32 := UInt32.ofNat (get (bs.take 4))
@[grind =] def get64 (bs : Bytes) : UInt64 := UInt64.ofNat (get (bs.take 8))

@[simp] theorem put16_length (v : UInt16) : (put16 v).length = 2 := put_length _ _
@[simp] theorem put32_length (v : UInt32) : (put32 v).length = 4 := put_length _ _
@[simp] theorem put64_length (v : UInt64) : (put64 v).length = 8 := put_length _ _

@[simp] theorem get16_put16_append (v : UInt16) (rest : Bytes) : get16 (put16 v ++ rest) = v := by
  have hv : v.toNat < 256 ^ 2 := v.toNat_lt
  rw [get16, put16, take_put_append, get_put_of_lt hv, UInt16.ofNat_toNat]

@[simp] theorem get32_put32_append (v : UInt32) (rest : Bytes) : get32 (put32 v ++ rest) = v := by
  have hv : v.toNat < 256 ^ 4 := v.toNat_lt
  rw [get32, put32, take_put_append, get_put_of_lt hv, UInt32.ofNat_toNat]

@[simp] theorem get64_put64_append (v : UInt64) (rest : Bytes) : get64 (put64 v ++ rest) = v := by
  have hv : v.toNat < 256 ^ 8 := v.toNat_lt
  rw [get64, put64, take_put_append, get_put_of_lt hv, UInt64.ofNat_toNat]

theorem get32_append {b : Bytes} (h : 4 ≤ b.length) (rest : Bytes) : get32 (b ++ rest) = get32 b := by
  rw [get32, get32, List.take_append_of_le_length h]

theorem get64_append {b : Bytes} (h : 8 ≤ b.length) (rest : Bytes) : get64 (b ++ rest) = get64 b := by
  rw [get64, get64, List.take_append_of_le_length h]

theorem toNat_ofNat16 {n : ℕ} (h : n < 2 ^ 16) : (UInt16.ofNat n).toNat = n := by
  rw [UInt16.toNat_ofNat', Nat.mod_eq_of_lt h]

theorem toNat_ofNat32 {n : ℕ} (h : n < 2 ^ 32) : (UInt32.ofNat n).toNat = n := by
  rw [UInt32.toNat_ofNat', Nat.mod_eq_of_lt h]

end Words

end MonsterMQ.LittleEndian
