import MonsterMQ.LittleEndian
import Mathlib.Data.Int.Notation

/-!
# The Kafka wire format

The reader and the writer of `internal/kafka/wire`: numbers are big-endian, lengths come before strings, and
record fields have zigzag numbers in groups of seven bits.
-/

namespace MonsterMQ.Kafka

open LittleEndian

inductive ReadError where
  | short
  | invalid
  deriving DecidableEq, Repr

structure Reader where
  rest : Bytes
  err : Option ReadError
  deriving DecidableEq, Repr

/-- The number of a two's complement of `w` bits. -/
@[grind =] def signed (w n : ℕ) : ℤ := if n < 2 ^ (w - 1) then n else n - 2 ^ w

namespace Reader

@[grind =] def new (b : Bytes) : Reader := ⟨b, none⟩

@[grind =] def remaining (r : Reader) : ℕ := r.rest.length

@[grind =] def take (r : Reader) (n : ℤ) : Option Bytes × Reader :=
  if r.err.isSome then (none, r)
  else if n < 0 ∨ r.rest.length < n then (none, ⟨r.rest, some .short⟩)
  else (some (r.rest.take n.toNat), ⟨r.rest.drop n.toNat, none⟩)

def int (r : Reader) (w : ℕ) : ℤ × Reader :=
  match r.take w with
  | (none, r) => (0, r)
  | (some s, r) => (signed (8 * w) (get s.reverse), r)

@[grind =] def int8 (r : Reader) : ℤ × Reader := r.int 1
def int16 (r : Reader) : ℤ × Reader := r.int 2
@[grind =] def int32 (r : Reader) : ℤ × Reader := r.int 4
def int64 (r : Reader) : ℤ × Reader := r.int 8

def nullableString (r : Reader) : Option Bytes × Reader :=
  let (n, r) := r.int16
  if r.err.isSome ∨ n < 0 then (none, r)
  else match r.take n with
    | (none, r) => (if n > 0 then none else some [], r)
    | (some s, r) => (some s, r)

def string (r : Reader) : Bytes × Reader :=
  let (s, r) := r.nullableString
  (s.getD [], r)

def bytes (r : Reader) : Option Bytes × Reader :=
  let (n, r) := r.int32
  if r.err.isSome ∨ n < 0 then (none, r) else r.take n

@[grind =] def raw (r : Reader) (n : ℤ) : Option Bytes × Reader := r.take n

def arrayLen (r : Reader) (minElem : ℕ) : ℕ × Reader :=
  let (n, r) := r.int32
  if r.err.isSome then (0, r)
  else if n < 0 then (0, r)
  else if n * (max minElem 1 : ℕ) > r.remaining then (0, ⟨r.rest, some .invalid⟩)
  else (n.toNat, r)

def unzigzag (u : ℕ) : ℤ := if u % 2 = 0 then (u / 2 : ℕ) else -((u / 2 : ℕ) : ℤ) - 1

/-- The loop of `Varlong`: the groups do not overlap, so their sum is their union; what is shifted
out of 64 bits is lost. -/
def varlongLoop : ℕ → ℕ → ℕ → Reader → ℤ × Reader
  | 0, _, _, r => (0, ⟨r.rest, some .invalid⟩)
  | rounds + 1, u, shift, r =>
    match r.take 1 with
    | (none, r) => (0, r)
    | (some s, r) =>
      let b := get s
      let u := (u + b % 128 * 2 ^ shift) % 2 ^ 64
      if b < 128 then (unzigzag u, r) else varlongLoop rounds u (shift + 7) r

def varlong (r : Reader) : ℤ × Reader := varlongLoop 10 0 0 r

def varint (r : Reader) : ℤ × Reader :=
  let (n, r) := r.varlong
  (signed 32 (n % 2 ^ 32).toNat, r)

end Reader

@[grind =] def putInt (w : ℕ) (v : ℤ) : Bytes := (put w (v % 2 ^ (8 * w)).toNat).reverse

@[grind =] def putBytes32 : Option Bytes → Bytes
  | none => putInt 4 (-1)
  | some p => putInt 4 p.length ++ p

@[grind =] def zigzag (v : ℤ) : ℕ := if 0 ≤ v then 2 * v.toNat else 2 * (-v - 1).toNat + 1

/-- The groups of seven bits of a number, lowest first, for at most `rounds` more. -/
@[grind =] def putGroups : ℕ → ℕ → Bytes
  | 0, u => [UInt8.ofNat u]
  | rounds + 1, u =>
    if u ≥ 128 then UInt8.ofNat (u % 128 + 128) :: putGroups rounds (u / 128) else [UInt8.ofNat u]

def putVarlong (v : ℤ) : Bytes := putGroups 9 (zigzag v)

section RoundTrip

private theorem unzigzag_zigzag (v : ℤ) : Reader.unzigzag (zigzag v) = v := by
  rw [zigzag, Reader.unzigzag]
  by_cases h : 0 ≤ v
  · rw [if_pos h, if_pos (by omega)]
    omega
  · rw [if_neg h, if_neg (by omega)]
    omega

private theorem zigzag_lt {v : ℤ} {w : ℕ} (h : -2 ^ w ≤ v ∧ v < 2 ^ w) : zigzag v < 2 ^ (w + 1) := by
  have hw : (2 : ℤ) ^ w = ((2 ^ w : ℕ) : ℤ) := by push_cast; rfl
  rw [zigzag, pow_succ]
  split <;> omega

theorem signed_mod {v : ℤ} {w : ℕ} (h : -2 ^ w ≤ v ∧ v < 2 ^ w) :
    signed (w + 1) (v % 2 ^ (w + 1)).toNat = v := by
  have hw : (2 : ℤ) ^ w = ((2 ^ w : ℕ) : ℤ) := by push_cast; rfl
  have hpos := Nat.two_pow_pos w
  have hmod : v % 2 ^ (w + 1) = if 0 ≤ v then v else v + 2 ^ (w + 1) := by
    rw [pow_succ]
    split
    · exact Int.emod_eq_of_lt (by omega) (by omega)
    · rw [← Int.add_emod_right]
      exact Int.emod_eq_of_lt (by omega) (by omega)
  rw [hmod, signed, Nat.add_sub_cancel]
  have hp : (2 : ℤ) ^ (w + 1) = 2 * 2 ^ w := by ring
  split
  · rw [if_pos (by omega)]
    omega
  · rw [if_neg (by omega), hp]
    omega

theorem putInt_length (w : ℕ) (v : ℤ) : (putInt w v).length = w := by
  rw [putInt, List.length_reverse, put_length]

theorem get_putInt (w : ℕ) (v : ℤ) : get (putInt w v).reverse = (v % 2 ^ (8 * w)).toNat := by
  have hpow : (256 : ℕ) ^ w = 2 ^ (8 * w) := by
    rw [pow_mul]
    rfl
  have hz : (2 : ℤ) ^ (8 * w) = ((2 ^ (8 * w) : ℕ) : ℤ) := by push_cast; rfl
  have hmod := Int.emod_lt_of_pos v (by rw [hz]; exact_mod_cast Nat.two_pow_pos (8 * w) :
    (0 : ℤ) < 2 ^ (8 * w))
  rw [putInt, List.reverse_reverse]
  apply get_put_of_lt
  rw [hpow]
  omega

theorem signed_putInt {w : ℕ} {v : ℤ} (hw : 0 < w) (h : -2 ^ (8 * w - 1) ≤ v ∧ v < 2 ^ (8 * w - 1)) :
    signed (8 * w) (v % 2 ^ (8 * w)).toNat = v := by
  have hsucc : 8 * w = (8 * w - 1) + 1 := by omega
  rw [hsucc]
  exact signed_mod h

namespace Reader

theorem take_append (a t : Bytes) : (Reader.mk (a ++ t) none).take a.length = (some a, ⟨t, none⟩) := by
  rw [take, if_neg (by simp), if_neg (by simp)]
  simp

theorem int_append {w : ℕ} {a : Bytes} (h : a.length = w) (t : Bytes) :
    (Reader.mk (a ++ t) none).int w = (signed (8 * w) (get a.reverse), ⟨t, none⟩) := by
  rw [int, ← h, take_append]

theorem int_putInt {w : ℕ} {v : ℤ} (hw : 0 < w) (h : -2 ^ (8 * w - 1) ≤ v ∧ v < 2 ^ (8 * w - 1))
    (t : Bytes) : (Reader.mk (putInt w v ++ t) none).int w = (v, ⟨t, none⟩) := by
  rw [int_append (putInt_length w v), get_putInt, signed_putInt hw h]

theorem bytes_putBytes32 {p : Option Bytes} (h : ∀ s ∈ p, s.length < 2 ^ 31) (t : Bytes) :
    (Reader.mk (putBytes32 p ++ t) none).bytes = (p, ⟨t, none⟩) := by
  cases p with
  | none =>
    rw [putBytes32, bytes, int32, int_putInt (by decide) (by decide)]
    rfl
  | some s =>
    have hs := h s rfl
    rw [putBytes32, List.append_assoc, bytes, int32,
      int_putInt (by decide) ⟨by omega, by have := hs; push_cast; omega⟩]
    dsimp only
    rw [if_neg (by simp), take_append]

theorem get_ofNat {u : ℕ} (h : u < 256) : get [UInt8.ofNat u] = u := by
  rw [get_cons, get_nil, UInt8.toNat_ofNat', Nat.mod_eq_of_lt h, Nat.mul_zero, Nat.add_zero]

theorem varlongLoop_putGroups (rounds : ℕ) : ∀ (u acc shift : ℕ) (t : Bytes), u < 128 ^ (rounds + 1) →
    acc + u * 2 ^ shift < 2 ^ 64 → varlongLoop (rounds + 1) acc shift ⟨putGroups rounds u ++ t, none⟩ =
      (unzigzag (acc + u * 2 ^ shift), ⟨t, none⟩) := by
  induction rounds with
  | zero =>
    intro u acc shift t hu hacc
    have htake := take_append [UInt8.ofNat u] t
    have hb : get [UInt8.ofNat u] = u := get_ofNat (by omega)
    rw [putGroups, varlongLoop]
    rw [List.length_singleton, Nat.cast_one] at htake
    rw [htake]
    dsimp only
    rw [hb, if_pos (by omega), Nat.mod_eq_of_lt (by omega : u < 128), Nat.mod_eq_of_lt hacc]
  | succ rounds ih =>
    intro u acc shift t hu hacc
    rw [putGroups, varlongLoop]
    by_cases hbig : u ≥ 128
    · have htake := take_append [UInt8.ofNat (u % 128 + 128)] (putGroups rounds (u / 128) ++ t)
      have hb : get [UInt8.ofNat (u % 128 + 128)] = u % 128 + 128 := get_ofNat (by omega)
      rw [List.length_singleton, Nat.cast_one, List.singleton_append] at htake
      have hsplit : acc + u % 128 * 2 ^ shift + u / 128 * 2 ^ (shift + 7) = acc + u * 2 ^ shift := by
        have hdiv := Nat.div_add_mod u 128
        rw [pow_add]
        calc acc + u % 128 * 2 ^ shift + u / 128 * (2 ^ shift * 2 ^ 7)
            = acc + (128 * (u / 128) + u % 128) * 2 ^ shift := by ring
          _ = acc + u * 2 ^ shift := by rw [hdiv]
      rw [if_pos hbig, List.cons_append, htake]
      dsimp only
      rw [hb, if_neg (by omega), Nat.add_mod_right, Nat.mod_mod,
        Nat.mod_eq_of_lt (by omega : acc + u % 128 * 2 ^ shift < 2 ^ 64),
        ih (u / 128) _ (shift + 7) t ?_ (by omega), hsplit]
      exact Nat.div_lt_of_lt_mul (by rw [← pow_succ']; exact hu)
    · have htake := take_append [UInt8.ofNat u] t
      have hb : get [UInt8.ofNat u] = u := get_ofNat (by omega)
      rw [List.length_singleton, Nat.cast_one] at htake
      rw [if_neg hbig, htake]
      dsimp only
      rw [hb, if_pos (by omega), Nat.mod_eq_of_lt (by omega : u < 128), Nat.mod_eq_of_lt hacc]

theorem varlong_putVarlong {v : ℤ} (h : -2 ^ 63 ≤ v ∧ v < 2 ^ 63) (t : Bytes) :
    (Reader.mk (putVarlong v ++ t) none).varlong = (v, ⟨t, none⟩) := by
  have hu := zigzag_lt h
  rw [varlong, putVarlong, varlongLoop_putGroups 9 _ 0 0 t (by omega) (by omega), pow_zero, mul_one,
    Nat.zero_add, unzigzag_zigzag]

theorem varint_putVarlong {v : ℤ} (h : -2 ^ 31 ≤ v ∧ v < 2 ^ 31) (t : Bytes) :
    (Reader.mk (putVarlong v ++ t) none).varint = (v, ⟨t, none⟩) := by
  rw [varint, varlong_putVarlong ⟨by omega, by omega⟩]
  dsimp only
  rw [signed_mod h]

end Reader

end RoundTrip

attribute [irreducible] Reader.varlong Reader.int

end MonsterMQ.Kafka
