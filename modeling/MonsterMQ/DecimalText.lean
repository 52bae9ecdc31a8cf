import MonsterMQ.LittleEndian

/-!
# Numbers in decimal

The digits of a natural number as bytes and how they are read back. Nothing here refers to a particular
protocol.
-/

namespace MonsterMQ.DecimalText

open LittleEndian

def isDigit (b : UInt8) : Bool := 0x30 ≤ b && b ≤ 0x39

@[grind =] def decimal (n : ℕ) : Bytes := (Nat.toDigits 10 n).map fun c => c.toNat.toUInt8

@[grind =] def digitsFrom : ℕ → Bytes → Option ℕ
  | n, [] => some n
  | n, b :: s => if isDigit b then digitsFrom (10 * n + (b.toNat - 0x30)) s else none

@[grind =] def number (s : Bytes) : Option ℕ := if s = [] then none else digitsFrom 0 s

theorem decimal_ne_nil (n : ℕ) : decimal n ≠ [] := by
  rw [decimal, Ne, List.map_eq_nil_iff]
  exact Nat.toDigits_ne_nil

private theorem digitsFrom_append {n m : ℕ} {s : Bytes} (h : digitsFrom n s = some m) (t : Bytes) :
    digitsFrom n (s ++ t) = digitsFrom m t := by
  induction s generalizing n with
  | nil =>
    cases h
    rfl
  | cons b s ih =>
    rw [digitsFrom] at h
    split at h
    · next hb =>
      rw [List.cons_append, digitsFrom, if_pos hb, ih h]
    · cases h

theorem digit_spec : ∀ d < 10, isDigit (Nat.digitChar d).toNat.toUInt8 = true ∧
    (Nat.digitChar d).toNat.toUInt8.toNat - 0x30 = d := by
  decide

theorem digitsFrom_decimal (n : ℕ) : digitsFrom 0 (decimal n) = some n := by
  induction n using Nat.strong_induction_on with
  | _ n ih =>
    by_cases hn : n < 10
    · obtain ⟨hd, hv⟩ := digit_spec n hn
      rw [decimal, Nat.toDigits_of_lt_base hn, List.map_singleton, digitsFrom, if_pos hd, hv, digitsFrom]
      simp
    · obtain ⟨hd, hv⟩ := digit_spec (n % 10) (Nat.mod_lt n (by decide))
      have hrec := ih (n / 10) (by omega)
      have hsplit : decimal n = decimal (n / 10) ++ [(Nat.digitChar (n % 10)).toNat.toUInt8] := by
        rw [decimal, Nat.toDigits_of_base_le (by decide) (by omega), List.map_append, List.map_singleton, decimal]
      rw [hsplit, digitsFrom_append hrec, digitsFrom, if_pos hd, hv, digitsFrom]
      congr 1
      omega

theorem number_decimal (n : ℕ) : number (decimal n) = some n := by
  rw [number, if_neg (decimal_ne_nil n), digitsFrom_decimal]

theorem isDigit_of_digitsFrom {n m : ℕ} {s : Bytes} (h : digitsFrom n s = some m) {b : UInt8} (hb : b ∈ s) :
    isDigit b = true := by
  induction s generalizing n with
  | nil => cases hb
  | cons c s ih =>
    rw [digitsFrom] at h
    split at h
    · next hc =>
      rcases List.mem_cons.mp hb with rfl | hb
      · exact hc
      · exact ih h hb
    · cases h

theorem isDigit_of_mem_decimal {n : ℕ} {b : UInt8} (hb : b ∈ decimal n) : isDigit b = true :=
  isDigit_of_digitsFrom (digitsFrom_decimal n) hb

end MonsterMQ.DecimalText
