import Mathlib.Algebra.Group.Nat.Even
import Mathlib.Data.Int.Notation

/-!
# The system clock and 64-bit arithmetic

Readings of the wall clock, and Go's 64-bit integers as integers with their wrap-around
written out. Nothing here refers to a particular component.
-/

namespace MonsterMQ.SystemClock

/-- A reading of the system clock: nanoseconds since the epoch, in 63 bits. -/
structure Instant where
  nanos : ℕ
  lt_int64 : nanos < 2 ^ 63

@[grind =] def second : ℕ := 1000000000
def millisecond : ℕ := 1000000

@[grind =] def Instant.unix (t : Instant) : ℕ := t.nanos / second
def Instant.unixMilli (t : Instant) : ℕ := t.nanos / millisecond

/-- The value an `int64` holds after an operation whose exact result is `x`. -/
def int64 (x : ℤ) : ℤ := (x + 9223372036854775808) % 18446744073709551616 - 9223372036854775808

/-- The value a `uint64` holds after an operation whose exact result is `x`. -/
def uint64 (x : ℤ) : ℤ := x % 18446744073709551616

theorem int64_of_range {x : ℤ} (hlo : -9223372036854775808 ≤ x) (hhi : x < 9223372036854775808) :
    int64 x = x := by
  rw [int64]
  omega

theorem uint64_of_range {x : ℤ} (hlo : 0 ≤ x) (hhi : x < 18446744073709551616) : uint64 x = x := by
  rw [uint64]
  omega

theorem Instant.unix_lt (t : Instant) : t.unix < 9223372037 := by
  have h := t.lt_int64
  rw [unix, second]
  omega

theorem Instant.unixMilli_eq (t : Instant) : ∃ f < 1000, t.unixMilli = t.unix * 1000 + f := by
  refine ⟨t.unixMilli - t.unix * 1000, ?_, ?_⟩ <;>
    rw [unixMilli, unix, millisecond, second] <;> omega

end MonsterMQ.SystemClock
