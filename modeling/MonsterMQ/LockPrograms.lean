import Mathlib.Logic.Basic

/-!
# Programs over one mutex

A goroutine is the list of what it still does: it takes a mutex that is not reentrant, releases it, or acts.
A bracketed program takes the mutex only when it does not have it and releases it only when it does, so it
never waits for itself.
-/

namespace MonsterMQ.LockPrograms

variable {α : Type}

inductive Op (α : Type) where
  | lock
  | unlock
  | act (a : α)
  deriving DecidableEq, Repr

/-- A program, begun with or without the mutex, ends without it. -/
def Bracketed : Bool → List (Op α) → Prop
  | held, [] => held = false
  | held, .lock :: ops => held = false ∧ Bracketed true ops
  | held, .unlock :: ops => held = true ∧ Bracketed false ops
  | held, .act _ :: ops => Bracketed held ops

def locked (as : List α) : List (Op α) := .lock :: as.map .act ++ [.unlock]

theorem bracketed_append {held : Bool} {ops ops' : List (Op α)} (h : Bracketed held ops)
    (h' : Bracketed false ops') : Bracketed held (ops ++ ops') := by
  induction ops generalizing held with
  | nil =>
    rw [show held = false from h]
    exact h'
  | cons op ops ih =>
    cases op with
    | lock | unlock => exact ⟨h.1, ih h.2⟩
    | act a => exact ih h

private theorem bracketed_acts {as : List α} : Bracketed true (as.map .act ++ [.unlock]) := by
  induction as with
  | nil => exact ⟨rfl, rfl⟩
  | cons a as ih => exact ih

theorem bracketed_locked (as : List α) : Bracketed false (locked as) := ⟨rfl, bracketed_acts⟩

theorem bracketed_flatMap_locked {β : Type} (f : β → List α) (l : List β) :
    Bracketed false (l.flatMap fun b => locked (f b)) := by
  induction l with
  | nil => rfl
  | cons b l ih =>
    rw [List.flatMap_cons]
    exact bracketed_append (bracketed_locked _) ih

/-- A program that is given up releases the mutex if it has it. -/
@[grind =] def release (held : Bool) : List (Op α) := if held then [.unlock] else []

theorem bracketed_release (held : Bool) : Bracketed held (release (α := α) held) := by
  cases held with
  | true => exact ⟨rfl, rfl⟩
  | false => rfl

theorem not_lock_of_held {ops : List (Op α)} (h : Bracketed true ops) : ops.head? ≠ some .lock := by
  cases ops with
  | nil => exact fun heq => by cases heq
  | cons op ops =>
    rintro ⟨⟩
    exact absurd h.1 (by decide)

end MonsterMQ.LockPrograms
