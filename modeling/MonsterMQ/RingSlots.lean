import MonsterMQ.StateRuns
import Mathlib.Data.List.Rotate
import Mathlib.Data.Nat.ModEq

/-!
# Rings of slots, and answers along runs

A ring read from slot `h` on is `l.rotate h`. A step by step refinement between two systems that answer
carries over to runs.
-/

namespace MonsterMQ.RingSlots

open StateRuns List

variable {α : Type*} {l m : List α} {h i : ℕ}

theorem set_rotate (hi : i < l.length) (x : α) :
    (l.set ((h + i) % l.length) x).rotate h = (l.rotate h).set i x := by
  refine ext_getElem? fun j => ?_
  by_cases hj : j < l.length
  · have hslot : (h + i) % l.length = (j + h) % l.length ↔ i = j := by
      rw [Nat.add_comm j h]
      refine ⟨fun heq => ?_, fun heq => by rw [heq]⟩
      exact (Nat.ModEq.add_left_cancel' h heq).eq_of_lt_of_lt hi hj
    rw [getElem?_rotate (by rwa [length_set]), length_set, getElem?_set, getElem?_set, getElem?_rotate hj,
      length_rotate]
    by_cases heq : i = j
    · rw [if_pos (hslot.mpr heq), if_pos heq, if_pos (Nat.mod_lt _ (by omega)), if_pos hi]
    · rw [if_neg (mt hslot.mp heq), if_neg heq]
  · rw [getElem?_eq_none (by simpa using hj), getElem?_eq_none (by simpa using hj)]

theorem set_rotate_start (hh : h < l.length) (x : α) : (l.set h x).rotate h = (l.rotate h).set 0 x := by
  have hset := set_rotate (h := h) (i := 0) (Nat.zero_lt_of_lt hh) x
  rwa [Nat.add_zero, Nat.mod_eq_of_lt hh] at hset

/-- One slot back, the last slot comes first. -/
theorem rotate_back {a : α} (hl : l.rotate h = m ++ [a]) : l.rotate ((h + l.length - 1) % l.length) = a :: m := by
  have hpos : 0 < l.length := by
    rw [← length_rotate l h, hl]
    simp
  apply rotate_injective 1
  change (rotate _ _).rotate 1 = rotate _ 1
  rw [rotate_cons_succ, rotate_zero, ← hl, rotate_mod, rotate_rotate, Nat.sub_add_cancel (by omega), ← rotate_mod,
    Nat.add_mod_right, rotate_mod]

variable {σ τ β γ : Type*} {step : σ → β → σ × γ} {step' : τ → β → τ × γ}

def answers (step : σ → β → σ × γ) : σ → List β → List γ
  | _, [] => []
  | s, a :: as => (step s a).2 :: answers step (step s a).1 as

/-- A relation that every step keeps, with equal answers, holds along runs. -/
theorem answers_eq {R : σ → τ → Prop}
    (hstep : ∀ s t a, R s t → R (step s a).1 (step' t a).1 ∧ (step s a).2 = (step' t a).2) {s : σ} {t : τ}
    (h : R s t) (as : List β) : answers step s as = answers step' t as ∧
      R (run (fun s a => (step s a).1) s as) (run (fun t a => (step' t a).1) t as) := by
  induction as generalizing s t with
  | nil => exact ⟨rfl, h⟩
  | cons a as ih =>
    obtain ⟨hR, heq⟩ := hstep s t a h
    obtain ⟨hrest, hend⟩ := ih hR
    exact ⟨by rw [answers, answers, heq, hrest], hend⟩

end MonsterMQ.RingSlots
