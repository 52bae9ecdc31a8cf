import Mathlib.Logic.Basic

/-!
# Computations that read a shared state several times

`Reads` has a computation as a tree of reads. Evaluated on one state it is an ordinary function; between two
reads another party may have replaced the state.
-/

namespace MonsterMQ.LockedReads

/-- A computation over a shared state, one critical section for each `read`. -/
inductive Reads (σ α : Type) where
  | done (a : α)
  | read (k : σ → Reads σ α)

namespace Reads

variable {σ α β : Type}

def bind : Reads σ α → (α → Reads σ β) → Reads σ β
  | done a, f => f a
  | read k, f => read fun s => (k s).bind f

def eval : Reads σ α → σ → α
  | done a, _ => a
  | read k, s => (k s).eval s

@[simp] theorem eval_done (a : α) (s : σ) : (done a).eval s = a := rfl

@[simp] theorem eval_read (k : σ → Reads σ α) (s : σ) : (read k).eval s = (k s).eval s := rfl

@[simp] theorem eval_ite (c : Prop) [Decidable c] (p q : Reads σ α) (s : σ) :
    (if c then p else q).eval s = if c then p.eval s else q.eval s :=
  apply_ite (fun p : Reads σ α => p.eval s) c p q

@[simp] theorem eval_bind (p : Reads σ α) (f : α → Reads σ β) (s : σ) :
    (p.bind f).eval s = (f (p.eval s)).eval s := by
  induction p with
  | done a => rfl
  | read k ih => exact ih s

/-- The computation does not tell states apart that `R` relates. -/
def Respects (R : σ → σ → Prop) : Reads σ α → Prop
  | done _ => True
  | read k => (∀ s s', R s s' → k s = k s') ∧ ∀ s, (k s).Respects R

variable {R : σ → σ → Prop}

theorem respects_ite {c : Prop} [Decidable c] {p q : Reads σ α} (hp : p.Respects R)
    (hq : q.Respects R) : (if c then p else q).Respects R := by
  split
  · exact hp
  · exact hq

theorem respects_bind {p : Reads σ α} {f : α → Reads σ β} (hp : p.Respects R)
    (hf : ∀ a, (f a).Respects R) : (p.bind f).Respects R := by
  induction p with
  | done a => exact hf a
  | read k ih =>
    refine ⟨?_, fun s => ih s (hp.2 s)⟩
    intro s s' h
    exact congrArg (fun p => Reads.bind p f) (hp.1 s s' h)

theorem eval_eq_of_respects {p : Reads σ α} (hp : p.Respects R) {s s' : σ} (h : R s s') :
    p.eval s = p.eval s' := by
  induction p with
  | done a => rfl
  | read k ih =>
    rw [eval_read, eval_read, ← hp.1 s s' h]
    exact ih s (hp.2 s)

end Reads

end MonsterMQ.LockedReads
