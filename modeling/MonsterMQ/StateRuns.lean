import Mathlib.Logic.Basic

/-!
# Runs of a deterministic transition system

A run folds a total step function over a list of inputs. `Along` asks a condition
of every step of a run, and `run_invariant` carries an invariant through the runs
that meet it. Nothing here refers to a particular system.
-/

namespace MonsterMQ.StateRuns

variable {σ α : Type*} (step : σ → α → σ)

@[grind =] def run (s : σ) (as : List α) : σ := as.foldl step s

@[simp] theorem run_nil (s : σ) : run step s [] = s := rfl

@[simp] theorem run_cons (s : σ) (a : α) (as : List α) : run step s (a :: as) = run step (step s a) as := rfl

/-- Every step of the run meets `Q`, a condition on the state before it. -/
def Along (Q : σ → α → Prop) : σ → List α → Prop
  | _, [] => True
  | s, a :: as => Q s a ∧ Along Q (step s a) as

instance decidableAlong (Q : σ → α → Prop) [∀ s a, Decidable (Q s a)] : ∀ s as, Decidable (Along step Q s as)
  | _, [] => isTrue trivial
  | s, a :: as =>
    have := decidableAlong Q (step s a) as
    inferInstanceAs (Decidable (Q s a ∧ Along step Q (step s a) as))

variable {step}

/-- What every step under `Q` preserves holds at the end of the run. -/
theorem run_invariant {Q : σ → α → Prop} {P : σ → Prop}
    (hstep : ∀ s a, P s → Q s a → P (step s a)) {s : σ} {as : List α} (h0 : P s)
    (hrun : Along step Q s as) : P (run step s as) := by
  induction as generalizing s with
  | nil => exact h0
  | cons a as ih => exact ih (hstep s a h0 hrun.1) hrun.2

theorem along_true (s : σ) (as : List α) : Along step (fun _ _ => True) s as := by
  induction as generalizing s with
  | nil => trivial
  | cons a as ih => exact ⟨trivial, ih _⟩

theorem run_always {P : σ → Prop} (hstep : ∀ s a, P s → P (step s a)) {s : σ} (h0 : P s)
    (as : List α) : P (run step s as) :=
  run_invariant (fun s a hs _ => hstep s a hs) h0 (along_true s as)

/-- What holds before the first input and is kept by every further one of the list. -/
theorem prefix_induction {P : List α → Prop} {as : List α} (hnil : P [])
    (hstep : ∀ before a after, as = before ++ a :: after → P before → P (before ++ [a])) : P as := by
  have hrest : ∀ after before, as = before ++ after → P before → P as := by
    intro after
    induction after with
    | nil =>
      intro before heq h
      rwa [heq, List.append_nil]
    | cons a after ih =>
      intro before heq h
      exact ih (before ++ [a]) (by rw [heq, List.append_assoc]; rfl) (hstep before a after heq h)
  exact hrest as [] rfl hnil

theorem along_of_prefixes {Q : σ → α → Prop} {s : σ} {as : List α}
    (h : ∀ before a after, as = before ++ a :: after → Q (run step s before) a) : Along step Q s as := by
  induction as generalizing s with
  | nil => trivial
  | cons a as ih =>
    exact ⟨h [] a as rfl, ih fun before b after heq => h (a :: before) b after (by rw [heq]; rfl)⟩

def outputs {β : Type*} (step : σ → α → σ) (f : σ → α → List β) : σ → List α → List β
  | _, [] => []
  | s, a :: as => f s a ++ outputs step f (step s a) as

theorem outputs_concat {β : Type*} (f : σ → α → List β) (s : σ) (as : List α) (a : α) :
    outputs step f s (as ++ [a]) = outputs step f s as ++ f (run step s as) a := by
  induction as generalizing s with
  | nil => simp [outputs]
  | cons b as ih => simp [outputs, ih]

theorem run_append (s : σ) (as bs : List α) : run step s (as ++ bs) = run step (run step s as) bs := by
  simp [run]

theorem run_concat (s : σ) (as : List α) (a : α) : run step s (as ++ [a]) = step (run step s as) a := by
  simp [run]

/-- What holds at the end of a run has held from its start on or has been brought about by one of its
steps. -/
theorem run_origin {Q : σ → α → Prop} {I P : σ → Prop} {C : σ → α → Prop}
    (hinv : ∀ s a, I s → Q s a → I (step s a)) (hstep : ∀ s a, I s → P (step s a) → P s ∨ C s a)
    {s : σ} {as : List α} (h0 : I s) (hrun : Along step Q s as) (h : P (run step s as)) :
    P s ∨ ∃ before a after, as = before ++ a :: after ∧ C (run step s before) a := by
  induction as generalizing s with
  | nil => exact .inl h
  | cons a as ih =>
    rcases ih (hinv s a h0 hrun.1) hrun.2 h with hnext | ⟨before, b, after, rfl, hc⟩
    · rcases hstep s a h0 hnext with hs | hc
      · exact .inl hs
      · exact .inr ⟨[], a, as, rfl, hc⟩
    · exact .inr ⟨a :: before, b, after, rfl, hc⟩

theorem along_append {Q : σ → α → Prop} {s : σ} {as bs : List α} (h : Along step Q s (as ++ bs)) :
    Along step Q s as ∧ Along step Q (run step s as) bs := by
  induction as generalizing s with
  | nil => exact ⟨trivial, h⟩
  | cons a as ih =>
    obtain ⟨has, hbs⟩ := ih h.2
    exact ⟨⟨h.1, has⟩, hbs⟩

theorem along_concat {Q : σ → α → Prop} {s : σ} {as : List α} {a : α} (h : Along step Q s as)
    (ha : Q (run step s as) a) : Along step Q s (as ++ [a]) := by
  induction as generalizing s with
  | nil => exact ⟨ha, trivial⟩
  | cons b as ih => exact ⟨h.1, ih h.2 ha⟩

end MonsterMQ.StateRuns
