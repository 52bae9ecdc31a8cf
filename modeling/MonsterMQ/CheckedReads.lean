import MonsterMQ.LittleEndian

/-!
# Checked reads of a byte string

A reader of a byte string succeeds, reports an error, panics on an index or a slice bound outside the
string, or does not come to an end. The rules show that it does only the first two.
-/

namespace MonsterMQ.CheckedReads

open List

variable {ε α β σ : Type}

/-- The ways a reader ends without a value. -/
inductive Fault (ε : Type)
  | error (e : ε)
  | panic
  | diverges
  deriving DecidableEq, Repr

abbrev Read (ε α : Type) := Except (Fault ε) α

def fail (e : ε) : Read ε α := .error (.error e)

@[grind =] def index (b : List β) (i : ℕ) : Read ε β :=
  match b[i]? with
  | some x => .ok x
  | none => .error .panic

@[grind =] def slice (b : List β) (i j : ℕ) : Read ε (List β) :=
  if i ≤ j ∧ j ≤ b.length then .ok ((b.take j).drop i) else .error .panic

def sliceFrom (b : List β) (i : ℕ) : Read ε (List β) := slice b i b.length

def report (f : ε → ε) : Read ε α → Read ε α
  | .error (.error e) => fail (f e)
  | r => r

/-- `for offset < n { step }`, for at most `fuel` rounds. -/
@[grind =] def readWhile (n : ℕ) (step : σ → ℕ → Read ε (σ × ℕ)) : ℕ → σ → ℕ → Read ε σ
  | 0, s, offset => if offset < n then .error .diverges else .ok s
  | fuel + 1, s, offset =>
    if offset < n then step s offset >>= fun r => readWhile n step fuel r.1 r.2 else .ok s

/-- The reader returns a value with the property or reports an error. -/
def Safe (r : Read ε α) (post : α → Prop) : Prop :=
  match r with
  | .ok a => post a
  | .error (.error _) => True
  | .error .panic => False
  | .error .diverges => False

@[simp] theorem safe_fail {e : ε} {post : α → Prop} : Safe (fail e) post := trivial

theorem safe_mono {r : Read ε α} {post post' : α → Prop} (h : Safe r post)
    (hpost : ∀ a, post a → post' a) : Safe r post' := by
  rcases r with (_ | _ | _) | a
  · trivial
  · exact h
  · exact h
  · exact hpost a h

theorem safe_bind {r : Read ε α} {f : α → Read ε β} {mid : α → Prop} {post : β → Prop}
    (h : Safe r mid) (hf : ∀ a, mid a → Safe (f a) post) : Safe (r >>= f) post := by
  rcases r with (_ | _ | _) | a
  · trivial
  · exact h
  · exact h
  · exact hf a h

theorem safe_report {f : ε → ε} {r : Read ε α} {post : α → Prop} (h : Safe r post) :
    Safe (report f r) post := by
  rcases r with (_ | _ | _) | a
  · trivial
  · exact h
  · exact h
  · exact h

theorem safe_of_ok {r : Read ε α} {post : α → Prop} {a : α} (h : Safe r post) (ha : r = .ok a) : post a := by
  subst ha
  exact h

theorem fails_of_safe {r : Read ε α} {post : α → Prop} (h : Safe r post)
    (hr : ∀ a, r ≠ .ok a) : ∃ e, r = fail e := by
  rcases r with (e | _ | _) | a
  · exact ⟨e, rfl⟩
  · exact h.elim
  · exact h.elim
  · exact absurd rfl (hr a)

theorem bind_eq_ok {r : Read ε α} {f : α → Read ε β} {b : β} :
    (r >>= f) = .ok b ↔ ∃ a, r = .ok a ∧ f a = .ok b := by
  rcases r with e | a
  · constructor
    · intro h
      cases h
    · rintro ⟨a, ha, -⟩
      cases ha
  · constructor
    · intro h
      exact ⟨a, rfl, h⟩
    · rintro ⟨a', ha, hf⟩
      cases ha
      exact hf

theorem report_eq_ok {f : ε → ε} {r : Read ε α} {a : α} : report f r = .ok a ↔ r = .ok a := by
  rcases r with (_ | _ | _) | a'
  · constructor <;> intro h <;> cases h
  · rfl
  · rfl
  · rfl

theorem fail_ne_ok {e : ε} {a : α} : fail e ≠ .ok a := by
  intro h
  cases h

variable {i offset : ℕ}

theorem index_of_lt {b : List β} (h : i < b.length) : (index b i : Read ε β) = .ok (b.get ⟨i, h⟩) := by
  simp [index, List.getElem?_eq_getElem h]

theorem slice_of_le {b : List β} {j : ℕ} (h : i ≤ j) (hj : j ≤ b.length) :
    (slice b i j : Read ε (List β)) = .ok ((b.take j).drop i) := by
  simp [slice, h, hj]

theorem sliceFrom_of_le {b : List β} (h : i ≤ b.length) :
    (sliceFrom b i : Read ε (List β)) = .ok (b.drop i) := by
  simp [sliceFrom, slice, h]

theorem slice_length {b : List β} {j : ℕ} (hj : j ≤ b.length) : ((b.take j).drop i).length = j - i := by
  simp [Nat.min_eq_left hj]

theorem slice_infix (b : List β) (i j : ℕ) : (b.take j).drop i <:+: b :=
  (drop_suffix i _).isInfix.trans (List.take_prefix j b).isInfix

theorem drop_infix {f b : List β} (h : f <:+: b.drop i) : f <:+: b :=
  h.trans (drop_suffix i b).isInfix

/-- A loop whose rounds keep `inv` and go forward ends at or past `n` with `inv`. -/
theorem safe_readWhile {n : ℕ} {step : σ → ℕ → Read ε (σ × ℕ)} (inv : σ → ℕ → Prop)
    (hstep : ∀ s offset, offset < n → inv s offset →
      Safe (step s offset) fun r => offset < r.2 ∧ inv r.1 r.2) (fuel : ℕ) :
    ∀ s offset, n ≤ offset + fuel → inv s offset →
      Safe (readWhile n step fuel s offset) fun s => ∃ last, n ≤ last ∧ inv s last := by
  induction fuel with
  | zero =>
    intro s offset hfuel hinv
    have hdone : ¬ offset < n := by omega
    rw [readWhile, if_neg hdone]
    exact ⟨offset, by omega, hinv⟩
  | succ fuel ih =>
    intro s offset hfuel hinv
    rw [readWhile]
    by_cases hlt : offset < n
    · rw [if_pos hlt]
      apply safe_bind (hstep s offset hlt hinv)
      intro r hr
      apply ih r.1 r.2 _ hr.2
      have := hr.1
      omega
    · rw [if_neg hlt]
      exact ⟨offset, by omega, hinv⟩

/-- The offsets visited when `next` gives the end of the item that begins at an offset. -/
inductive Walk (next : ℕ → Option ℕ) (n : ℕ) : ℕ → ℕ → Prop
  | here (offset : ℕ) : Walk next n offset offset
  | step {offset last p : ℕ} : offset < n → next offset = some last → Walk next n last p →
      Walk next n offset p

/-- A loop that returns a value met at every visited offset an item that ends by `n`. -/
theorem readWhile_walk {n : ℕ} {step : σ → ℕ → Read ε (σ × ℕ)} {next : ℕ → Option ℕ} (inv : σ → ℕ → Prop)
    (hstep : ∀ s offset, offset < n → inv s offset →
      Safe (step s offset) fun r => inv r.1 r.2 ∧ next offset = some r.2 ∧ r.2 ≤ n)
    (fuel : ℕ) : ∀ s s' offset p, inv s offset → readWhile n step fuel s offset = .ok s' →
      Walk next n offset p → p < n → ∃ last, next p = some last ∧ last ≤ n := by
  induction fuel with
  | zero =>
    intro s s' offset p _ hloop hwalk hp
    have hdone : ¬ offset < n := by
      intro hlt
      rw [readWhile, if_pos hlt] at hloop
      cases hloop
    cases hwalk with
    | here => exact absurd hp hdone
    | step hlt => exact absurd hlt hdone
  | succ fuel ih =>
    intro s s' offset p hinv hloop hwalk hp
    rw [readWhile] at hloop
    cases hwalk with
    | here =>
      rw [if_pos hp, bind_eq_ok] at hloop
      obtain ⟨r, hr, -⟩ := hloop
      exact ⟨r.2, (safe_of_ok (hstep s offset hp hinv) hr).2⟩
    | step hlt hnext hrest =>
      rw [if_pos hlt, bind_eq_ok] at hloop
      obtain ⟨r, hr, hloop⟩ := hloop
      obtain ⟨hinv', hr, -⟩ := safe_of_ok (hstep s offset hlt hinv) hr
      rw [hr, Option.some.injEq] at hnext
      subst hnext
      exact ih r.1 s' r.2 p hinv' hloop hrest hp

def At (buf : List β) (offset : ℕ) (rest : List β) : Prop :=
  ∃ before, buf = before ++ rest ∧ before.length = offset

theorem at_zero (buf : List β) : At buf 0 buf := ⟨[], rfl, rfl⟩

theorem At.next {buf a rest : List β} (h : At buf offset (a ++ rest)) : At buf (offset + a.length) rest := by
  obtain ⟨before, rfl, rfl⟩ := h
  exact ⟨before ++ a, (append_assoc before a rest).symm, length_append⟩

theorem At.tail {buf rest : List β} {b : β} (h : At buf offset (b :: rest)) : At buf (offset + 1) rest :=
  At.next (a := [b]) h

theorem At.length_le {buf rest : List β} (h : At buf offset rest) : offset + rest.length = buf.length := by
  obtain ⟨before, rfl, rfl⟩ := h
  exact length_append.symm

theorem At.drop_eq {buf rest : List β} (h : At buf offset rest) : buf.drop offset = rest := by
  obtain ⟨before, rfl, rfl⟩ := h
  exact drop_left

theorem At.slice_left {buf a rest : List β} (h : At buf offset (a ++ rest)) (n : ℕ)
    (hn : a.length = n) : (slice buf offset (offset + n) : Read ε (List β)) = .ok a := by
  have hlen := h.length_le
  rw [length_append] at hlen
  rw [slice_of_le (Nat.le_add_right offset n) (by omega), ← take_drop, h.drop_eq, ← hn,
    take_left]

theorem At.sliceFrom_eq {buf rest : List β} (h : At buf offset rest) :
    (sliceFrom buf offset : Read ε (List β)) = .ok rest := by
  have hlen := h.length_le
  rw [sliceFrom_of_le (by omega), h.drop_eq]

theorem At.index_head {buf rest : List β} {b : β} (h : At buf offset (b :: rest)) :
    (index buf offset : Read ε β) = .ok b := by
  have hget : buf[offset]? = some b := by
    rw [← List.head?_drop, h.drop_eq]
    rfl
  rw [index, hget]

/-- The loop returns `result` whenever it is given rounds enough. -/
def Yields (n : ℕ) (step : σ → ℕ → Read ε (σ × ℕ)) (s : σ) (offset : ℕ) (result : σ) : Prop :=
  ∀ fuel, n ≤ offset + fuel → readWhile n step fuel s offset = .ok result

theorem yields_done {n : ℕ} {step : σ → ℕ → Read ε (σ × ℕ)} {s : σ}
    (h : n ≤ offset) : Yields n step s offset s := by
  intro fuel _
  cases fuel with
  | zero | succ fuel => rw [readWhile, if_neg (by omega)]

theorem yields_step {n : ℕ} {step : σ → ℕ → Read ε (σ × ℕ)} {s s' result : σ} {next : ℕ}
    (hlt : offset < n) (hstep : step s offset = .ok (s', next)) (hnext : offset < next)
    (h : Yields n step s' next result) : Yields n step s offset result := by
  intro fuel hfuel
  cases fuel with
  | zero => exact absurd hfuel (by omega)
  | succ fuel =>
    rw [readWhile, if_pos hlt, hstep]
    exact h fuel (by omega)

end MonsterMQ.CheckedReads
