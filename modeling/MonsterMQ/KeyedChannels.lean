import Mathlib.Data.List.Basic

/-!
# Channels with keys

Messages under way carry a key. `under` is what is under way for one key; sending and receiving a message
changes it for that key only.
-/

namespace MonsterMQ.KeyedChannels

open List

variable {α κ : Type*} [DecidableEq κ] (key : α → κ)

@[grind =] def under (k : κ) (l : List α) : List α := l.filter (fun a => key a = k)

theorem under_append (k : κ) (l l' : List α) : under key k (l ++ l') = under key k l ++ under key k l' :=
  filter_append ..

variable {key}

theorem under_singleton_self {k : κ} {a : α} (h : key a = k) : under key k [a] = [a] := by
  simp [under, h]

theorem under_singleton_ne {k : κ} {a : α} (h : key a ≠ k) : under key k [a] = [] := by
  simp [under, h]

theorem mem_under {k : κ} {l : List α} {a : α} : a ∈ under key k l ↔ a ∈ l ∧ key a = k := by
  simp [under]

theorem under_eraseIdx_ne {l : List α} {i : ℕ} {a : α} (h : l[i]? = some a) {k : κ} (hk : key a ≠ k) :
    under key k (l.eraseIdx i) = under key k l := by
  induction l generalizing i with
  | nil => simp at h
  | cons x l ih =>
    cases i with
    | zero =>
      simp only [List.getElem?_cons_zero, Option.some.injEq] at h
      subst h
      simp [under, hk]
    | succ i =>
      simp only [List.getElem?_cons_succ] at h
      have hrest := ih h
      simp only [under] at hrest
      simp only [under, eraseIdx_cons_succ, filter_cons, hrest]

theorem under_eraseIdx_self {l : List α} {i : ℕ} {a b : α} (h : l[i]? = some a)
    (hu : under key (key a) l = [b]) : b = a ∧ under key (key a) (l.eraseIdx i) = [] := by
  have hmem : a ∈ under key (key a) l := (mem_under).mpr ⟨mem_of_getElem? h, rfl⟩
  rw [hu, mem_singleton] at hmem
  refine ⟨hmem.symm, ?_⟩
  have hlen : (under key (key a) (l.eraseIdx i)).length + 1 = (under key (key a) l).length := by
    clear hu hmem
    induction l generalizing i with
    | nil => simp at h
    | cons x l ih =>
      cases i with
      | zero =>
        simp only [List.getElem?_cons_zero, Option.some.injEq] at h
        subst h
        simp [under]
      | succ i =>
        simp only [List.getElem?_cons_succ] at h
        have hrest := ih h
        simp only [under] at hrest
        simp only [under, eraseIdx_cons_succ, filter_cons]
        split
        · simp only [length_cons]
          omega
        · exact hrest
  rw [hu, length_singleton] at hlen
  exact eq_nil_of_length_eq_zero (by omega)

end MonsterMQ.KeyedChannels
