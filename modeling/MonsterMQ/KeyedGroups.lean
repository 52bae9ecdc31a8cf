import Mathlib.Data.List.Induction
import Mathlib.Data.List.Nodup
import Mathlib.Data.List.Perm.Basic

/-!
# Values by key

Pairs are collected in a map from keys to the values in order, which remembers the order in which the
keys were first used. Nothing here refers to a particular map.
-/

namespace MonsterMQ.KeyedGroups

open List

variable {K V : Type} [DecidableEq K]

/-- `m[k] = append(m[k], v)` of a map that is written in the order of its keys' first use. -/
@[grind =] def addTo (g : List (K × List V)) (k : K) (v : V) : List (K × List V) :=
  match g with
  | [] => [(k, [v])]
  | (k', vs) :: g => if k' = k then (k', vs ++ [v]) :: g else (k', vs) :: addTo g k v

@[grind =] def groups (l : List (K × V)) : List (K × List V) := l.foldl (fun g e => addTo g e.1 e.2) []

@[grind =] def valuesOf (g : List (K × List V)) (k : K) : List V := (g.lookup k).getD []

theorem valuesOf_addTo (g : List (K × List V)) (k : K) (v : V) (k' : K) :
    valuesOf (addTo g k v) k' = if k = k' then valuesOf g k' ++ [v] else valuesOf g k' := by
  induction g with
  | nil =>
    by_cases h : k = k'
    · simp [addTo, valuesOf, h]
    · simp [addTo, valuesOf, h, lookup_cons, show (k' == k) = false by simpa using Ne.symm h]
  | cons e g ih =>
    obtain ⟨k₀, vs⟩ := e
    rw [addTo]
    by_cases hk : k₀ = k
    · subst hk
      rw [if_pos rfl]
      by_cases h : k₀ = k'
      · subst h
        simp [valuesOf]
      · simp [valuesOf, lookup_cons, h, show (k' == k₀) = false by simpa using Ne.symm h]
    · rw [if_neg hk]
      by_cases h : k₀ = k'
      · subst h
        simp [valuesOf, Ne.symm hk]
      · simpa [valuesOf, lookup_cons, show (k' == k₀) = false by simpa using Ne.symm h] using ih

theorem keys_addTo (g : List (K × List V)) (k : K) (v : V) : (addTo g k v).map Prod.fst =
    if k ∈ g.map Prod.fst then g.map Prod.fst else g.map Prod.fst ++ [k] := by
  induction g with
  | nil => simp [addTo]
  | cons e g ih =>
    obtain ⟨k₀, vs⟩ := e
    rw [addTo]
    by_cases hk : k₀ = k
    · simp [hk]
    · rw [if_neg hk, map_cons, ih, map_cons]
      by_cases hmem : k ∈ g.map Prod.fst
      · rw [if_pos hmem, if_pos (mem_cons_of_mem _ hmem)]
      · rw [if_neg hmem, if_neg (by simp only [mem_cons, not_or]; exact ⟨Ne.symm hk, hmem⟩)]
        rfl

theorem valuesOf_groups (l : List (K × V)) (k : K) :
    valuesOf (groups l) k = (l.filter fun e => e.1 = k).map Prod.snd := by
  induction l using List.reverseRecOn with
  | nil => rfl
  | append_singleton l e ih =>
    rw [groups, foldl_append, foldl_cons, foldl_nil, ← groups, valuesOf_addTo, ih]
    by_cases h : e.1 = k
    · simp [h]
    · simp [h]

theorem nodup_keys_groups (l : List (K × V)) : ((groups l).map Prod.fst).Nodup := by
  induction l using List.reverseRecOn with
  | nil => exact nodup_nil
  | append_singleton l e ih =>
    rw [groups, foldl_append, foldl_cons, foldl_nil, ← groups, keys_addTo]
    split
    · exact ih
    · rename_i hnew
      exact nodup_append.mpr ⟨ih, nodup_singleton _, by
        intro a ha b hb
        rw [mem_singleton] at hb
        subst hb
        intro heq
        exact hnew (heq ▸ ha)⟩

theorem mem_keys_groups (l : List (K × V)) (k : K) : k ∈ (groups l).map Prod.fst ↔ k ∈ l.map Prod.fst := by
  induction l using List.reverseRecOn with
  | nil => rfl
  | append_singleton l e ih =>
    rw [groups, foldl_append, foldl_cons, foldl_nil, ← groups, keys_addTo]
    split
    · rename_i hmem
      rw [ih, map_append, mem_append]
      constructor
      · exact .inl
      · rintro (h | h)
        · exact h
        · rw [map_cons, map_nil, mem_singleton] at h
          exact ih.mp (h ▸ hmem)
    · rw [mem_append, ih, map_append, mem_append]
      rfl

theorem head_keys_groups (l : List (K × V)) : ((groups l).map Prod.fst).head? = (l.map Prod.fst).head? := by
  induction l using List.reverseRecOn with
  | nil => rfl
  | append_singleton l e ih =>
    rw [groups, foldl_append, foldl_cons, foldl_nil, ← groups, keys_addTo,
      map_append, List.head?_append]
    split
    · rename_i hmem
      rw [ih]
      cases l with
      | nil => simp [groups] at hmem
      | cons a l => rfl
    · rw [List.head?_append, ih]
      rfl

private theorem addTo_ne_nil (g : List (K × List V)) (k : K) (v : V) (h : ∀ e ∈ g, e.2 ≠ []) :
    ∀ e ∈ addTo g k v, e.2 ≠ [] := by
  induction g with
  | nil =>
    intro e he
    rw [mem_singleton.mp he]
    simp
  | cons e g ih =>
    obtain ⟨k₀, vs⟩ := e
    intro e' he'
    rw [addTo] at he'
    split at he'
    · rcases mem_cons.mp he' with rfl | hmem
      · simp
      · exact h e' (mem_cons_of_mem _ hmem)
    · rcases mem_cons.mp he' with rfl | hmem
      · exact h _ mem_cons_self
      · exact ih (fun x hx => h x (mem_cons_of_mem _ hx)) e' hmem

theorem groups_ne_nil (l : List (K × V)) : ∀ e ∈ groups l, e.2 ≠ [] := by
  induction l using List.reverseRecOn with
  | nil => exact fun _ he => absurd he not_mem_nil
  | append_singleton l e ih =>
    rw [groups, foldl_append, foldl_cons, foldl_nil, ← groups]
    exact addTo_ne_nil _ _ _ ih

variable {g : List (K × List V)}

theorem flatMap_filter_eq_valuesOf (h : (g.map Prod.fst).Nodup) (k : K) :
    (g.filter fun e => e.1 = k).flatMap Prod.snd = valuesOf g k := by
  induction g with
  | nil => rfl
  | cons e g ih =>
    obtain ⟨k₀, vs⟩ := e
    rw [map_cons, nodup_cons] at h
    by_cases hk : k₀ = k
    · subst hk
      have hnone : g.filter (fun e => e.1 = k₀) = [] := by
        rw [filter_eq_nil_iff]
        intro e he heq
        have hmem : e.1 ∈ g.map Prod.fst := mem_map_of_mem he
        rw [of_decide_eq_true heq] at hmem
        exact h.1 hmem
      simp [hnone, valuesOf]
    · have hne : (k == k₀) = false := by simpa using Ne.symm hk
      rw [filter_cons_of_neg (by simpa using hk), ih h.2, valuesOf, valuesOf,
        lookup_cons, hne]

private theorem valuesOf_eq_nil {k : K} (h : k ∉ g.map Prod.fst) : valuesOf g k = [] := by
  induction g with
  | nil => rfl
  | cons e g ih =>
    obtain ⟨k₀, vs⟩ := e
    rw [map_cons, mem_cons, not_or] at h
    have hne : (k == k₀) = false := by simpa using h.1
    rw [valuesOf, lookup_cons, hne]
    exact ih h.2

variable {e : K × List V}

theorem valuesOf_eq_of_mem (h : (g.map Prod.fst).Nodup) (he : e ∈ g) : valuesOf g e.1 = e.2 := by
  induction g with
  | nil => cases he
  | cons e' g ih =>
    rw [map_cons, nodup_cons] at h
    rcases mem_cons.mp he with rfl | hmem
    · rw [valuesOf, lookup_cons, beq_self_eq_true]
      rfl
    · have hne : (e.1 == e'.1) = false := by
        rw [beq_eq_false_iff_ne]
        intro heq
        exact h.1 (heq ▸ mem_map_of_mem hmem)
      rw [valuesOf, lookup_cons, hne]
      exact ih h.2 hmem

theorem valuesOf_eraseIdx (h : (g.map Prod.fst).Nodup) {i : ℕ} (hi : g[i]? = some e) (k : K) :
    valuesOf (g.eraseIdx i) k = if k = e.1 then [] else valuesOf g k := by
  induction g generalizing i with
  | nil => cases hi
  | cons e' g ih =>
    rw [map_cons, nodup_cons] at h
    cases i with
    | zero =>
      cases hi
      rw [eraseIdx_cons_zero]
      by_cases hk : k = e.1
      · rw [if_pos hk, hk]
        exact valuesOf_eq_nil h.1
      · have hne : (k == e.1) = false := by simpa using hk
        rw [if_neg hk, valuesOf, valuesOf, lookup_cons, hne]
    | succ i =>
      rw [List.getElem?_cons_succ] at hi
      rw [eraseIdx_cons_succ, valuesOf, lookup_cons]
      have hmem : e.1 ∈ g.map Prod.fst := mem_map_of_mem (mem_of_getElem? hi)
      by_cases hk : k = e'.1
      · have hne : k ≠ e.1 := by
          rintro rfl
          exact h.1 (hk ▸ hmem)
        rw [if_neg hne, valuesOf, lookup_cons, hk, beq_self_eq_true]
      · have hne : (k == e'.1) = false := by simpa using hk
        have hrest : valuesOf (e' :: g) k = valuesOf g k := by rw [valuesOf, lookup_cons, hne]; rfl
        rw [hne, hrest]
        exact ih h.2 hi

omit [DecidableEq K] in
theorem nodup_keys_eraseIdx (h : (g.map Prod.fst).Nodup) (i : ℕ) :
    ((g.eraseIdx i).map Prod.fst).Nodup := h.sublist ((eraseIdx_sublist ..).map _)

omit [DecidableEq K] in
theorem mem_keys_eraseIdx (h : (g.map Prod.fst).Nodup) {i : ℕ}
    (hi : g[i]? = some e) {k : K} (hk : k ∈ (g.eraseIdx i).map Prod.fst) : k ∈ g.map Prod.fst ∧ k ≠ e.1 := by
  obtain ⟨hlt, hget⟩ := List.getElem?_eq_some_iff.mp hi
  have hperm := (getElem_cons_eraseIdx_perm hlt).map Prod.fst
  rw [hget, map_cons] at hperm
  have hnodup := hperm.nodup_iff.mpr h
  refine ⟨hperm.subset (mem_cons_of_mem _ hk), ?_⟩
  intro heq
  exact (nodup_cons.mp hnodup).1 (heq ▸ hk)

end MonsterMQ.KeyedGroups
