import Mathlib.Logic.Function.Basic
import Mathlib.Data.List.Basic

/-!
# Lists whose members know their position

A list together with a back pointer for every possible member, and the two ways to change it in constant
time: appending a member, and removing one by moving the last into its place.
-/

namespace MonsterMQ.IndexedLists

open List

variable {ω : Type*} {ws : List ω} {idx : ω → Option ℕ} {w : ω} {i : ℕ}

def Indexed (ws : List ω) (idx : ω → Option ℕ) : Prop := ∀ w i, idx w = some i ↔ ws[i]? = some w

theorem indexed_nil : Indexed ([] : List ω) fun _ => none := fun w i => by simp

theorem Indexed.idx_eq_none (h : Indexed ws idx) : idx w = none ↔ w ∉ ws := by
  constructor
  · intro hnone hmem
    obtain ⟨i, hi⟩ := mem_iff_getElem?.mp hmem
    rw [(h w i).mpr hi] at hnone
    cases hnone
  · intro hnot
    cases hidx : idx w with
    | none => rfl
    | some i => exact absurd (mem_of_getElem? ((h w i).mp hidx)) hnot

theorem Indexed.lt_length (h : Indexed ws idx) (hidx : idx w = some i) : i < ws.length :=
  (List.getElem?_eq_some_iff.mp ((h w i).mp hidx)).1

theorem Indexed.inj (h : Indexed ws idx) {j : ℕ} (hi : ws[i]? = some w) (hj : ws[j]? = some w) : i = j := by
  have hsame := ((h w i).mpr hi).symm.trans ((h w j).mpr hj)
  exact Option.some.inj hsame

/-- The list after the last member was moved to position `i`, where `w` was, and cut off its end. -/
@[grind =] def swapRemove (ws : List ω) (i : ℕ) (last : ω) : List ω :=
  (if i ≠ ws.length - 1 then ws.set i last else ws).dropLast

theorem length_swapRemove (last : ω) : (swapRemove ws i last).length = ws.length - 1 := by
  rw [swapRemove, length_dropLast]
  split <;> simp

theorem getElem?_swapRemove (last : ω) {j : ℕ} : (swapRemove ws i last)[j]? =
      if j < ws.length - 1 then (if i = j then some last else ws[j]?) else none := by
  rw [swapRemove, List.getElem?_dropLast]
  by_cases hi : i ≠ ws.length - 1
  · rw [if_pos hi, length_set]
    split
    · rename_i hj
      rw [List.getElem?_set]
      by_cases hij : i = j
      · rw [if_pos hij, if_pos hij, if_pos (by omega)]
      · rw [if_neg hij, if_neg hij]
    · rfl
  · rw [if_neg hi]
    split
    · rename_i hj
      rw [if_neg (by omega)]
    · rfl

section BackPointers

variable [DecidableEq ω]

@[grind =] def swapRemoveIdx (ws : List ω) (idx : ω → Option ℕ) (w : ω) (i : ℕ) (last : ω) : ω → Option ℕ :=
  Function.update (if i ≠ ws.length - 1 then Function.update idx last (some i) else idx) w none

theorem Indexed.append (h : Indexed ws idx) (hw : idx w = none) :
    Indexed (ws ++ [w]) (Function.update idx w (some ws.length)) := by
  intro v i
  by_cases hv : v = w
  · subst hv
    rw [Function.update_self]
    constructor
    · intro hi
      rw [← Option.some.inj hi]
      simp
    · intro hi
      rcases List.getElem?_append.symm.trans hi with h'
      split at h'
      · exact absurd (mem_of_getElem? h') (h.idx_eq_none.mp hw)
      · rename_i hlen
        have hzero : i - ws.length = 0 := by
          by_contra hne
          rw [List.getElem?_eq_none (by simp; omega)] at h'
          cases h'
        congr 1
        omega
  · rw [Function.update_of_ne hv, h v i]
    constructor
    · intro hi
      rw [List.getElem?_append_left (List.getElem?_eq_some_iff.mp hi).1, hi]
    · intro hi
      rcases List.getElem?_append.symm.trans hi with h'
      split at h'
      · exact h'
      · have hmem := mem_of_getElem? h'
        exact absurd (mem_singleton.mp hmem) hv

theorem Indexed.swapRemove (h : Indexed ws idx) (hi : ws[i]? = some w) {last : ω}
    (hlast : ws[ws.length - 1]? = some last) :
    Indexed (IndexedLists.swapRemove ws i last) (swapRemoveIdx ws idx w i last) := by
  have hlen : i < ws.length := (List.getElem?_eq_some_iff.mp hi).1
  intro v j
  rw [getElem?_swapRemove, swapRemoveIdx]
  by_cases hv : v = w
  · subst hv
    rw [Function.update_self]
    refine iff_of_false (by simp) ?_
    split
    · rename_i hj
      split
      · rename_i hij
        intro heq
        rw [Option.some.inj heq] at hlast
        have := h.inj hlast hi
        omega
      · intro heq
        rename_i hij
        exact hij (h.inj hi heq)
    · simp
  · rw [Function.update_of_ne hv]
    by_cases hend : i ≠ ws.length - 1
    · rw [if_pos hend]
      by_cases hvl : v = last
      · subst hvl
        rw [Function.update_self]
        constructor
        · intro hj
          obtain rfl := Option.some.inj hj
          rw [if_pos (by omega), if_pos rfl]
        · split
          · split
            · rename_i hij
              intro _
              rw [hij]
            · intro heq
              have := h.inj hlast heq
              omega
          · simp
      · rw [Function.update_of_ne hvl, h v j]
        constructor
        · intro hj
          have hne : i ≠ j := by
            rintro rfl
            exact hv (Option.some.inj (hj.symm.trans hi))
          have hne' : j ≠ ws.length - 1 := by
            rintro rfl
            exact hvl (Option.some.inj (hj.symm.trans hlast))
          have hj' := (List.getElem?_eq_some_iff.mp hj).1
          rw [if_pos (by omega), if_neg hne, hj]
        · split
          · split
            · intro heq
              exact absurd (Option.some.inj heq).symm hvl
            · exact fun heq => heq
          · simp
    · rw [if_neg hend, h v j]
      have hend' : i = ws.length - 1 := not_not.mp hend
      constructor
      · intro hj
        have hne : i ≠ j := by
          rintro rfl
          exact hv (Option.some.inj (hj.symm.trans hi))
        have hj' := (List.getElem?_eq_some_iff.mp hj).1
        rw [if_pos (by omega), if_neg hne, hj]
      · split
        · split
          · omega
          · exact fun heq => heq
        · simp

theorem Indexed.mem_swapRemove (h : Indexed ws idx) (hi : ws[i]? = some w) {last : ω}
    (hlast : ws[ws.length - 1]? = some last) {v : ω} :
    v ∈ IndexedLists.swapRemove ws i last ↔ v ∈ ws ∧ v ≠ w := by
  have h' := h.swapRemove hi hlast
  have hmem : v ∈ IndexedLists.swapRemove ws i last ↔ swapRemoveIdx ws idx w i last v ≠ none := by
    rw [ne_eq, h'.idx_eq_none, not_not]
  rw [hmem, swapRemoveIdx]
  by_cases hv : v = w
  · simp [hv]
  · rw [Function.update_of_ne hv]
    split
    · by_cases hvl : v = last
      · subst hvl
        rw [Function.update_self]
        exact iff_of_true (by simp) ⟨mem_of_getElem? hlast, hv⟩
      · rw [Function.update_of_ne hvl, ne_eq, h.idx_eq_none, not_not]
        exact ⟨fun hm => ⟨hm, hv⟩, fun hm => hm.1⟩
    · rw [ne_eq, h.idx_eq_none, not_not]
      exact ⟨fun hm => ⟨hm, hv⟩, fun hm => hm.1⟩

end BackPointers

end MonsterMQ.IndexedLists
