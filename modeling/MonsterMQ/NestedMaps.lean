import MonsterMQ.FiniteMaps

/-!
# Keyed lists and maps of maps

A list with one element for each key, edited by replacing or appending, and a map whose values are maps that
are dropped when they become empty.
-/

namespace MonsterMQ.FiniteMaps

open List

section Keyed

variable {β κ : Type} [DecidableEq κ]

@[grind =] def findKey (key : β → κ) (k : κ) (l : List β) : Option β := l.find? fun e => key e = k

/-- Replace the element `same` finds, or append the new one; whether there was one. -/
@[grind =] def upsert (same : β → Bool) (v : β) (l : List β) : List β × Bool :=
  if l.any same then (l.map fun e => if same e then v else e, true) else (l ++ [v], false)

theorem findKey_mem {key : β → κ} {k : κ} {l : List β} {e : β} (h : findKey key k l = some e) :
    e ∈ l ∧ key e = k := by
  refine ⟨mem_of_find?_eq_some h, ?_⟩
  simpa using List.find?_some h

theorem findKey_eq_none_iff {key : β → κ} {k : κ} {l : List β} :
    findKey key k l = none ↔ ∀ e ∈ l, key e ≠ k := by
  simp [findKey]

theorem findKey_iff_mem {key : β → κ} {l : List β} (hn : (l.map key).Nodup) {k : κ} {e : β} :
    findKey key k l = some e ↔ e ∈ l ∧ key e = k := by
  refine ⟨findKey_mem, ?_⟩
  rintro ⟨hm, rfl⟩
  induction l with
  | nil => cases hm
  | cons a l ih =>
    rw [map_cons, nodup_cons] at hn
    rcases mem_cons.mp hm with rfl | hm
    · simp [findKey]
    · have hne : key a ≠ key e := fun h => hn.1 (h ▸ mem_map_of_mem hm)
      have hrec := ih hn.2 hm
      simpa [findKey, hne] using hrec

theorem any_eq_isSome_findKey (key : β → κ) (k : κ) (l : List β) :
    (l.any fun e => key e = k) = (findKey key k l).isSome := by
  rw [Bool.eq_iff_iff]
  simp [findKey]

theorem upsert_existed (key : β → κ) (v : β) (l : List β) :
    (upsert (fun e => key e = key v) v l).2 = (findKey key (key v) l).isSome := by
  rw [← any_eq_isSome_findKey, upsert]
  split <;> simp_all

theorem findKey_map_replace (key : β → κ) (v : β) (k : κ) (l : List β) :
    findKey key k (l.map fun e => if key e = key v then v else e) =
      if k = key v then (findKey key k l).map (fun _ => v) else findKey key k l := by
  induction l with
  | nil => simp [findKey]
  | cons a l ih =>
    simp only [findKey, map_cons, List.find?_cons] at ih ⊢
    by_cases ha : key a = key v
    · by_cases hk : k = key v
      · simp [ha, hk]
      · have hk' : key v ≠ k := Ne.symm hk
        simp only [ha, ↓reduceIte, hk, hk', decide_false] at ih ⊢
        exact ih
    · by_cases hk : k = key v
      · subst hk
        simp only [ha, ↓reduceIte, decide_false] at ih ⊢
        exact ih
      · simp only [ha, ↓reduceIte, hk] at ih ⊢
        split
        · rfl
        · exact ih

theorem findKey_upsert (key : β → κ) (v : β) (k : κ) (l : List β) :
    findKey key k (upsert (fun e => key e = key v) v l).1 =
      if k = key v then some v else findKey key k l := by
  unfold upsert
  split
  · rename_i h
    rw [any_eq_isSome_findKey] at h
    simp only [decide_eq_true_eq]
    rw [findKey_map_replace]
    split
    · rename_i hk
      subst hk
      obtain ⟨e, he⟩ := Option.isSome_iff_exists.mp h
      simp [he]
    · rfl
  · rename_i h
    rw [any_eq_isSome_findKey, Bool.not_eq_true, Option.isSome_eq_false_iff, Option.isNone_iff_eq_none] at h
    simp only [findKey] at h ⊢
    rw [List.find?_append]
    split
    · rename_i hk
      subst hk
      simp [h]
    · rename_i hk
      have hk' : key v ≠ k := Ne.symm hk
      simp [hk']

theorem map_key_upsert_nodup {key : β → κ} {v : β} {l : List β} (hn : (l.map key).Nodup) :
    ((upsert (fun e => key e = key v) v l).1.map key).Nodup := by
  unfold upsert
  split
  · have heq : ((l.map fun e => if decide (key e = key v) = true then v else e).map key) = l.map key := by
      rw [map_map]
      apply map_congr_left
      intro e _
      simp only [Function.comp_apply, decide_eq_true_eq]
      split
      · rename_i h
        exact h.symm
      · rfl
    rw [heq]
    exact hn
  · rename_i h
    rw [any_eq_isSome_findKey, Bool.not_eq_true, Option.isSome_eq_false_iff, Option.isNone_iff_eq_none,
      findKey_eq_none_iff] at h
    rw [map_append, map_singleton, nodup_append]
    refine ⟨hn, by simp, ?_⟩
    intro a ha b hb
    obtain ⟨e, he, rfl⟩ := mem_map.mp ha
    rw [mem_singleton.mp hb]
    exact h e he

theorem findKey_filter (key : β → κ) (k k' : κ) (l : List β) :
    findKey key k' (l.filter fun e => key e ≠ k) = if k' = k then none else findKey key k' l := by
  split
  · rename_i hk
    subst hk
    rw [findKey_eq_none_iff]
    intro e he
    simpa using (mem_filter.mp he).2
  · rename_i hk
    induction l with
    | nil => rfl
    | cons a l ih =>
      simp only [findKey, filter_cons, List.find?_cons] at ih ⊢
      by_cases ha : key a = k
      · have hak : key a ≠ k' := fun h => hk (h.symm.trans ha)
        simpa [ha, hak, Ne.symm hk] using ih
      · by_cases hak : key a = k'
        · simp [hak, hk]
        · simpa [ha, hak] using ih

omit [DecidableEq κ] in
theorem map_key_filter_nodup {key : β → κ} {l : List β} (p : β → Bool) (hn : (l.map key).Nodup) :
    ((l.filter p).map key).Nodup :=
  hn.sublist (filter_sublist.map key)

end Keyed

section Nested

variable {α κ β : Type} [DecidableEq α] [DecidableEq κ]

@[grind =] def lookup₂ (m : FMap α (FMap κ β)) (a : α) (k : κ) : Option β := (m.lookup a).bind (·.lookup k)

/-- A map of maps with one value written; whether there was one. -/
@[grind =] def insertAt (m : FMap α (FMap κ β)) (a : α) (k : κ) (v : β) : FMap α (FMap κ β) × Bool :=
  match m.lookup a with
  | none => (m.insert a ((∅ : FMap κ β).insert k v), false)
  | some inner => (m.insert a (inner.insert k v), (inner.lookup k).isSome)

/-- A map of maps with one value, and an inner map left empty, deleted; `none` when there was
no value. -/
@[grind =] def eraseAt (m : FMap α (FMap κ β)) (a : α) (k : κ) : Option (FMap α (FMap κ β)) :=
  match m.lookup a with
  | none => none
  | some inner =>
    if (inner.lookup k).isNone then none
    else
      let inner := inner.erase k
      some (if size inner = 0 then m.erase a else m.insert a inner)

theorem lookup_eq_none_of_size {m : FMap κ β} (h : size m = 0) (k : κ) : m.lookup k = none := by
  have hnil : m.entries = [] := length_eq_zero_iff.mp h
  rw [AList.lookup, hnil]
  rfl

theorem insertAt_existed (m : FMap α (FMap κ β)) (a : α) (k : κ) (v : β) :
    (insertAt m a k v).2 = (lookup₂ m a k).isSome := by
  unfold insertAt lookup₂
  split
  · rename_i h
    simp [h]
  · rename_i h
    simp [h]

theorem lookup_insert_if (m : FMap κ β) (k k' : κ) (v : β) :
    (m.insert k v).lookup k' = if k' = k then some v else m.lookup k' := by
  split
  · rename_i h
    rw [h, AList.lookup_insert]
  · rename_i h
    rw [AList.lookup_insert_ne h]

theorem lookup_erase_if (m : FMap κ β) (k k' : κ) :
    (m.erase k).lookup k' = if k' = k then none else m.lookup k' := by
  split
  · rename_i h
    rw [h, AList.lookup_erase]
  · rename_i h
    rw [AList.lookup_erase_ne h]

theorem lookup₂_insertAt (m : FMap α (FMap κ β)) (a a' : α) (k k' : κ) (v : β) :
    lookup₂ (insertAt m a k v).1 a' k' = if a' = a ∧ k' = k then some v else lookup₂ m a' k' := by
  unfold insertAt lookup₂
  by_cases ha : a' = a
  · subst ha
    cases h : m.lookup a' with
    | none => simp only [lookup_insert_if, ↓reduceIte, Option.bind_some, AList.lookup_empty, true_and,
        Option.bind_none]
    | some inner => simp only [lookup_insert_if, ↓reduceIte, Option.bind_some, true_and]
  · cases m.lookup a with
    | none | some inner => simp only [lookup_insert_if, ha, ↓reduceIte, false_and]

theorem eraseAt_eq_none_iff {m : FMap α (FMap κ β)} {a : α} {k : κ} :
    eraseAt m a k = none ↔ lookup₂ m a k = none := by
  unfold eraseAt lookup₂
  cases h : m.lookup a with
  | none => simp
  | some inner => cases hk : inner.lookup k <;> simp

theorem lookup₂_eraseAt {m m' : FMap α (FMap κ β)} {a : α} {k : κ} (h : eraseAt m a k = some m')
    (a' : α) (k' : κ) : lookup₂ m' a' k' = if a' = a ∧ k' = k then none else lookup₂ m a' k' := by
  unfold eraseAt at h
  cases hl : m.lookup a with
  | none => simp [hl] at h
  | some inner =>
    rw [hl] at h
    simp only at h
    split at h
    · cases h
    · simp only [Option.some.injEq] at h
      subst h
      unfold lookup₂
      by_cases ha : a' = a
      · subst ha
        split
        · rename_i hs
          have hnone := lookup_eq_none_of_size hs k'
          rw [lookup_erase_if] at hnone
          rw [AList.lookup_erase, hl]
          simpa using hnone.symm
        · rw [AList.lookup_insert, hl]
          simpa using lookup_erase_if inner k k'
      · split
        · simp only [lookup_erase_if, ha, ↓reduceIte, false_and]
        · simp only [lookup_insert_if, ha, ↓reduceIte, false_and]

theorem lookup₂_iff_mem {m : FMap α (FMap κ β)} {a : α} {k : κ} {v : β} :
    lookup₂ m a k = some v ↔ ∃ inner : FMap κ β, ⟨a, inner⟩ ∈ m.entries ∧ ⟨k, v⟩ ∈ inner.entries := by
  unfold lookup₂
  constructor
  · intro h
    obtain ⟨inner, ha, hk⟩ := Option.bind_eq_some_iff.mp h
    exact ⟨inner, AList.mem_lookup_iff.mp ha, AList.mem_lookup_iff.mp hk⟩
  · rintro ⟨inner, ha, hk⟩
    have ha' : m.lookup a = some inner := AList.mem_lookup_iff.mpr ha
    have hk' : inner.lookup k = some v := AList.mem_lookup_iff.mpr hk
    rw [ha']
    exact hk'

end Nested

end MonsterMQ.FiniteMaps
