import Mathlib.Data.List.AList

/-!
# Counting in finite maps

A finite map is an association list without repeated keys. `count` is the number of its values with a
property; an insertion or a deletion changes it by the value it stores and the value it drops.
-/

namespace MonsterMQ.FiniteMaps

open List

universe u v

abbrev FMap (α : Type u) (β : Type v) := AList (fun _ : α => β)

/-- The order in which a loop over a map visits its entries. -/
structure MapOrder where
  visit : {α : Type} → List α → List α
  perm : ∀ {α : Type} (l : List α), (visit l).Perm l

theorem MapOrder.mem_visit (o : MapOrder) {α : Type} {l : List α} {a : α} : a ∈ o.visit l ↔ a ∈ l :=
  (o.perm l).mem_iff

@[grind =] def MapOrder.stored : MapOrder := ⟨fun l => l, fun l => List.Perm.refl l⟩

variable {α : Type u} {β : Type v}

/-- The number of values with `p`. -/
@[grind =] def count (p : β → Bool) (s : FMap α β) : ℕ := s.entries.countP (fun e => p e.2)

@[grind =] def size (s : FMap α β) : ℕ := s.entries.length

theorem size_eq_keys_length (s : FMap α β) : size s = s.keys.length := by
  simp [size, AList.keys, List.keys]

theorem size_eq_count (s : FMap α β) : size s = count (fun _ => true) s := by
  simp [size, count]

section Lookup

variable [DecidableEq α]

/-- What the value under a key contributes to a count. -/
def weight (p : β → Bool) : Option β → ℕ
  | none => 0
  | some b => if p b then 1 else 0

@[simp] theorem weight_none (p : β → Bool) : weight p none = 0 := rfl

@[simp] theorem weight_some (p : β → Bool) (b : β) : weight p (some b) = if p b then 1 else 0 := rfl

private theorem countP_kerase (p : β → Bool) (a : α) (l : List (Σ _ : α, β)) :
    (l.kerase a).countP (fun e => p e.2) + weight p (l.dlookup a) = l.countP (fun e => p e.2) := by
  induction l with
  | nil => rfl
  | cons e l ih =>
    obtain ⟨k, b⟩ := e
    by_cases hk : a = k
    · subst hk
      have hkerase : (⟨a, b⟩ :: l : List (Σ _ : α, β)).kerase a = l := kerase_cons_eq rfl
      rw [hkerase, dlookup_cons_eq, countP_cons, weight_some]
    · rw [kerase_cons_ne hk, dlookup_cons_ne l ⟨k, b⟩ hk, countP_cons,
        countP_cons]
      omega

theorem count_erase (p : β → Bool) (s : FMap α β) (a : α) :
    count p (s.erase a) + weight p (s.lookup a) = count p s :=
  countP_kerase p a s.entries

theorem count_insert (p : β → Bool) (s : FMap α β) (a : α) (b : β) :
    count p (s.insert a b) + weight p (s.lookup a) = count p s + weight p (some b) := by
  have h := count_erase p s a
  have hi : count p (s.insert a b) = count p (s.erase a) + weight p (some b) := by
    have he : (s.erase a).entries = s.entries.kerase a := rfl
    simp only [count, AList.entries_insert, countP_cons, weight_some, he]
  omega

theorem lookup_singleton (a : α) (b : β) : (AList.singleton a b : FMap α β).lookup a = some b := by
  rw [← AList.insert_empty, AList.lookup_insert]

theorem count_pos_of_lookup {p : β → Bool} {s : FMap α β} {a : α} {b : β}
    (h : s.lookup a = some b) (hb : p b = true) : 0 < count p s := by
  have := count_erase p s a
  rw [h, weight_some, if_pos hb] at this
  omega

theorem exists_of_count_pos {p : β → Bool} {s : FMap α β} (h : 0 < count p s) :
    ∃ a b, s.lookup a = some b ∧ p b = true := by
  obtain ⟨⟨a, b⟩, he, hp⟩ := countP_pos_iff.mp h
  exact ⟨a, b, mem_dlookup s.nodupKeys he, hp⟩

private theorem entries_perm {s t : FMap α β} (h : ∀ a, s.lookup a = t.lookup a) : s.entries.Perm t.entries :=
  lookup_ext s.nodupKeys t.nodupKeys (fun a b => by
    have := h a
    rw [AList.lookup, AList.lookup] at this
    rw [this])

theorem size_congr {s t : FMap α β} (h : ∀ a, s.lookup a = t.lookup a) : size s = size t :=
  (entries_perm h).length_eq

@[grind =] def eraseAll (ks : List α) (s : FMap α β) : FMap α β := ks.foldl (fun s k => s.erase k) s

theorem lookup_eraseIf (c : Prop) [Decidable c] (s : FMap α β) (k : α) (b : β) (a : α) :
    (if c then s.erase k else s.insert k b).lookup a =
      if a = k then (if c then none else some b) else s.lookup a := by
  by_cases ha : a = k
  · subst ha
    by_cases hc : c
    · simp [hc]
    · simp [hc]
  · by_cases hc : c
    · simp [hc, ha, AList.lookup_erase_ne ha]
    · simp [hc, ha, AList.lookup_insert_ne ha]

theorem lookup_eraseAll (ks : List α) (s : FMap α β) (a : α) :
    (eraseAll ks s).lookup a = if a ∈ ks then none else s.lookup a := by
  induction ks generalizing s with
  | nil => simp [eraseAll]
  | cons k ks ih =>
    have hstep : eraseAll (k :: ks) s = eraseAll ks (s.erase k) := rfl
    rw [hstep, ih]
    by_cases hk : a = k
    · subst hk
      simp
    · simp [hk, AList.lookup_erase_ne hk]

end Lookup

end MonsterMQ.FiniteMaps
