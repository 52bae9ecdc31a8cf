import MonsterMQ.TopicTree
import Mathlib.Data.List.Nodup

/-!
# The entries of a topic tree

Removal from the trie of `internal/topic/tree.go`, one entry (`del`) or all entries of a key
(`RemoveKey`), both with pruning, and what every operation does to the entries: a tree is known
by the triples of levels, key and value that it holds.
-/

namespace MonsterMQ.TopicTree

open LittleEndian PeerLink Auth Topics List

variable {V : Type}

namespace Node

@[grind =] def isEmpty (n : Node V) : Bool := n.children.isEmpty && n.dataset.isEmpty

@[grind =] def eraseChild (n : Node V) (l : Bytes) : Node V :=
  mk (n.children.filter (fun c => c.1 ≠ l)) n.dataset

def eraseData (n : Node V) (key : Bytes) : Node V :=
  mk n.children (n.dataset.filter (fun e => e.1 ≠ key))

/-- The walk of `del` down the levels; whether the node is left empty. -/
@[grind =] def delLevels (key : Bytes) : List Bytes → Node V → Node V × Bool
  | [], n =>
    let n := if key ≠ [] then n.eraseData key else n
    (n, n.isEmpty)
  | l :: ls, n =>
    match n.children.lookup l with
    | none => (n, false)
    | some child =>
      let (child, empty) := delLevels key ls child
      let n := if empty then n.eraseChild l else n.setChild l child
      (n, n.isEmpty)

def removeWalk (key : Bytes) : Node V → List Bytes → Node V × List (List Bytes)
  | mk children dataset, path =>
    let own := if (dataset.lookup key).isSome then [path] else []
    let below := children.attach.map fun c => (c.1.1, removeWalk key c.1.2 (path ++ [c.1.1]))
    (mk ((below.filter fun c => !c.2.1.isEmpty).map fun c => (c.1, c.2.1))
      (dataset.filter fun e => e.1 ≠ key),
      own ++ below.flatMap fun c => c.2.2)
termination_by n => sizeOf n
decreasing_by
  have hmem := sizeOf_lt_of_mem c.2
  have hpair : sizeOf c.1.2 < sizeOf c.1 := by
    obtain ⟨⟨l, m⟩, hm⟩ := c
    simp
  simp only [mk.sizeOf_spec]
  omega

end Node

def Tree.delData (t : Tree V) (topic key : Bytes) : Tree V :=
  match splitTopic topic with
  | [] => t
  | ls => ⟨(t.root.delLevels key ls).1⟩

@[grind =] def Tree.removeKey (t : Tree V) (key : Bytes) : Tree V × List Bytes :=
  let (root, paths) := t.root.removeWalk key []
  (⟨root⟩, paths.map joinLevels)

@[grind =] def Holds : Node V → List Bytes → Bytes → V → Prop
  | n, [], k, v => (k, v) ∈ n.dataset
  | n, l :: ls, k, v => ∃ child, (l, child) ∈ n.children ∧ Holds child ls k v

/-- Keys are unique at every node, and no node but the root is empty. -/
inductive Tidy : Node V → Prop
  | mk {children : List (Bytes × Node V)} {dataset : List (Bytes × V)} :
      (children.map Prod.fst).Nodup → (dataset.map Prod.fst).Nodup →
      (∀ c ∈ children, Tidy c.2) → (∀ c ∈ children, c.2.isEmpty = false) → Tidy (.mk children dataset)

theorem tidy_newNode : Tidy (Node.newNode : Node V) :=
  .mk nodup_nil nodup_nil (by simp) (by simp)

theorem Tidy.children_nodup {n : Node V} (h : Tidy n) : (n.children.map Prod.fst).Nodup := by
  cases h with
  | mk hc _ _ _ => exact hc

theorem Tidy.dataset_nodup {n : Node V} (h : Tidy n) : (n.dataset.map Prod.fst).Nodup := by
  cases h with
  | mk _ hd _ _ => exact hd

theorem Tidy.child {n : Node V} (h : Tidy n) {c : Bytes × Node V} (hc : c ∈ n.children) :
    Tidy c.2 ∧ c.2.isEmpty = false := by
  cases h with
  | mk _ _ htidy hfull => exact ⟨htidy c hc, hfull c hc⟩

theorem Tidy.of {n : Node V} (hc : (n.children.map Prod.fst).Nodup)
    (hd : (n.dataset.map Prod.fst).Nodup) (hall : ∀ c ∈ n.children, Tidy c.2 ∧ c.2.isEmpty = false) :
    Tidy n := by
  cases n
  exact .mk hc hd (fun c hc => (hall c hc).1) (fun c hc => (hall c hc).2)

theorem exists_holds {n : Node V} (h : Tidy n) (hne : n.isEmpty = false) : ∃ ls k v, Holds n ls k v := by
  induction h with
  | @mk children dataset hc hd htidy hfull ih =>
    cases dataset with
    | cons e dataset => exact ⟨[], e.1, e.2, mem_cons_self⟩
    | nil =>
      cases children with
      | nil => cases hne
      | cons c children =>
        have hmem : c ∈ c :: children := mem_cons_self
        obtain ⟨ls, k, v, hv⟩ := ih c hmem (hfull c hmem)
        exact ⟨c.1 :: ls, k, v, c.2, hmem, hv⟩

theorem not_holds_of_isEmpty {n : Node V} (h : n.isEmpty = true) (ls : List Bytes) (k : Bytes) (v : V) :
    ¬ Holds n ls k v := by
  obtain ⟨children, dataset⟩ := n
  simp only [Node.isEmpty, Node.children, Node.dataset, Bool.and_eq_true, List.isEmpty_iff] at h
  obtain ⟨rfl, rfl⟩ := h
  cases ls with
  | nil => simp [Holds, Node.dataset]
  | cons l ls => simp [Holds, Node.children]

section OneNode

theorem lookup_iff_mem {β : Type} {l : List (Bytes × β)} (h : (l.map Prod.fst).Nodup) {k : Bytes} {b : β} :
    l.lookup k = some b ↔ (k, b) ∈ l := by
  induction l with
  | nil => simp
  | cons e l ih =>
    rw [map_cons, nodup_cons] at h
    by_cases hk : k = e.1
    · subst hk
      rw [lookup_cons, beq_self_eq_true]
      constructor
      · intro hb
        rw [← Option.some.inj hb]
        exact mem_cons_self
      · intro hmem
        rcases mem_cons.mp hmem with heq | hmem
        · rw [← heq]
        · exact absurd (mem_map_of_mem hmem) h.1
    · rw [lookup_cons, beq_eq_false_iff_ne.mpr hk, ih h.2, mem_cons]
      constructor
      · exact .inr
      · rintro (heq | hmem)
        · exact absurd (congrArg Prod.fst heq) hk
        · exact hmem

private theorem lookup_none_iff {β : Type} {l : List (Bytes × β)} {k : Bytes} :
    l.lookup k = none ↔ k ∉ l.map Prod.fst := by
  induction l with
  | nil => simp
  | cons e l ih =>
    by_cases hk : k = e.1
    · subst hk
      simp
    · rw [lookup_cons, beq_eq_false_iff_ne.mpr hk, ih]
      simp [hk]

theorem holds_child {n : Node V} (h : Tidy n) (l : Bytes) (ls : List Bytes) (k : Bytes) (v : V) :
    Holds ((n.children.lookup l).getD .newNode) ls k v ↔ Holds n (l :: ls) k v := by
  cases hl : n.children.lookup l with
  | none =>
    refine iff_of_false (not_holds_of_isEmpty rfl ls k v) ?_
    rintro ⟨child, hmem, -⟩
    exact (lookup_none_iff).mp hl (mem_map_of_mem hmem)
  | some child =>
    constructor
    · exact fun hv => ⟨child, (lookup_iff_mem h.children_nodup).mp hl, hv⟩
    · rintro ⟨child', hmem, hv⟩
      have hsame := hl.symm.trans ((lookup_iff_mem h.children_nodup).mpr hmem)
      rw [Option.getD_some, Option.some.inj hsame]
      exact hv

variable {n : Node V} {l : Bytes} {child : Node V}

theorem mem_setChild {c : Bytes × Node V} :
    c ∈ (n.setChild l child).children ↔ (c ∈ n.children ∧ c.1 ≠ l) ∨ c = (l, child) := by
  simp [Node.setChild, Node.children]

theorem mem_eraseChild {c : Bytes × Node V} : c ∈ (n.eraseChild l).children ↔ c ∈ n.children ∧ c.1 ≠ l := by
  simp [Node.eraseChild, Node.children]

theorem holds_setChild (l' : Bytes) (ls : List Bytes) (k : Bytes) (v : V) :
    Holds (n.setChild l child) (l' :: ls) k v ↔
      (l' = l ∧ Holds child ls k v) ∨ (l' ≠ l ∧ Holds n (l' :: ls) k v) := by
  constructor
  · rintro ⟨c, hmem, hv⟩
    rcases (mem_setChild).mp hmem with ⟨hc, hne⟩ | heq
    · exact .inr ⟨hne, c, hc, hv⟩
    · obtain ⟨rfl, rfl⟩ := Prod.mk.inj heq
      exact .inl ⟨rfl, hv⟩
  · rintro (⟨rfl, hv⟩ | ⟨hne, c, hc, hv⟩)
    · exact ⟨child, (mem_setChild).mpr (.inr rfl), hv⟩
    · exact ⟨c, (mem_setChild).mpr (.inl ⟨hc, hne⟩), hv⟩

theorem holds_eraseChild (l' : Bytes) (ls : List Bytes) (k : Bytes) (v : V) :
    Holds (n.eraseChild l) (l' :: ls) k v ↔ l' ≠ l ∧ Holds n (l' :: ls) k v := by
  constructor
  · rintro ⟨c, hmem, hv⟩
    obtain ⟨hc, hne⟩ := (mem_eraseChild).mp hmem
    exact ⟨hne, c, hc, hv⟩
  · rintro ⟨hne, c, hc, hv⟩
    exact ⟨c, (mem_eraseChild).mpr ⟨hc, hne⟩, hv⟩

theorem nodup_filter_fst {β : Type} {es : List (Bytes × β)} (h : (es.map Prod.fst).Nodup)
    (p : Bytes × β → Bool) : ((es.filter p).map Prod.fst).Nodup :=
  h.sublist (filter_sublist.map Prod.fst)

theorem nodup_replace {β : Type} {es : List (Bytes × β)} (h : (es.map Prod.fst).Nodup) (k : Bytes) (b : β) :
    ((es.filter (fun e => e.1 ≠ k) ++ [(k, b)]).map Prod.fst).Nodup := by
  rw [map_append, nodup_append]
  refine ⟨nodup_filter_fst h _, by simp, ?_⟩
  intro a ha b hb
  rw [map_singleton, mem_singleton] at hb
  obtain ⟨e, he, rfl⟩ := mem_map.mp ha
  have hne := (mem_filter.mp he).2
  rw [hb]
  simpa using hne

theorem tidy_setChild (h : Tidy n) (hchild : Tidy child) (hfull : child.isEmpty = false) :
    Tidy (n.setChild l child) := by
  apply Tidy.of
  · exact nodup_replace h.children_nodup l child
  · exact h.dataset_nodup
  · intro c hc
    rcases (mem_setChild).mp hc with ⟨hc, -⟩ | rfl
    · exact h.child hc
    · exact ⟨hchild, hfull⟩

private theorem tidy_eraseChild (h : Tidy n) : Tidy (n.eraseChild l) := by
  apply Tidy.of
  · exact nodup_filter_fst h.children_nodup _
  · exact h.dataset_nodup
  · exact fun c hc => h.child ((mem_eraseChild).mp hc).1

end OneNode

section OneEntry

variable {key : Bytes}

private theorem holds_setData {n : Node V} {key : Bytes} {v : V} (ls : List Bytes) (k : Bytes) (w : V) :
    Holds (n.setData key v) ls k w ↔
      (ls = [] ∧ k = key ∧ w = v) ∨ (¬ (ls = [] ∧ k = key) ∧ Holds n ls k w) := by
  cases ls with
  | nil => simp [Holds, Node.setData, Node.dataset, or_comm, and_comm]
  | cons l ls => simp [Holds, Node.setData, Node.children]

private theorem holds_eraseData {n : Node V} {key : Bytes} (ls : List Bytes) (k : Bytes) (w : V) :
    Holds (n.eraseData key) ls k w ↔ Holds n ls k w ∧ ¬ (ls = [] ∧ k = key) := by
  cases ls with
  | nil => simp [Holds, Node.eraseData, Node.dataset]
  | cons l ls => simp [Holds, Node.eraseData, Node.children]

private theorem isEmpty_setChild (n : Node V) (l : Bytes) (child : Node V) :
    (n.setChild l child).isEmpty = false := by
  simp [Node.isEmpty, Node.setChild, Node.children]

theorem tidy_child {n : Node V} (h : Tidy n) (l : Bytes) : Tidy ((n.children.lookup l).getD .newNode) := by
  cases hl : n.children.lookup l with
  | none => exact tidy_newNode
  | some child => exact (h.child ((lookup_iff_mem h.children_nodup).mp hl)).1

theorem tidy_addLevels (hkey : key ≠ []) (v : V) (ls : List Bytes) : ∀ {n : Node V}, Tidy n →
    Tidy (n.addLevels key (some v) ls) ∧ (n.addLevels key (some v) ls).isEmpty = false := by
  induction ls with
  | nil =>
    intro n h
    rw [Node.addLevels, if_pos hkey]
    refine ⟨Tidy.of h.children_nodup (nodup_replace h.dataset_nodup key v) (fun c hc => h.child hc), ?_⟩
    simp [Node.isEmpty, Node.setData, Node.dataset]
  | cons l ls ih =>
    intro n h
    obtain ⟨htidy, hfull⟩ := ih (tidy_child h l)
    exact ⟨tidy_setChild h htidy hfull, isEmpty_setChild n l _⟩

theorem holds_addLevels (hkey : key ≠ []) (v : V) (ls : List Bytes) : ∀ {n : Node V}, Tidy n →
    ∀ ls' k w, Holds (n.addLevels key (some v) ls) ls' k w ↔
      (ls' = ls ∧ k = key ∧ w = v) ∨ (¬ (ls' = ls ∧ k = key) ∧ Holds n ls' k w) := by
  induction ls with
  | nil =>
    intro n h ls' k w
    rw [Node.addLevels, if_pos hkey]
    exact holds_setData ls' k w
  | cons l ls ih =>
    intro n h ls' k w
    cases ls' with
    | nil => simp [Holds, Node.addLevels, Node.setChild, Node.dataset]
    | cons l' ls' =>
      rw [Node.addLevels, holds_setChild, ih (tidy_child h l), holds_child h]
      by_cases hl : l' = l
      · subst hl
        simp
      · simp [hl]

theorem tidy_delLevels (hkey : key ≠ []) (ls : List Bytes) : ∀ {n : Node V}, Tidy n →
    Tidy (n.delLevels key ls).1 ∧ (n.isEmpty = false → (n.delLevels key ls).2 = (n.delLevels key ls).1.isEmpty) := by
  induction ls with
  | nil =>
    intro n h
    rw [Node.delLevels, if_pos hkey]
    exact ⟨Tidy.of h.children_nodup (nodup_filter_fst h.dataset_nodup _) (fun c hc => h.child hc), fun _ => rfl⟩
  | cons l ls ih =>
    intro n h
    rw [Node.delLevels]
    split
    · exact ⟨h, fun hne => hne.symm⟩
    · rename_i child hl
      obtain ⟨hchild, hfull⟩ := h.child ((lookup_iff_mem h.children_nodup).mp hl)
      obtain ⟨htidy, hempty⟩ := ih hchild
      refine ⟨?_, fun _ => rfl⟩
      dsimp only
      split
      · exact tidy_eraseChild h
      · rename_i hne
        refine tidy_setChild h htidy ?_
        rw [← hempty hfull]
        exact Bool.eq_false_iff.mpr hne

theorem holds_delLevels (hkey : key ≠ []) (ls : List Bytes) : ∀ {n : Node V}, Tidy n →
    ∀ ls' k w, Holds (n.delLevels key ls).1 ls' k w ↔ Holds n ls' k w ∧ ¬ (ls' = ls ∧ k = key) := by
  induction ls with
  | nil =>
    intro n h ls' k w
    rw [Node.delLevels, if_pos hkey]
    exact holds_eraseData ls' k w
  | cons l ls ih =>
    intro n h ls' k w
    rw [Node.delLevels]
    have hchild := holds_child h l
    split
    · rename_i hl
      rw [hl] at hchild
      refine (and_iff_left_of_imp ?_).symm
      rintro hv ⟨rfl, -⟩
      exact not_holds_of_isEmpty rfl _ _ _ ((hchild ls k w).mpr hv)
    · rename_i child hl
      rw [hl] at hchild
      obtain ⟨hchildTidy, hfull⟩ := h.child ((lookup_iff_mem h.children_nodup).mp hl)
      have hrest := ih hchildTidy
      have hempty := (tidy_delLevels hkey ls hchildTidy).2 hfull
      dsimp only
      cases ls' with
      | nil =>
        split <;> simp [Holds, Node.eraseChild, Node.setChild, Node.dataset]
      | cons l' ls' =>
        by_cases hl' : l' = l
        · subst hl'
          have hsame : (l' :: ls' = l' :: ls ∧ k = key) ↔ (ls' = ls ∧ k = key) := by simp
          rw [hsame, ← hchild ls' k w, Option.getD_some, ← hrest]
          split
          · rename_i hnone
            rw [hempty] at hnone
            rw [holds_eraseChild]
            exact iff_of_false (fun hv => hv.1 rfl) (not_holds_of_isEmpty hnone ls' k w)
          · rw [holds_setChild]
            simp
        · split
          · rw [holds_eraseChild]
            simp [hl']
          · rw [holds_setChild]
            simp [hl']

end OneEntry

section RemoveKey

@[grind =] def walkedChildren (key : Bytes) (children : List (Bytes × Node V)) (path : List Bytes) :
    List (Bytes × Node V × List (List Bytes)) :=
  children.map fun c => (c.1, c.2.removeWalk key (path ++ [c.1]))

theorem removeWalk_eq (key : Bytes) (children : List (Bytes × Node V)) (dataset : List (Bytes × V))
    (path : List Bytes) : (Node.mk children dataset).removeWalk key path =
      (.mk (((walkedChildren key children path).filter fun c => !c.2.1.isEmpty).map fun c => (c.1, c.2.1))
        (dataset.filter fun e => e.1 ≠ key),
        (if (dataset.lookup key).isSome then [path] else []) ++
          (walkedChildren key children path).flatMap fun c => c.2.2) := by
  have hwalk : (children.attach.map fun c => (c.1.1, c.1.2.removeWalk key (path ++ [c.1.1]))) =
      walkedChildren key children path :=
    attach_map_val (f := fun c : Bytes × Node V => (c.1, c.2.removeWalk key (path ++ [c.1])))
  rw [Node.removeWalk, hwalk]

theorem mem_walkedChildren {key : Bytes} {children : List (Bytes × Node V)} {path : List Bytes}
    {c : Bytes × Node V × List (List Bytes)} : c ∈ walkedChildren key children path ↔
      ∃ child, (c.1, child) ∈ children ∧ c.2 = child.removeWalk key (path ++ [c.1]) := by
  rw [walkedChildren, mem_map]
  constructor
  · rintro ⟨⟨l, child⟩, hmem, rfl⟩
    exact ⟨child, hmem, rfl⟩
  · rintro ⟨child, hmem, heq⟩
    exact ⟨(c.1, child), hmem, by rw [← heq]⟩

theorem tidy_removeWalk (key : Bytes) {n : Node V} (h : Tidy n) : ∀ path, Tidy (n.removeWalk key path).1 := by
  induction h with
  | @mk children dataset hc hd htidy hfull ih =>
    intro path
    rw [removeWalk_eq]
    apply Tidy.of
    · have hkeys : (walkedChildren key children path).map Prod.fst = children.map Prod.fst := by
        simp [walkedChildren]
      have hsub := (filter_sublist (p := fun c : Bytes × Node V × List (List Bytes) => !c.2.1.isEmpty)
        (l := walkedChildren key children path)).map Prod.fst
      rw [hkeys] at hsub
      simpa [Node.children, Function.comp_def] using hc.sublist hsub
    · exact nodup_filter_fst hd _
    · intro c hcm
      obtain ⟨w, hw, rfl⟩ := mem_map.mp hcm
      obtain ⟨hw, hne⟩ := mem_filter.mp hw
      obtain ⟨child, hmem, heq⟩ := (mem_walkedChildren).mp hw
      dsimp only
      refine ⟨?_, by simpa using hne⟩
      rw [heq]
      exact ih _ hmem _

theorem holds_removeWalk (key : Bytes) {n : Node V} (h : Tidy n) :
    ∀ path ls k v, Holds (n.removeWalk key path).1 ls k v ↔ Holds n ls k v ∧ k ≠ key := by
  induction h with
  | @mk children dataset hc hd htidy hfull ih =>
    intro path ls k v
    rw [removeWalk_eq]
    cases ls with
    | nil => simp [Holds, Node.dataset]
    | cons l ls =>
      constructor
      · rintro ⟨child', hmem, hv⟩
        obtain ⟨w, hw, heq⟩ := mem_map.mp hmem
        obtain ⟨child, hchild, hwalk⟩ := (mem_walkedChildren).mp (mem_filter.mp hw).1
        obtain ⟨rfl, rfl⟩ := Prod.mk.inj heq
        rw [hwalk, ih _ hchild] at hv
        exact ⟨⟨child, hchild, hv.1⟩, hv.2⟩
      · rintro ⟨⟨child, hchild, hv⟩, hk⟩
        have hkept := (ih _ hchild (path ++ [l]) ls k v).mpr ⟨hv, hk⟩
        refine ⟨(child.removeWalk key (path ++ [l])).1, ?_, hkept⟩
        refine mem_map.mpr ⟨(l, child.removeWalk key (path ++ [l])), mem_filter.mpr ⟨?_, ?_⟩, rfl⟩
        · exact (mem_walkedChildren).mpr ⟨child, hchild, rfl⟩
        · rw [Bool.not_eq_true', ← Bool.not_eq_true]
          exact fun hempty => not_holds_of_isEmpty hempty ls k v hkept

theorem mem_removeWalk_paths (key : Bytes) {n : Node V} (h : Tidy n) :
    ∀ path p, p ∈ (n.removeWalk key path).2 ↔ ∃ ls, p = path ++ ls ∧ ∃ v, Holds n ls key v := by
  induction h with
  | @mk children dataset hc hd htidy hfull ih =>
    intro path p
    rw [removeWalk_eq, mem_append, mem_flatMap]
    constructor
    · rintro (hp | ⟨w, hw, hp⟩)
      · split at hp
        · rename_i hsome
          obtain ⟨v, hv⟩ := Option.isSome_iff_exists.mp hsome
          exact ⟨[], by simpa using hp, v, (lookup_iff_mem hd).mp hv⟩
        · cases hp
      · obtain ⟨child, hchild, hwalk⟩ := (mem_walkedChildren).mp hw
        rw [hwalk, ih _ hchild] at hp
        obtain ⟨ls, rfl, v, hv⟩ := hp
        exact ⟨w.1 :: ls, by simp, v, child, hchild, hv⟩
    · rintro ⟨ls, rfl, v, hv⟩
      cases ls with
      | nil =>
        left
        have hlookup : dataset.lookup key = some v := (lookup_iff_mem hd).mpr hv
        simp [hlookup]
      | cons l ls =>
        obtain ⟨child, hchild, hv⟩ := hv
        right
        refine ⟨(l, child.removeWalk key (path ++ [l])), (mem_walkedChildren).mpr ⟨child, hchild, rfl⟩, ?_⟩
        exact (ih _ hchild _ _).mpr ⟨ls, by simp, v, hv⟩

theorem nodup_removeWalk_paths (key : Bytes) {n : Node V} (h : Tidy n) :
    ∀ path, (n.removeWalk key path).2.Nodup := by
  induction h with
  | @mk children dataset hc hd htidy hfull ih =>
    intro path
    have hpaths : ∀ w ∈ walkedChildren key children path, ∀ p ∈ w.2.2, ∃ ls, p = path ++ w.1 :: ls := by
      intro w hw p hp
      obtain ⟨child, hchild, hwalk⟩ := (mem_walkedChildren).mp hw
      rw [hwalk, mem_removeWalk_paths key (htidy _ hchild)] at hp
      obtain ⟨ls, rfl, -⟩ := hp
      exact ⟨ls, by simp⟩
    rw [removeWalk_eq, nodup_append]
    refine ⟨?_, ?_, ?_⟩
    · split <;> simp
    · rw [nodup_flatMap]
      constructor
      · intro w hw
        obtain ⟨child, hchild, hwalk⟩ := (mem_walkedChildren).mp hw
        rw [hwalk]
        exact ih _ hchild _
      · have hkeys : ((walkedChildren key children path).map Prod.fst).Nodup := by
          simpa [walkedChildren, Function.comp_def] using hc
        refine (pairwise_map.mp hkeys).imp_of_mem ?_
        intro a b ha hb hne p hpa hpb
        obtain ⟨ls, rfl⟩ := hpaths a ha p hpa
        obtain ⟨ls', heq⟩ := hpaths b hb _ hpb
        exact hne (List.cons.inj (append_cancel_left heq)).1
    · intro p hp q hq heq
      obtain ⟨w, hw, hq⟩ := mem_flatMap.mp hq
      obtain ⟨ls, rfl⟩ := hpaths w hw q hq
      split at hp
      · rw [mem_singleton.mp hp] at heq
        simp at heq
      · cases hp

end RemoveKey

section Find

variable {dollar first filterDollar : Bool} {k : Bytes} {v : V}

private theorem mem_hashData {n : Node V} (h : Tidy n) : (k, v) ∈ n.hashData ↔ Holds n [hashLevel] k v := by
  rw [← holds_child h, Node.hashData]
  cases n.children.lookup hashLevel <;> exact Iff.rfl

theorem mem_findChild {t f : Bytes} {ts : List Bytes} {child : Node V}
    {below : Node V → Bool → List (Bytes × V)} (hlast : ∀ fs, Holds child fs k v → HashLast (f :: fs))
    (hbelow : ∀ d, (k, v) ∈ below child d ↔ ∃ fs, Holds child fs k v ∧ Covers fs ts) :
    (k, v) ∈ Node.findChild dollar t first filterDollar below (f, child) ↔
      ∃ fs, Holds child fs k v ∧ Covers (f :: fs) (t :: ts) ∧
        (first = true → dollar = true → f ≠ plusLevel ∧ f ≠ hashLevel) := by
  have hwild : ∀ w : Bytes, w = plusLevel ∨ w = hashLevel →
      ((first && dollar && !(if first then w.head? == some dollarByte else filterDollar)) = true ↔
        first = true ∧ dollar = true) := by
    rintro w (rfl | rfl) <;> cases first <;> cases dollar <;> simp [plusLevel, hashLevel, dollarByte]
  rw [Node.findChild]
  dsimp only
  by_cases hh : f = hashLevel
  · subst hh
    rw [if_pos rfl]
    by_cases hd : first = true ∧ dollar = true
    · rw [if_pos ((hwild _ (.inr rfl)).mpr hd)]
      refine iff_of_false not_mem_nil ?_
      rintro ⟨fs, -, -, hfs⟩
      exact (hfs hd.1 hd.2).2 rfl
    · rw [if_neg (fun h => hd ((hwild _ (.inr rfl)).mp h))]
      constructor
      · exact fun hv => ⟨[], hv, .rest _, fun h h' => absurd ⟨h, h'⟩ hd⟩
      · rintro ⟨fs, hv, -, -⟩
        have hnil := (hlast fs hv).1 rfl
        subst hnil
        exact hv
  rw [if_neg hh]
  have hcovers : ∀ fs, Covers (f :: fs) (t :: ts) ↔ (f = plusLevel ∨ f = t) ∧ Covers fs ts :=
    fun fs => covers_cons_iff hh
  simp only [hcovers]
  by_cases hp : f = plusLevel
  · rw [if_pos hp]
    by_cases hd : first = true ∧ dollar = true
    · rw [if_pos ((hwild _ (.inl hp)).mpr hd)]
      refine iff_of_false not_mem_nil ?_
      rintro ⟨fs, -, -, hfs⟩
      exact (hfs hd.1 hd.2).1 hp
    · rw [if_neg (fun h => hd ((hwild _ (.inl hp)).mp h)), hbelow]
      apply exists_congr
      intro fs
      apply and_congr_right
      intro _
      exact ⟨fun hc => ⟨⟨.inl hp, hc⟩, fun h h' => absurd ⟨h, h'⟩ hd⟩, fun hc => hc.1.2⟩
  · rw [if_neg hp]
    by_cases heq : f = t
    · rw [if_pos heq, hbelow]
      apply exists_congr
      intro fs
      apply and_congr_right
      intro _
      exact ⟨fun hc => ⟨⟨.inr heq, hc⟩, fun _ _ => ⟨hp, hh⟩⟩, fun hc => hc.1.2⟩
    · rw [if_neg heq]
      refine iff_of_false not_mem_nil ?_
      rintro ⟨fs, -, ⟨hft, -⟩, -⟩
      exact hft.elim hp heq

theorem mem_findChildren {n : Node V} {t : Bytes} {ts : List Bytes} {below : Node V → Bool → List (Bytes × V)}
    (hlast : ∀ fs, Holds n fs k v → HashLast fs)
    (hbelow : ∀ c ∈ n.children, ∀ d, (k, v) ∈ below c.2 d ↔ ∃ fs, Holds c.2 fs k v ∧ Covers fs ts) :
    (k, v) ∈ n.children.flatMap (Node.findChild dollar t first filterDollar below) ↔
      ∃ f fs, Holds n (f :: fs) k v ∧ Covers (f :: fs) (t :: ts) ∧
        (first = true → dollar = true → f ≠ plusLevel ∧ f ≠ hashLevel) := by
  rw [mem_flatMap]
  constructor
  · rintro ⟨⟨f, child⟩, hmem, hv⟩
    rw [mem_findChild (fun fs hfs => hlast _ ⟨child, hmem, hfs⟩) (hbelow _ hmem)] at hv
    obtain ⟨fs, hfs, hrest⟩ := hv
    exact ⟨f, fs, ⟨child, hmem, hfs⟩, hrest⟩
  · rintro ⟨f, fs, ⟨child, hmem, hfs⟩, hrest⟩
    refine ⟨(f, child), hmem, ?_⟩
    rw [mem_findChild (fun fs hfs => hlast _ ⟨child, hmem, hfs⟩) (hbelow _ hmem)]
    exact ⟨fs, hfs, hrest⟩

theorem mem_findWalk (ts : List Bytes) : ∀ {n : Node V} {t : Bytes} {first filterDollar : Bool}, Tidy n →
    (∀ fs, Holds n fs k v → HashLast fs) → ((k, v) ∈ n.findWalk dollar ts t first filterDollar ↔
      ∃ f fs, Holds n (f :: fs) k v ∧ Covers (f :: fs) (t :: ts) ∧
        (first = true → dollar = true → f ≠ plusLevel ∧ f ≠ hashLevel)) := by
  induction ts with
  | nil =>
    intro n t first filterDollar h hlast
    rw [Node.findWalk]
    apply mem_findChildren hlast
    intro c hc _
    rw [mem_append, mem_hashData (h.child hc).1]
    constructor
    · rintro (hv | hv)
      · exact ⟨[], hv, .done⟩
      · exact ⟨[hashLevel], hv, .rest []⟩
    · rintro ⟨fs, hv, hcovers⟩
      rcases (covers_nil_iff).mp hcovers with rfl | rfl
      · exact .inl hv
      · exact .inr hv
  | cons r rs ih =>
    intro n t first filterDollar h hlast
    rw [Node.findWalk]
    apply mem_findChildren hlast
    intro c hc d
    rw [ih (h.child hc).1 (fun fs hfs => (hlast (c.1 :: fs) ⟨c.2, hc, hfs⟩).2)]
    constructor
    · rintro ⟨f, fs, hv, hcovers, -⟩
      exact ⟨f :: fs, hv, hcovers⟩
    · rintro ⟨fs, hv, hcovers⟩
      cases fs with
      | nil => cases hcovers
      | cons f fs => exact ⟨f, fs, hv, hcovers, fun hf => absurd hf Bool.false_ne_true⟩

/-- `FindData` gives the entries of the filters that match the topic. -/
theorem mem_findData {t : Tree V} (h : Tidy t.root) (hlast : ∀ fs, Holds t.root fs k v → HashLast fs)
    (hroot : t.root.dataset = []) {topic : Bytes} (ht : topic ≠ []) : (k, v) ∈ t.findData topic ↔
      ∃ fs, Holds t.root fs k v ∧ Covers fs (levels topic) ∧
        (DollarFirst (levels topic) → fs.head? ≠ some plusLevel ∧ fs.head? ≠ some hashLevel) := by
  rw [Tree.findData, splitTopic, if_neg ht]
  rcases hts : levels topic with _ | ⟨t, ts⟩
  · exact absurd hts (levels_ne_nil topic)
  dsimp only
  rw [mem_findWalk ts h hlast]
  simp only [forall_const, decide_eq_true_eq, DollarFirst, headD_cons]
  constructor
  · rintro ⟨f, fs, hv, hcovers, hwild⟩
    exact ⟨f :: fs, hv, hcovers, by simpa using hwild⟩
  · rintro ⟨fs, hv, hcovers, hwild⟩
    cases fs with
    | nil =>
      rw [Holds, hroot] at hv
      cases hv
    | cons f fs => exact ⟨f, fs, hv, hcovers, by simpa using hwild⟩

end Find

theorem findData_iff {filter topic : Bytes} (hf : ValidFilter filter) (ht : ValidTopic topic) {key : Bytes}
    {value : V} (hkey : key ≠ []) :
    ((newTree.addData filter key value).findData topic ≠ [] ↔ Matches filter topic) := by
  have hroot : (newTree.addData filter key value).root =
      Node.newNode.addLevels key (some value) (levels filter) := by
    rw [Tree.addData, splitTopic, if_neg hf.name.nonempty]
    split
    · next hnil => exact absurd hnil (levels_ne_nil filter)
    · rfl
  have hholds : ∀ fs k v, Holds (newTree.addData filter key value).root fs k v ↔
      fs = levels filter ∧ k = key ∧ v = value := by
    intro fs k v
    rw [hroot, holds_addLevels hkey value _ tidy_newNode]
    simp [not_holds_of_isEmpty (show (Node.newNode : Node V).isEmpty = true from rfl)]
  have htidy : Tidy (newTree.addData filter key value).root := hroot ▸ (tidy_addLevels hkey value _ tidy_newNode).1
  have hdata : (newTree.addData filter key value).root.dataset = [] := by
    refine eq_nil_iff_forall_not_mem.mpr fun e he => ?_
    exact levels_ne_nil filter ((hholds [] e.1 e.2).mp he).1.symm
  have hfound : ∀ e, e ∈ (newTree.addData filter key value).findData topic ↔
      e = (key, value) ∧ Matches filter topic := by
    intro e
    rw [mem_findData htidy (fun fs hfs => ((hholds _ _ _).mp hfs).1 ▸ hf.whole.hashLast) hdata
      ht.name.nonempty, matches_iff_levels]
    constructor
    · rintro ⟨fs, hfs, hmatch⟩
      obtain ⟨rfl, hk, hv⟩ := (hholds _ _ _).mp hfs
      exact ⟨Prod.ext hk hv, hmatch⟩
    · rintro ⟨rfl, hmatch⟩
      exact ⟨_, (hholds _ _ _).mpr ⟨rfl, rfl, rfl⟩, hmatch⟩
  constructor
  · intro hne
    obtain ⟨e, he⟩ := exists_mem_of_ne_nil _ hne
    exact ((hfound e).mp he).2
  · exact fun hm => ne_nil_of_mem ((hfound _).mpr ⟨rfl, hm⟩)

end MonsterMQ.TopicTree
