import Mathlib.Data.List.Induction
import Mathlib.Data.List.Nodup
import MonsterMQ.VirtualTreeValidity

/-!
# Routes of valid trees

The compiled tree holds the bindings of its nodes under their paths, a topic has one owner,
and the winner of a topic is an exact binding at the topic or a mount above it.
-/

namespace MonsterMQ.Virtual

open LittleEndian PeerLink Auth Topics List

def Bound (paths : List (Bytes × Bytes)) (ns : List Node) (exact : Bool) (p : Bytes) (rt : Route) : Prop :=
  ∃ n ∈ ns, ∃ b, paths.lookup n.id = some p ∧ n.binding = some b ∧
    (b.kind = .exact ↔ exact = true) ∧ rt = ⟨n.id, p, b⟩

structure Routes (t : Tree) (ns : List Node) (c : Compiled) : Prop where
  tree : c.tree = t
  exactKeys : DistinctKeys c.exact
  mountKeys : DistinctKeys c.mounts
  exact : ∀ p rt, c.exact.lookup p = some rt ↔ Bound t.paths ns true p rt
  mounts : ∀ p rt, c.mounts.lookup p = some rt ↔ Bound t.paths ns false p rt

def DistinctPaths (paths : List (Bytes × Bytes)) (ns : List Node) : Prop :=
  ∀ n ∈ ns, ∀ n' ∈ ns, ∀ p, paths.lookup n.id = some p → paths.lookup n'.id = some p → n = n'

variable {paths : List (Bytes × Bytes)} {ns : List Node} {n : Node} {exact : Bool} {p : Bytes} {rt : Route}

theorem bound_append_iff : Bound paths (ns ++ [n]) exact p rt ↔
      Bound paths ns exact p rt ∨ Bound paths [n] exact p rt := by
  constructor
  · rintro ⟨m, hm, h⟩
    rcases mem_append.mp hm with hm | hm
    · exact .inl ⟨m, hm, h⟩
    · exact .inr ⟨m, hm, h⟩
  · rintro (⟨m, hm, h⟩ | ⟨m, hm, h⟩)
    · exact ⟨m, mem_append_left _ hm, h⟩
    · exact ⟨m, mem_append_right _ hm, h⟩

theorem lookup_setKey_bound {q : Bytes} {b : Binding} {m : List (Bytes × Route)}
    (hd : DistinctPaths paths (ns ++ [n])) (hp : paths.lookup n.id = some p)
    (hb : n.binding = some b) (hk : b.kind = .exact ↔ exact = true)
    (hm : ∀ q rt, m.lookup q = some rt ↔ Bound paths ns exact q rt) :
    (setKey p ⟨n.id, p, b⟩ m).lookup q = some rt ↔ Bound paths (ns ++ [n]) exact q rt := by
  rw [lookup_setKey, bound_append_iff]
  by_cases hq : q = p
  · rw [if_pos hq, Option.some.injEq]
    constructor
    · intro heq
      exact .inr ⟨n, mem_singleton_self n, b, by rw [hq, hp], hb, hk, by rw [hq, heq]⟩
    · rintro (⟨n', hn', b', hp', hb', -, rfl⟩ | ⟨n', hn', b', -, hb', -, rfl⟩)
      · rw [hq] at hp'
        have heq := hd n' (mem_append_left _ hn') n
          (mem_append_right _ (mem_singleton_self n)) p hp' hp
        subst heq
        rw [hq, Option.some.inj (hb.symm.trans hb')]
      · rw [mem_singleton.mp hn'] at hb' ⊢
        rw [hq, Option.some.inj (hb.symm.trans hb')]
  · rw [if_neg hq, hm]
    refine (or_iff_left ?_).symm
    rintro ⟨n', hn', b', hp', -⟩
    rw [mem_singleton.mp hn', hp, Option.some.injEq] at hp'
    exact hq hp'.symm

theorem bound_singleton_false
    {b : Binding} (hb : n.binding = some b) (hk : ¬ (b.kind = .exact ↔ exact = true)) :
    ¬ Bound paths [n] exact p rt := by
  rintro ⟨n', hn', b', -, hb', hk', -⟩
  rw [mem_singleton.mp hn', hb, Option.some.injEq] at hb'
  rw [← hb'] at hk'
  exact hk hk'

variable {t : Tree}

theorem addNode_routes {c : Compiled} (hd : DistinctPaths t.paths (ns ++ [n])) (h : Routes t ns c) :
    Routes t (ns ++ [n]) (c.addNode t.paths n) := by
  have hsame : (∀ exact p rt, ¬ Bound t.paths [n] exact p rt) → Routes t (ns ++ [n]) c := by
    intro hno
    refine ⟨h.tree, h.exactKeys, h.mountKeys, ?_, ?_⟩
    · intro p rt
      rw [h.exact, bound_append_iff, or_iff_left (hno _ _ _)]
    · intro p rt
      rw [h.mounts, bound_append_iff, or_iff_left (hno _ _ _)]
  rw [Compiled.addNode]
  cases hp : t.paths.lookup n.id with
  | none =>
    apply hsame
    rintro exact p rt ⟨n', hn', b, hp', -⟩
    rw [mem_singleton.mp hn', hp] at hp'
    cases hp'
  | some p =>
    cases hb : n.binding with
    | none =>
      apply hsame
      rintro exact q rt ⟨n', hn', b, -, hb', -⟩
      rw [mem_singleton.mp hn', hb] at hb'
      cases hb'
    | some b =>
      dsimp only
      by_cases hk : b.kind = .exact
      · rw [if_pos hk]
        refine ⟨h.tree, distinctKeys_setKey h.exactKeys, h.mountKeys, ?_, ?_⟩
        · intro q rt
          exact lookup_setKey_bound hd hp hb (iff_of_true hk rfl) h.exact
        · intro q rt
          rw [h.mounts, bound_append_iff, or_iff_left (bound_singleton_false hb (by simp [hk]))]
      · rw [if_neg hk]
        refine ⟨h.tree, h.exactKeys, distinctKeys_setKey h.mountKeys, ?_, ?_⟩
        · intro q rt
          rw [h.exact, bound_append_iff, or_iff_left (bound_singleton_false hb (by simp [hk]))]
        · intro q rt
          exact lookup_setKey_bound hd hp hb (iff_of_false hk (by decide)) h.mounts

private theorem foldl_routes (hd : DistinctPaths t.paths ns) :
    Routes t ns (ns.foldl (Compiled.addNode t.paths) ⟨t, [], []⟩) := by
  induction ns using List.reverseRecOn with
  | nil =>
    refine ⟨rfl, nodup_nil, nodup_nil, ?_, ?_⟩
    · intro p rt
      exact iff_of_false (by simp) (by rintro ⟨n, hn, -⟩; exact not_mem_nil hn)
    · intro p rt
      exact iff_of_false (by simp) (by rintro ⟨n, hn, -⟩; exact not_mem_nil hn)
  | append_singleton ns n ih =>
    rw [foldl_append, foldl_cons, foldl_nil]
    apply addNode_routes hd
    apply ih
    intro m hm m' hm'
    exact hd m (mem_append_left _ hm) m' (mem_append_left _ hm')

theorem ValidTree.distinctPaths {others : List Tree} (h : ValidTree t others) :
    DistinctPaths t.paths t.nodes := by
  intro n hn n' hn' p hp hp'
  exact inj_on_of_nodup_map h.ids hn hn' (h.distinct n hn n' hn' p hp hp')

theorem ValidTree.routes {others : List Tree} (h : ValidTree t others) :
    Routes t t.nodes (compile t) := foldl_routes h.distinctPaths

theorem PathOf.below_root {id : Bytes} (h : PathOf t id p) : ∃ rest, p = t.rootPath ++ slashByte :: rest := by
  induction h with
  | top => exact ⟨_, rfl⟩
  | child _ _ _ ih =>
    obtain ⟨rest, hrest⟩ := ih
    exact ⟨_, by rw [hrest, append_assoc, cons_append]⟩

structure Route.At (t : Tree) (exact : Bool) (p : Bytes) (rt : Route) : Prop where
  path : rt.path = p
  kind : rt.binding.kind = .exact ↔ exact = true
  below : under p t.rootPath = true

theorem Bound.route (h : Bound t.paths ns exact p rt) : rt.At t exact p := by
  obtain ⟨n, -, b, hp, -, hk, rfl⟩ := h
  obtain ⟨rest, hrest⟩ := (paths_pathOf t n.id p hp).below_root
  exact ⟨rfl, hk, by rw [hrest]; exact under_append _ _⟩

def RootsApart (trees : List Tree) : Prop :=
  ∀ t ∈ trees, ∀ u ∈ trees, t ≠ u → under t.rootPath u.rootPath = false

theorem RootsApart.unique {trees : List Tree} (h : RootsApart trees) {t u : Tree} (ht : t ∈ trees)
    (hu : u ∈ trees) {topic : Bytes} (htopic : under topic t.rootPath = true)
    (htopic' : under topic u.rootPath = true) : t = u := by
  by_contra hne
  rcases under_comparable htopic htopic' with hcase | hcase
  · rw [h t ht u hu hne] at hcase
    cases hcase
  · rw [h u hu t ht (Ne.symm hne)] at hcase
    cases hcase

theorem addNode_tree (paths : List (Bytes × Bytes)) (c : Compiled) (n : Node) : (c.addNode paths n).tree = c.tree := by
  rw [Compiled.addNode]
  split
  · rfl
  · split
    · rfl
    · split <;> rfl

theorem compile_tree (t : Tree) : (compile t).tree = t := by
  have hfold : ∀ (ns : List Node) (c : Compiled), (ns.foldl (Compiled.addNode t.paths) c).tree = c.tree := by
    intro ns
    induction ns with
    | nil => exact fun _ => rfl
    | cons n ns ih =>
      intro c
      rw [foldl_cons, ih, addNode_tree]
  exact hfold t.nodes ⟨t, [], []⟩

section Owner

variable {trees : List Tree} {topic : Bytes}

theorem exists_of_owner {c : Compiled} (hc : (newResolver trees).owner topic = some c) :
    ∃ t ∈ trees, c = compile t ∧ under topic t.rootPath = true := by
  obtain ⟨p, hp, hroot⟩ := exists_of_findSome?_eq_some hc
  obtain ⟨t, ht, rfl⟩ := mem_map.mp (mem_of_find?_eq_some hroot)
  have hpath := List.find?_some hroot
  rw [decide_eq_true_iff, compile_tree] at hpath
  exact ⟨t, ht, rfl, by rw [hpath]; exact (mem_upward_iff).mp hp⟩

theorem owner_eq (h : RootsApart trees) {t : Tree} (ht : t ∈ trees) (hu : under topic t.rootPath = true) :
    (newResolver trees).owner topic = some (compile t) := by
  have hsome : ((newResolver trees).owner topic).isSome = true := by
    rw [Resolver.owner, List.findSome?_isSome_iff]
    refine ⟨t.rootPath, (mem_upward_iff).mpr hu, ?_⟩
    rw [Resolver.byRoot, List.find?_isSome]
    refine ⟨compile t, mem_map.mpr ⟨t, ht, rfl⟩, ?_⟩
    rw [compile_tree, decide_eq_true_iff]
  obtain ⟨c, hc⟩ := Option.isSome_iff_exists.mp hsome
  obtain ⟨u, hmem, rfl, hu'⟩ := exists_of_owner hc
  rw [hc, h.unique ht hmem hu hu']

theorem owner_none (h : ∀ t ∈ trees, under topic t.rootPath = false) :
    (newResolver trees).owner topic = none := by
  cases hc : (newResolver trees).owner topic with
  | none => rfl
  | some c =>
    obtain ⟨t, ht, -, hu⟩ := exists_of_owner hc
    rw [h t ht] at hu
    cases hu

end Owner

section Trees

variable {trees : List Tree}

theorem PairwiseValid.tree (h : PairwiseValid trees) {t : Tree} (ht : t ∈ trees) :
    ∃ before after, trees = before ++ t :: after ∧ ValidTree t (before ++ after) := by
  obtain ⟨before, after, heq⟩ := append_of_mem ht
  exact ⟨before, after, heq, validTree_of_validate (h before t after heq)⟩

theorem PairwiseValid.routes (h : PairwiseValid trees) {t : Tree} (ht : t ∈ trees) :
    Routes t t.nodes (compile t) := by
  obtain ⟨_, _, -, hvalid⟩ := h.tree ht
  exact hvalid.routes

theorem PairwiseValid.rootsApart (h : PairwiseValid trees) : RootsApart trees := by
  intro t ht u hu hne
  obtain ⟨before, after, rfl, hvalid⟩ := h.tree ht
  have hmem : u ∈ before ++ after := by
    rcases mem_append.mp hu with hm | hm
    · exact mem_append_left _ hm
    · exact mem_append_right _ ((mem_cons.mp hm).resolve_left (Ne.symm hne))
  exact (hvalid.apart u hmem).2

private theorem nodup_of_split {α : Type} {l : List α}
    (h : ∀ before a after, l = before ++ a :: after → a ∉ after) : l.Nodup := by
  induction l with
  | nil => exact nodup_nil
  | cons a l ih =>
    rw [nodup_cons]
    refine ⟨h [] a l rfl, ih ?_⟩
    intro before b after heq
    exact h (a :: before) b after (by rw [heq, cons_append])

section

variable (h : PairwiseValid trees)
include h

theorem PairwiseValid.nodup : trees.Nodup := by
  apply nodup_of_split
  intro before t after heq hm
  have hvalid := validTree_of_validate (h before t after heq)
  have hsame := (hvalid.apart t (mem_append_right _ hm)).1
  rw [under_refl] at hsame
  cases hsame

theorem inVirtualNamespace_iff {topic : Bytes} : (newResolver trees).inVirtualNamespace topic = true ↔
      ∃ t ∈ trees, under topic t.rootPath = true := by
  rw [Resolver.inVirtualNamespace, Option.isSome_iff_exists]
  constructor
  · rintro ⟨c, hc⟩
    obtain ⟨t, ht, -, hu⟩ := exists_of_owner hc
    exact ⟨t, ht, hu⟩
  · rintro ⟨t, ht, hu⟩
    exact ⟨_, owner_eq h.rootsApart ht hu⟩

end

theorem winner_cases {c : Compiled} {v : Bytes} {rt : Route} (h : c.winner v = some rt) :
    c.exact.lookup v = some rt ∨
      (c.exact.lookup v = none ∧ ∃ p, under v p = true ∧ c.mounts.lookup p = some rt) := by
  rw [Compiled.winner] at h
  cases hv : c.exact.lookup v with
  | some r =>
    rw [hv] at h
    exact .inl h
  | none =>
    rw [hv] at h
    dsimp only at h
    split at h
    · cases h
    · obtain ⟨p, hp, hr⟩ := exists_of_findSome?_eq_some h
      exact .inr ⟨rfl, p, (mem_upward_iff).mp hp, hr⟩

theorem winner_exact {c : Compiled} {v : Bytes} {rt : Route} (h : c.exact.lookup v = some rt) :
    c.winner v = some rt := by
  rw [Compiled.winner, h]

end Trees

end MonsterMQ.Virtual
