import MonsterMQ.VirtualTreeRoutes

/-!
# Projection is the inverse of resolution

The virtual names that a canonical topic is projected to are the topics in the roots of enabled trees that
resolve to it, each listed once.
-/

namespace MonsterMQ.Virtual

open LittleEndian PeerLink Auth Topics List

section Projection

variable {trees : List Tree} {c v : Bytes}

theorem mem_enabled_iff (h : PairwiseValid trees) {k : Compiled} :
    k ∈ (newResolver trees).enabled ↔ ∃ t ∈ trees, t.enabled = true ∧ k = compile t := by
  rw [Resolver.enabled, mem_filter]
  constructor
  · rintro ⟨hk, hen⟩
    obtain ⟨t, ht, rfl⟩ := mem_map.mp hk
    rw [(h.routes ht).tree] at hen
    exact ⟨t, ht, hen, rfl⟩
  · rintro ⟨t, ht, hen, rfl⟩
    rw [(h.routes ht).tree]
    exact ⟨mem_map.mpr ⟨t, ht, rfl⟩, hen⟩

structure Stored (trees : List Tree) (routes : Compiled → List (Bytes × Route)) : Prop where
  keys : ∀ t ∈ trees, DistinctKeys (routes (compile t))
  path : ∀ t ∈ trees, ∀ p rt, (routes (compile t)).lookup p = some rt → rt.path = p

section

variable (h : PairwiseValid trees)
include h

theorem PairwiseValid.storedExact : Stored trees Compiled.exact where
  keys := fun _ ht => (h.routes ht).exactKeys
  path := fun _ ht p rt hlook => (((h.routes ht).exact p rt).mp hlook).route.path

theorem PairwiseValid.storedMounts : Stored trees Compiled.mounts where
  keys := fun _ ht => (h.routes ht).mountKeys
  path := fun _ ht p rt hlook => (((h.routes ht).mounts p rt).mp hlook).route.path

theorem mem_byTarget_iff {routes : Compiled → List (Bytes × Route)}
    (hs : Stored trees routes) {k : Compiled} {rt : Route} {target : Bytes} :
    (k, rt) ∈ (newResolver trees).byTarget routes target ↔
      ∃ t ∈ trees, t.enabled = true ∧ k = compile t ∧ (routes k).lookup rt.path = some rt ∧
        rt.binding.target = target := by
  rw [Resolver.byTarget, mem_flatMap]
  constructor
  · rintro ⟨k', hk', hm⟩
    obtain ⟨t, ht, hen, rfl⟩ := (mem_enabled_iff h).mp hk'
    obtain ⟨⟨p, rt'⟩, he, heq⟩ := mem_map.mp hm
    obtain ⟨rfl, rfl⟩ := Prod.mk.inj heq
    obtain ⟨he, htarget⟩ := mem_filter.mp he
    have hlook := (mem_iff_lookup (hs.keys t ht)).mp he
    refine ⟨t, ht, hen, rfl, ?_, by simpa using htarget⟩
    rw [hs.path t ht p rt' hlook]
    exact hlook
  · rintro ⟨t, ht, hen, rfl, hlook, htarget⟩
    refine ⟨compile t, (mem_enabled_iff h).mpr ⟨t, ht, hen, rfl⟩, mem_map.mpr
      ⟨(rt.path, rt), mem_filter.mpr ⟨?_, by simpa using htarget⟩, rfl⟩⟩
    exact (mem_iff_lookup (hs.keys t ht)).mpr hlook

theorem byTarget_nodup {routes : Compiled → List (Bytes × Route)}
    (hs : Stored trees routes) (target : Bytes) : ((newResolver trees).byTarget routes target).Nodup := by
  have htree : ∀ k ∈ (newResolver trees).enabled, ∃ t ∈ trees, k = compile t := by
    intro k hk
    obtain ⟨t, ht, -, heq⟩ := (mem_enabled_iff h).mp hk
    exact ⟨t, ht, heq⟩
  have henabled : (newResolver trees).enabled.Nodup := by
    apply List.Nodup.filter
    apply List.Nodup.map_on _ h.nodup
    intro t ht t' ht' heq
    rw [← (h.routes ht).tree, heq, (h.routes ht').tree]
  rw [Resolver.byTarget, List.Nodup, pairwise_flatMap]
  refine ⟨?_, ?_⟩
  · intro k hk
    obtain ⟨t, ht, rfl⟩ := htree k hk
    have hnodup : (routes (compile t)).Nodup := List.Nodup.of_map _ (hs.keys t ht)
    apply List.Nodup.map_on _ (hnodup.filter _)
    rintro ⟨p, rt⟩ he ⟨p', rt'⟩ he' heq
    have hrt := (Prod.mk.inj heq).2
    dsimp only at hrt
    subst hrt
    have hp := hs.path t ht p rt ((mem_iff_lookup (hs.keys t ht)).mp (mem_filter.mp he).1)
    have hp' := hs.path t ht p' rt ((mem_iff_lookup (hs.keys t ht)).mp (mem_filter.mp he').1)
    rw [← hp, ← hp']
  · apply henabled.imp
    intro k k' hne x hx y hy heq
    obtain ⟨_, -, rfl⟩ := mem_map.mp hx
    obtain ⟨_, -, rfl⟩ := mem_map.mp hy
    exact hne (Prod.mk.inj heq).1

end

theorem canonical_exact {rt : Route} (hk : rt.binding.kind = .exact) :
    canonical v rt = rt.binding.target := if_pos hk

theorem canonical_mount {rt : Route} (hk : ¬ rt.binding.kind = .exact) :
    canonical v rt = rt.binding.target ++ v.drop rt.path.length := if_neg hk

theorem eq_append_drop {a b : Bytes} (h : under a b = true) : a = b ++ a.drop b.length := by
  rcases (under_iff).mp h with rfl | ⟨rest, rfl⟩
  · rw [drop_length, append_nil]
  · rw [drop_left]

theorem under_append_drop {a b : Bytes} (h : under a b = true) (p : Bytes) :
    under (p ++ a.drop b.length) p = true := by
  rcases (under_iff).mp h with rfl | ⟨rest, rfl⟩
  · rw [drop_length, append_nil]
    exact under_refl p
  · rw [drop_left]
    exact under_append p rest

theorem winner_spec (h : PairwiseValid trees) {t : Tree} (ht : t ∈ trees) {rt : Route}
    (hw : (compile t).winner v = some rt) : under v rt.path = true ∧
      under v t.rootPath = true ∧
      ((rt.binding.kind = .exact ∧ rt.path = v ∧ (compile t).exact.lookup rt.path = some rt) ∨
        (¬ rt.binding.kind = .exact ∧ (compile t).mounts.lookup rt.path = some rt)) := by
  rcases winner_cases hw with hlook | ⟨-, p, hu, hlook⟩
  · have hroute := (((h.routes ht).exact v rt).mp hlook).route
    rw [hroute.path]
    exact ⟨under_refl v, hroute.below, .inl ⟨hroute.kind.mpr rfl, rfl, hlook⟩⟩
  · have hroute := (((h.routes ht).mounts p rt).mp hlook).route
    rw [hroute.path]
    refine ⟨hu, under_trans hu hroute.below, .inr ⟨?_, hlook⟩⟩
    rw [hroute.kind]
    decide

theorem mem_project_iff (h : PairwiseValid trees) {p : Presentation} :
    p ∈ (newResolver trees).project c ↔ ∃ t ∈ trees, t.enabled = true ∧ ∃ rt,
      (compile t).winner p.virtual = some rt ∧ canonical p.virtual rt = c ∧
      p = Resolver.present (compile t) rt p.virtual := by
  rw [Resolver.project, mem_mergeSort, mem_append]
  constructor
  · rintro (hm | hm)
    · obtain ⟨⟨k, rt⟩, he, rfl⟩ := mem_map.mp hm
      obtain ⟨t, ht, hen, rfl, hlook, htarget⟩ := (mem_byTarget_iff h h.storedExact).mp he
      have hkind := (((h.routes ht).exact rt.path rt).mp hlook).route.kind.mpr rfl
      exact ⟨t, ht, hen, rt, winner_exact hlook, (canonical_exact hkind).trans htarget, rfl⟩
    · obtain ⟨target, htarget, hm⟩ := mem_flatMap.mp hm
      obtain ⟨⟨k, rt⟩, he, hp⟩ := mem_filterMap.mp hm
      obtain ⟨t, ht, hen, rfl, hlook, rfl⟩ := (mem_byTarget_iff h h.storedMounts).mp he
      dsimp only at hp
      split at hp
      · rename_i hw
        rw [← Option.some.inj hp]
        have hkind : ¬ rt.binding.kind = .exact := by
          rw [(((h.routes ht).mounts rt.path rt).mp hlook).route.kind]
          decide
        refine ⟨t, ht, hen, rt, hw, ?_, rfl⟩
        rw [canonical_mount hkind, Resolver.present, drop_left,
          ← eq_append_drop ((mem_upward_iff).mp htarget)]
      · cases hp
  · rintro ⟨t, ht, hen, rt, hw, hcan, hp⟩
    obtain ⟨hu, -, ⟨hkind, hpath, hlook⟩ | ⟨hkind, hlook⟩⟩ := winner_spec h ht hw
    · left
      rw [canonical_exact hkind] at hcan
      refine mem_map.mpr ⟨(compile t, rt),
        (mem_byTarget_iff h h.storedExact).mpr ⟨t, ht, hen, rfl, hlook, hcan⟩, ?_⟩
      dsimp only
      rw [hpath]
      exact hp.symm
    · right
      rw [canonical_mount hkind] at hcan
      have hunder : under c rt.binding.target = true := by
        rw [← hcan]
        exact under_append_drop hu _
      have hv : rt.path ++ c.drop rt.binding.target.length = p.virtual := by
        rw [← hcan, drop_left, ← eq_append_drop hu]
      refine mem_flatMap.mpr ⟨rt.binding.target, (mem_upward_iff).mpr hunder,
        mem_filterMap.mpr ⟨(compile t, rt),
          (mem_byTarget_iff h h.storedMounts).mpr ⟨t, ht, hen, rfl, hlook, rfl⟩, ?_⟩⟩
      dsimp only
      rw [hv, if_pos hw]
      exact congrArg some hp.symm

def names (r : Resolver) (c : Bytes) : List Bytes := (r.project c).map Presentation.virtual

section

variable (h : PairwiseValid trees)
include h

theorem mem_names_iff : v ∈ names (newResolver trees) c ↔
    ∃ t ∈ trees, t.enabled = true ∧ ∃ rt, (compile t).winner v = some rt ∧ canonical v rt = c := by
  constructor
  · intro hm
    obtain ⟨p, hp, rfl⟩ := mem_map.mp hm
    obtain ⟨t, ht, hen, rt, hw, hcan, -⟩ := (mem_project_iff h).mp hp
    exact ⟨t, ht, hen, rt, hw, hcan⟩
  · rintro ⟨t, ht, hen, rt, hw, hcan⟩
    exact mem_map.mpr ⟨Resolver.present (compile t) rt v,
      (mem_project_iff h).mpr ⟨t, ht, hen, rt, hw, hcan, rfl⟩, rfl⟩

theorem mem_names_iff_readResolve : v ∈ names (newResolver trees) c ↔
      (∃ t ∈ trees, t.enabled = true ∧ under v t.rootPath = true) ∧
        (newResolver trees).readResolve v = some c := by
  rw [mem_names_iff h]
  constructor
  · rintro ⟨t, ht, hen, rt, hw, hcan⟩
    obtain ⟨-, hu, -⟩ := winner_spec h ht hw
    refine ⟨⟨t, ht, hen, hu⟩, ?_⟩
    rw [Resolver.readResolve, owner_eq h.rootsApart ht hu]
    dsimp only
    rw [(h.routes ht).tree, hen, hw]
    exact congrArg some hcan
  · rintro ⟨⟨t, ht, hen, hu⟩, hread⟩
    rw [Resolver.readResolve, owner_eq h.rootsApart ht hu] at hread
    dsimp only at hread
    rw [(h.routes ht).tree, hen] at hread
    obtain ⟨rt, hw, hcan⟩ := Option.map_eq_some_iff.mp hread
    exact ⟨t, ht, hen, rt, hw, hcan⟩

theorem winner_unique {t t' : Tree} (ht : t ∈ trees) (ht' : t' ∈ trees)
    {rt rt' : Route} (hw : (compile t).winner v = some rt)
    (hw' : (compile t').winner v = some rt') : t = t' ∧ rt = rt' := by
  obtain ⟨-, hu, -⟩ := winner_spec h ht hw
  obtain ⟨-, hu', -⟩ := winner_spec h ht' hw'
  have heq := h.rootsApart.unique ht ht' hu hu'
  subst heq
  exact ⟨rfl, Option.some.inj (hw.symm.trans hw')⟩

private theorem exact_names_pairwise (target : Bytes) :
    ((newResolver trees).exactByTarget target).Pairwise fun a b => a.2.path ≠ b.2.path := by
  apply List.Pairwise.imp_of_mem _ (byTarget_nodup h h.storedExact target)
  rintro ⟨k, rt⟩ ⟨k', rt'⟩ hm hm' hne heq
  obtain ⟨t, ht, -, rfl, hlook, -⟩ := (mem_byTarget_iff h h.storedExact).mp hm
  obtain ⟨t', ht', -, rfl, hlook', -⟩ := (mem_byTarget_iff h h.storedExact).mp hm'
  rw [← heq] at hlook'
  obtain ⟨rfl, rfl⟩ := winner_unique h ht ht' (winner_exact hlook) (winner_exact hlook')
  exact hne rfl

end

def mountPresentation (c target : Bytes) (km : Compiled × Route) : Option Presentation :=
  let v := km.2.path ++ c.drop target.length
  if km.1.winner v = some km.2 then some (Resolver.present km.1 km.2 v) else none

theorem winner_of_mountPresentation {target : Bytes} {km : Compiled × Route} {p : Presentation}
    (hp : p ∈ mountPresentation c target km) : km.1.winner p.virtual = some km.2 := by
  rw [Option.mem_def, mountPresentation] at hp
  split at hp
  · rename_i hw
    rw [← Option.some.inj hp]
    exact hw
  · cases hp

theorem mount_names_pairwise (h : PairwiseValid trees) (c : Bytes) : ((upward c).flatMap fun target =>
      ((newResolver trees).mountsByTarget target).filterMap (mountPresentation c target)).Pairwise
        fun a b => a.virtual ≠ b.virtual := by
  rw [pairwise_flatMap]
  refine ⟨?_, ?_⟩
  · intro target _
    rw [pairwise_filterMap]
    apply List.Pairwise.imp_of_mem _ (byTarget_nodup h h.storedMounts target)
    rintro ⟨k, rt⟩ ⟨k', rt'⟩ hm hm' hne p hp p' hp' heq
    obtain ⟨t, ht, -, rfl, -⟩ := (mem_byTarget_iff h h.storedMounts).mp hm
    obtain ⟨t', ht', -, rfl, -⟩ := (mem_byTarget_iff h h.storedMounts).mp hm'
    have hw := winner_of_mountPresentation hp
    have hw' := winner_of_mountPresentation hp'
    rw [← heq] at hw'
    obtain ⟨rfl, rfl⟩ := winner_unique h ht ht' hw hw'
    exact hne rfl
  · apply (upward_nodup c).imp
    intro target target' hne p hp p' hp' heq
    obtain ⟨⟨k, rt⟩, hm, hp⟩ := mem_filterMap.mp hp
    obtain ⟨⟨k', rt'⟩, hm', hp'⟩ := mem_filterMap.mp hp'
    obtain ⟨t, ht, -, rfl, -, htarget⟩ := (mem_byTarget_iff h h.storedMounts).mp hm
    obtain ⟨t', ht', -, rfl, -, htarget'⟩ := (mem_byTarget_iff h h.storedMounts).mp hm'
    have hw := winner_of_mountPresentation hp
    have hw' := winner_of_mountPresentation hp'
    rw [← heq] at hw'
    obtain ⟨rfl, rfl⟩ := winner_unique h ht ht' hw hw'
    exact hne (htarget.symm.trans htarget')

theorem names_nodup (h : PairwiseValid trees) (c : Bytes) : (names (newResolver trees) c).Nodup := by
  rw [names, Resolver.project]
  apply ((mergeSort_perm _ _).map Presentation.virtual).nodup_iff.mpr
  rw [List.Nodup, pairwise_map, pairwise_append]
  refine ⟨?_, mount_names_pairwise h c, ?_⟩
  · rw [pairwise_map]
    exact exact_names_pairwise h c
  · intro p hp p' hp' heq
    obtain ⟨⟨k, rt⟩, hm, rfl⟩ := mem_map.mp hp
    obtain ⟨target, -, hp'⟩ := mem_flatMap.mp hp'
    obtain ⟨⟨k', rt'⟩, hm', hp'⟩ := mem_filterMap.mp hp'
    obtain ⟨t, ht, -, rfl, hlook, -⟩ := (mem_byTarget_iff h h.storedExact).mp hm
    obtain ⟨t', ht', -, rfl, hlook', -⟩ := (mem_byTarget_iff h h.storedMounts).mp hm'
    have hpres : mountPresentation c target (compile t', rt') = some p' := hp'
    have hw := winner_of_mountPresentation hpres
    rw [← heq] at hw
    obtain ⟨rfl, rfl⟩ := winner_unique h ht ht' (winner_exact hlook) hw
    have hexact := (((h.routes ht).exact _ _).mp hlook).route.kind
    have hmount := (((h.routes ht).mounts _ _).mp hlook').route.kind
    rw [hexact] at hmount
    exact absurd (hmount.mp rfl) (by decide)

private theorem mem_addNames_iff {proj : List Presentation} : ∀ {out : List Bytes},
    v ∈ Resolver.addNames out proj ↔ v ∈ out ∨ v ∈ proj.map Presentation.virtual := by
  induction proj with
  | nil =>
    intro out
    rw [Resolver.addNames, foldl_nil, map_nil, or_iff_left not_mem_nil]
  | cons p proj ih =>
    intro out
    rw [Resolver.addNames, foldl_cons]
    refine ih.trans ?_
    rw [map_cons, mem_cons, ← or_assoc]
    apply or_congr_left
    split
    · rename_i hm
      constructor
      · exact .inl
      · rintro (hv | rfl)
        · exact hv
        · exact hm
    · rw [mem_append, mem_singleton]

theorem mem_presentations_iff {r : Resolver} :
    v ∈ r.presentations c ↔ (r.inVirtualNamespace c = false ∧ v = c) ∨ v ∈ names r c := by
  rw [Resolver.presentations]
  refine (mem_addNames_iff).trans (or_congr_left ?_)
  cases r.inVirtualNamespace c with
  | true => exact iff_of_false not_mem_nil (by rintro ⟨h, -⟩; cases h)
  | false => exact mem_singleton.trans (and_iff_right rfl).symm

theorem inVirtualNamespace_of_mem_names (h : PairwiseValid trees)
    (hm : v ∈ names (newResolver trees) c) : (newResolver trees).inVirtualNamespace v = true := by
  obtain ⟨⟨t, ht, -, hu⟩, -⟩ := (mem_names_iff_readResolve h).mp hm
  exact (inVirtualNamespace_iff h).mpr ⟨t, ht, hu⟩

theorem mem_names_of_publish (h : PairwiseValid trees) (hin : (newResolver trees).inVirtualNamespace v = true)
    (hp : (newResolver trees).publish v = .ok c) : v ∈ names (newResolver trees) c := by
  obtain ⟨t, ht, hu⟩ := (inVirtualNamespace_iff h).mp hin
  rw [Resolver.publish, owner_eq h.rootsApart ht hu] at hp
  dsimp only at hp
  rw [(h.routes ht).tree] at hp
  split at hp
  · cases hp
  rename_i hen
  rw [Bool.not_eq_true', Bool.not_eq_false] at hen
  split at hp
  · cases hp
  rename_i rt hw
  split at hp
  · cases hp
  · exact (mem_names_iff h).mpr ⟨t, ht, hen, rt, hw, Except.ok.inj hp⟩

theorem canonical_unique (h : PairwiseValid trees) {c' : Bytes} (hm : v ∈ (newResolver trees).presentations c)
    (hm' : v ∈ (newResolver trees).presentations c') : c = c' := by
  rcases (mem_presentations_iff).mp hm with ⟨hphys, rfl⟩ | hm
  · rcases (mem_presentations_iff).mp hm' with ⟨-, heq⟩ | hm'
    · exact heq
    · rw [inVirtualNamespace_of_mem_names h hm'] at hphys
      cases hphys
  · rcases (mem_presentations_iff).mp hm' with ⟨hphys, rfl⟩ | hm'
    · rw [inVirtualNamespace_of_mem_names h hm] at hphys
      cases hphys
    · have hread := ((mem_names_iff_readResolve h).mp hm).2
      have hread' := ((mem_names_iff_readResolve h).mp hm').2
      exact Option.some.inj (hread.symm.trans hread')

/-- What the names of canonical topics have to do with resolution. -/
structure ProjectionInverse (trees : List Tree) : Prop where
  names : ∀ c v, v ∈ ((newResolver trees).project c).map Presentation.virtual ↔
    (∃ t ∈ trees, t.enabled = true ∧ under v t.rootPath = true) ∧
      (newResolver trees).readResolve v = some c
  once : ∀ c, (((newResolver trees).project c).map Presentation.virtual).Nodup
  published : ∀ v c, (newResolver trees).inVirtualNamespace v = true →
    (newResolver trees).publish v = .ok c → v ∈ (newResolver trees).presentations c
  disjoint : ∀ c c' v, v ∈ (newResolver trees).presentations c →
    v ∈ (newResolver trees).presentations c' → c = c'
  physical : ∀ topic c, (newResolver trees).inVirtualNamespace topic = false →
    topic ∉ ((newResolver trees).project c).map Presentation.virtual

theorem projectionInverse (h : PairwiseValid trees) : ProjectionInverse trees where
  names := fun _ _ => mem_names_iff_readResolve h
  once := names_nodup h
  published := by
    intro v c hin hp
    exact (mem_presentations_iff).mpr (.inr (mem_names_of_publish h hin hp))
  disjoint := fun _ _ _ hm hm' => canonical_unique h hm hm'
  physical := by
    intro topic c hphys hm
    rw [inVirtualNamespace_of_mem_names h hm] at hphys
    cases hphys

end Projection

/-- A tree with a folder, an exact binding and a mount with another one below. -/
def plantTree : Tree where
  schemaVersion := 1
  id := ascii "plant"
  rootPath := ascii "plant"
  enabled := true
  nodes := [⟨ascii "1", none, ascii "hall", none⟩,
    ⟨ascii "2", some (ascii "1"), ascii "temp", some ⟨.exact, ascii "s7/db1/temp", .readWrite⟩⟩,
    ⟨ascii "3", some (ascii "1"), ascii "all", some ⟨.subtree, ascii "s7", .readOnly⟩⟩,
    ⟨ascii "4", some (ascii "3"), ascii "db2", some ⟨.subtree, ascii "opc", .readWrite⟩⟩]

def officeTree : Tree where
  schemaVersion := 1
  id := ascii "office"
  rootPath := ascii "office/floor"
  enabled := false
  nodes := [⟨ascii "1", none, ascii "all", some ⟨.subtree, ascii "s7", .readWrite⟩⟩]

theorem pairwiseValid_pair {t t' : Tree} (h : validate t [t'] = []) (h' : validate t' [t] = []) :
    PairwiseValid [t, t'] := by
  intro before u after heq
  match before with
  | [] =>
    obtain ⟨rfl, rfl⟩ := List.cons.inj heq
    exact h
  | [x] =>
    obtain ⟨rfl, htail⟩ := List.cons.inj heq
    obtain ⟨rfl, rfl⟩ := List.cons.inj htail
    exact h'
  | x :: y :: before =>
    have hlen := congrArg List.length heq
    simp at hlen

theorem plantTrees_valid : PairwiseValid [plantTree, officeTree] :=
  pairwiseValid_pair (by decide +kernel) (by decide +kernel)

theorem plantTrees_inverse : ProjectionInverse [plantTree, officeTree] :=
  projectionInverse plantTrees_valid

end MonsterMQ.Virtual
