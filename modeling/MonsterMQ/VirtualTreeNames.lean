import MonsterMQ.VirtualTreeProjection

/-!
# The topic names that resolution and projection make

Publishing through a mount appends the remainder of the virtual topic to the target, and a presentation
appends that of the canonical topic to the path.
-/

namespace MonsterMQ.Virtual

open LittleEndian PeerLink Auth Topics List

def Remainder (rest : Bytes) : Prop := rest = [] ∨ ∃ s, rest = slashByte :: s

theorem remainder_of_under {a b : Bytes} (h : under a b = true) : Remainder (a.drop b.length) := by
  rcases (under_iff).mp h with rfl | ⟨rest, rfl⟩
  · exact .inl drop_length
  · exact .inr ⟨rest, drop_left⟩

theorem text_append_slash {a s : Bytes} : TextLevel (a ++ slashByte :: s) ↔ TextLevel a ∧ TextLevel s := by
  have hnul : (0 : UInt8) ≠ slashByte := by decide
  simp only [TextLevel, Utf8.valid_append_ascii (show slashByte < 0x80 by decide), Bool.and_eq_true,
    mem_append, mem_cons, not_or]
  constructor
  · rintro ⟨⟨ha, hs⟩, hna, -, hns⟩
    exact ⟨⟨ha, hna⟩, hs, hns⟩
  · rintro ⟨⟨ha, hna⟩, hs, hns⟩
    exact ⟨⟨ha, hs⟩, hna, hnul, hns⟩

theorem concrete_append {a s : Bytes} : Concrete (a ++ s) ↔ Concrete a ∧ Concrete s := by
  simp only [Concrete, mem_append, not_or]
  constructor
  · rintro ⟨⟨ha, hs⟩, ha', hs'⟩
    exact ⟨⟨ha, ha'⟩, hs, hs'⟩
  · rintro ⟨⟨ha, ha'⟩, hs, hs'⟩
    exact ⟨⟨ha, hs⟩, ha', hs'⟩

theorem validTopic_append_iff {a b rest : Bytes} (ha : ValidTopic a) (hb : ValidTopic (b ++ rest))
    (hrest : Remainder rest) : ValidTopic (a ++ rest) ↔ a.length + rest.length ≤ 65535 := by
  rw [← length_append]
  constructor
  · intro h
    exact h.name.length
  · intro hlen
    have htext : TextLevel (a ++ rest) := by
      have hta : TextLevel a := ⟨ha.name.utf8, ha.name.noNul⟩
      rcases hrest with rfl | ⟨s, rfl⟩
      · rw [append_nil]
        exact hta
      · exact (text_append_slash).mpr ⟨hta, ((text_append_slash).mp ⟨hb.name.utf8, hb.name.noNul⟩).2⟩
    exact ⟨⟨append_ne_nil_of_left_ne_nil ha.name.nonempty _, hlen, htext.1, htext.2⟩,
      (concrete_append).mpr ⟨ha.concrete, ((concrete_append).mp hb.concrete).2⟩⟩

theorem under_append_iff {b rest s : Bytes} : under (b ++ rest) (b ++ s) = under rest s := by
  rw [Bool.eq_iff_iff, under_iff, under_iff]
  apply or_congr
  · exact append_cancel_left_eq b rest s ▸ Iff.rfl
  · constructor
    · rintro ⟨r, hr⟩
      rw [append_assoc] at hr
      exact ⟨r, append_cancel_left hr⟩
    · rintro ⟨r, rfl⟩
      exact ⟨r, (append_assoc _ _ _).symm⟩

theorem under_remainder_iff {target root rest : Bytes} (hout : under target root = false)
    (hrest : Remainder rest) : under (target ++ rest) root = true ↔
      ∃ s, root = target ++ slashByte :: s ∧ under rest (slashByte :: s) = true := by
  have htarget : under (target ++ rest) target = true := by
    rcases hrest with rfl | ⟨s, rfl⟩
    · rw [append_nil]
      exact under_refl target
    · exact under_append target s
  constructor
  · intro h
    rcases under_comparable htarget h with hcase | hcase
    · rw [hout] at hcase
      cases hcase
    · rcases (under_iff).mp hcase with heq | ⟨s, rfl⟩
      · rw [heq, under_refl] at hout
        cases hout
      · rw [under_append_iff] at h
        exact ⟨s, rfl, h⟩
  · rintro ⟨s, rfl, h⟩
    rw [under_append_iff]
    exact h

section Names

variable {trees : List Tree} {v c : Bytes}

theorem PathOf.textConcrete {t : Tree} {others : List Tree} (h : ValidTree t others) {id p : Bytes}
    (hp : PathOf t id p) : TextLevel p ∧ Concrete p := by
  have hsegment : ∀ {id n}, t.byID id = some n → TextLevel n.segment ∧ Concrete n.segment := by
    intro id n hn
    have hs := h.segment n (mem_of_find?_eq_some hn)
    simp only [validSegment, Bool.and_eq_true, validName_iff, Bool.not_eq_true', Bool.or_eq_false_iff]
      at hs
    obtain ⟨hname, ⟨-, hplus⟩, hhash⟩ := hs
    refine ⟨⟨hname.utf8, hname.noNul⟩, ?_⟩
    rw [← not_hasWildcard_iff, hasWildcard, hplus, hhash]
    decide
  have hslash : ∀ {s : Bytes}, Concrete s → Concrete (slashByte :: s) := fun hs =>
    (concrete_append).mpr ⟨(by decide : Concrete [slashByte]), hs⟩
  induction hp with
  | top hn _ =>
    obtain ⟨htext, hconcrete⟩ := hsegment hn
    exact ⟨(text_append_slash).mpr ⟨⟨h.root.name.utf8, h.root.name.noNul⟩, htext⟩,
      (concrete_append).mpr ⟨h.root.concrete, hslash hconcrete⟩⟩
  | child hn _ _ ih =>
    obtain ⟨htext, hconcrete⟩ := hsegment hn
    exact ⟨(text_append_slash).mpr ⟨ih.1, htext⟩, (concrete_append).mpr ⟨ih.2, hslash hconcrete⟩⟩

structure Route.Valid (trees : List Tree) (rt : Route) : Prop where
  path : ValidTopic rt.path
  target : ValidTopic rt.binding.target
  outside : ∀ t ∈ trees, under rt.binding.target t.rootPath = false

theorem Bound.valid (h : PairwiseValid trees) {t : Tree} (ht : t ∈ trees) {exact : Bool} {p : Bytes}
    {rt : Route} (hb : Bound t.paths t.nodes exact p rt) : rt.Valid trees := by
  obtain ⟨before, after, heq, hvalid⟩ := h.tree ht
  obtain ⟨n, hn, b, hp, hbind, -, rfl⟩ := hb
  obtain ⟨p', hp', hlen⟩ := hvalid.path n hn
  obtain rfl := Option.some.inj (hp.symm.trans hp')
  have hpath := paths_pathOf t n.id p hp
  obtain ⟨htext, hconcrete⟩ := hpath.textConcrete hvalid
  have hne : p ≠ [] := by
    obtain ⟨rest, rfl⟩ := hpath.below_root
    exact append_ne_nil_of_right_ne_nil _ (cons_ne_nil _ _)
  have hbinding := hvalid.binding n hn b hbind
  refine ⟨⟨⟨hne, hlen, htext.1, htext.2⟩, hconcrete⟩, hbinding.target, ?_⟩
  intro t' ht'
  apply hbinding.outside
  rw [heq, mem_append, mem_cons] at ht'
  rw [mem_append, mem_map, mem_singleton]
  rcases ht' with hm | rfl | hm
  · exact .inl ⟨t', mem_append_left _ hm, rfl⟩
  · exact .inr rfl
  · exact .inl ⟨t', mem_append_right _ hm, rfl⟩

theorem route_valid (h : PairwiseValid trees) {t : Tree} (ht : t ∈ trees) {rt : Route}
    (hw : (compile t).winner v = some rt) : rt.Valid trees := by
  obtain ⟨-, -, ⟨-, -, hlook⟩ | ⟨-, hlook⟩⟩ := winner_spec h ht hw
  · exact (((h.routes ht).exact _ _).mp hlook).valid h ht
  · exact (((h.routes ht).mounts _ _).mp hlook).valid h ht

/-- Where a publish to a topic is accepted, it goes to a valid topic outside the roots, and to
one that starts with `$` only if the target of the binding does. -/
def PublishValid (trees : List Tree) (v : Bytes) : Prop :=
  ∀ c, (newResolver trees).publish v = .ok c →
    (newResolver trees).inVirtualNamespace c = false ∧ ValidTopic c ∧
      ∀ rt, (newResolver trees).winnerRoute v = some rt → c.head? = some dollarByte →
        rt.binding.target.head? = some dollarByte

/-- What a writable mount that wins for the topic appends is short enough, and does not lead
into a root below its target. -/
def RemainderFits (trees : List Tree) (v : Bytes) : Prop :=
  ∀ rt, (newResolver trees).winnerRoute v = some rt → ¬ rt.binding.kind = .exact →
    rt.binding.access = .readWrite →
      rt.binding.target.length + (v.length - rt.path.length) ≤ 65535 ∧
        ∀ t ∈ trees, ∀ s, t.rootPath = rt.binding.target ++ slashByte :: s →
          under v (rt.path ++ slashByte :: s) = false

theorem winnerRoute_iff (h : PairwiseValid trees) {rt : Route} : (newResolver trees).winnerRoute v = some rt ↔
      ∃ t ∈ trees, t.enabled = true ∧ (compile t).winner v = some rt := by
  constructor
  · intro hw
    rw [Resolver.winnerRoute] at hw
    cases howner : (newResolver trees).owner v with
    | none =>
      rw [howner] at hw
      cases hw
    | some k =>
      obtain ⟨t, ht, rfl, hu⟩ := exists_of_owner howner
      rw [howner] at hw
      dsimp only at hw
      rw [(h.routes ht).tree] at hw
      cases hen : t.enabled with
      | false =>
        rw [hen] at hw
        cases hw
      | true =>
        rw [hen] at hw
        exact ⟨t, ht, hen, hw⟩
  · rintro ⟨t, ht, hen, hw⟩
    obtain ⟨-, hu, -⟩ := winner_spec h ht hw
    rw [Resolver.winnerRoute, owner_eq h.rootsApart ht hu]
    dsimp only
    rw [(h.routes ht).tree, hen]
    exact hw

theorem publish_iff : (newResolver trees).publish v = .ok c ↔
    ((newResolver trees).inVirtualNamespace v = false ∧ c = v) ∨
      ∃ rt, (newResolver trees).winnerRoute v = some rt ∧ rt.binding.access = .readWrite ∧
        canonical v rt = c := by
  rw [Resolver.publish, Resolver.inVirtualNamespace, Resolver.winnerRoute]
  cases howner : (newResolver trees).owner v with
  | none => simp [eq_comm]
  | some k =>
    cases hen : k.tree.enabled with
    | false => simp [hen]
    | true =>
      cases hw : k.winner v with
      | none => simp [hen, hw]
      | some rt =>
        by_cases hacc : rt.binding.access = .readWrite
        · simp [hen, hw, hacc]
        · simp [hen, hw, hacc]

theorem inVirtualNamespace_eq_false_iff (h : PairwiseValid trees) :
    (newResolver trees).inVirtualNamespace v = false ↔
      ∀ t ∈ trees, under v t.rootPath = false := by
  rw [← Bool.not_eq_true, inVirtualNamespace_iff h]
  simp only [not_exists, not_and, Bool.not_eq_true]

theorem mount_valid_iff (h : PairwiseValid trees) (hv : ValidTopic v) {rt : Route}
    (hrt : rt.Valid trees) (hu : under v rt.path = true) :
    ((newResolver trees).inVirtualNamespace (rt.binding.target ++ v.drop rt.path.length) = false ∧
      ValidTopic (rt.binding.target ++ v.drop rt.path.length)) ↔
    rt.binding.target.length + (v.length - rt.path.length) ≤ 65535 ∧
      ∀ t ∈ trees, ∀ s, t.rootPath = rt.binding.target ++ slashByte :: s →
        under v (rt.path ++ slashByte :: s) = false := by
  have hrest := remainder_of_under hu
  have hsplit := eq_append_drop hu
  rw [inVirtualNamespace_eq_false_iff h, and_comm, ← length_drop,
    validTopic_append_iff hrt.target (hsplit ▸ hv) hrest]
  apply and_congr_right'
  apply forall₂_congr
  intro t ht
  rw [← Bool.not_eq_true, under_remainder_iff (hrt.outside t ht) hrest, not_exists]
  apply forall_congr'
  intro s
  rw [not_and, Bool.not_eq_true, ← under_append_iff (b := rt.path), ← hsplit]

theorem publishValid_iff (h : PairwiseValid trees) (hv : ValidTopic v) :
    PublishValid trees v ↔ RemainderFits trees v := by
  constructor
  · intro hp rt hwin hkind hacc
    obtain ⟨t, ht, -, hw⟩ := (winnerRoute_iff h).mp hwin
    obtain ⟨hu, -⟩ := winner_spec h ht hw
    obtain ⟨hout, hvalid, -⟩ := hp _ ((publish_iff).mpr (.inr ⟨rt, hwin, hacc, rfl⟩))
    rw [canonical_mount hkind] at hout hvalid
    exact (mount_valid_iff h hv (route_valid h ht hw) hu).mp ⟨hout, hvalid⟩
  · intro hfits c hp
    rcases (publish_iff).mp hp with ⟨hout, rfl⟩ | ⟨rt, hwin, hacc, rfl⟩
    · refine ⟨hout, hv, ?_⟩
      intro rt hwin
      obtain ⟨t, ht, -, hw⟩ := (winnerRoute_iff h).mp hwin
      obtain ⟨-, hu, -⟩ := winner_spec h ht hw
      rw [(inVirtualNamespace_eq_false_iff h).mp hout t ht] at hu
      cases hu
    · obtain ⟨t, ht, -, hw⟩ := (winnerRoute_iff h).mp hwin
      obtain ⟨hu, -⟩ := winner_spec h ht hw
      have hrt := route_valid h ht hw
      by_cases hkind : rt.binding.kind = .exact
      · rw [canonical_exact hkind]
        refine ⟨(inVirtualNamespace_eq_false_iff h).mpr hrt.outside, hrt.target, ?_⟩
        intro rt' hwin' hdollar
        rw [Option.some.inj (hwin'.symm.trans hwin)]
        exact hdollar
      · rw [canonical_mount hkind]
        obtain ⟨hout, hvalid⟩ :=
          (mount_valid_iff h hv hrt hu).mpr (hfits rt hwin hkind hacc)
        refine ⟨hout, hvalid, ?_⟩
        intro rt' hwin' hdollar
        rw [Option.some.inj (hwin'.symm.trans hwin)]
        rwa [List.head?_append_of_ne_nil _ hrt.target.name.nonempty] at hdollar

def PresentationsValid (trees : List Tree) (c : Bytes) : Prop :=
  ∀ name ∈ (newResolver trees).presentations c, ValidTopic name

/-- What a mount that presents the topic appends to its path is short enough. -/
def PresentationsFit (trees : List Tree) (c : Bytes) : Prop :=
  ∀ t ∈ trees, t.enabled = true → ∀ rt, (compile t).mounts.lookup rt.path = some rt →
    under c rt.binding.target = true →
    (compile t).winner (rt.path ++ c.drop rt.binding.target.length) = some rt →
      rt.path.length + (c.length - rt.binding.target.length) ≤ 65535

theorem presentationsValid_iff (h : PairwiseValid trees) (hc : ValidTopic c) :
    PresentationsValid trees c ↔ PresentationsFit trees c := by
  have hmount : ∀ {rt : Route}, rt.Valid trees → under c rt.binding.target = true →
      (ValidTopic (rt.path ++ c.drop rt.binding.target.length) ↔
        rt.path.length + (c.length - rt.binding.target.length) ≤ 65535) := by
    intro rt hrt hu
    rw [← length_drop]
    exact validTopic_append_iff hrt.path (eq_append_drop hu ▸ hc) (remainder_of_under hu)
  constructor
  · intro hp t ht hen rt hlook hu hw
    have hkind : ¬ rt.binding.kind = .exact := by
      rw [(((h.routes ht).mounts _ _).mp hlook).route.kind]
      decide
    apply (hmount (route_valid h ht hw) hu).mp
    apply hp
    refine (mem_presentations_iff).mpr (.inr ((mem_names_iff h).mpr ⟨t, ht, hen, rt, hw, ?_⟩))
    rw [canonical_mount hkind, drop_left]
    exact (eq_append_drop hu).symm
  · intro hfits name hm
    rcases (mem_presentations_iff).mp hm with ⟨-, rfl⟩ | hm
    · exact hc
    · obtain ⟨t, ht, hen, rt, hw, hcan⟩ := (mem_names_iff h).mp hm
      have hrt := route_valid h ht hw
      obtain ⟨hu, -, ⟨-, hpath, -⟩ | ⟨hkind, hlook⟩⟩ := winner_spec h ht hw
      · rw [← hpath]
        exact hrt.path
      · rw [canonical_mount hkind] at hcan
        have hunder : under c rt.binding.target = true := hcan ▸ under_append_drop hu _
        have hname : name = rt.path ++ c.drop rt.binding.target.length := by
          rw [← hcan, drop_left]
          exact eq_append_drop hu
        rw [hname] at hw ⊢
        exact (hmount hrt hunder).mpr (hfits t ht hen rt hlook hunder hw)

/-- Resolution and projection stay among the valid topic names exactly when the remainders that
they append fit. -/
theorem names_valid_iff (h : PairwiseValid trees) (hv : ValidTopic v) (hc : ValidTopic c) :
    (PublishValid trees v ↔ RemainderFits trees v) ∧
      (PresentationsValid trees c ↔ PresentationsFit trees c) :=
  ⟨publishValid_iff h hv, presentationsValid_iff h hc⟩

end Names

theorem plantTrees_names_valid : (PublishValid [plantTree, officeTree] (ascii "plant/hall/all/db2/x") ↔
      RemainderFits [plantTree, officeTree] (ascii "plant/hall/all/db2/x")) ∧
    (PresentationsValid [plantTree, officeTree] (ascii "opc/x") ↔
      PresentationsFit [plantTree, officeTree] (ascii "opc/x")) := by
  have hv : ValidTopic (ascii "plant/hall/all/db2/x") :=
    ⟨(validName_iff).mp (by decide +kernel), by decide +kernel⟩
  have hc : ValidTopic (ascii "opc/x") := ⟨(validName_iff).mp (by decide +kernel), by decide +kernel⟩
  exact names_valid_iff plantTrees_valid hv hc

def mountTree : Tree where
  schemaVersion := 1
  id := ascii "mount"
  rootPath := ascii "v"
  enabled := true
  nodes := [⟨ascii "1", none, ascii "m", some ⟨.subtree, ascii "area", .readWrite⟩⟩]

def areaTree : Tree where
  schemaVersion := 1
  id := ascii "area"
  rootPath := ascii "area/b"
  enabled := true
  nodes := []

/-- A publish through the mount is accepted and ends in the root of the other tree. -/
theorem mountTree_into_root : PairwiseValid [mountTree, areaTree] ∧ ValidTopic (ascii "v/m/b/x") ∧
    ¬ PublishValid [mountTree, areaTree] (ascii "v/m/b/x") := by
  refine ⟨?_, ⟨(validName_iff).mp (by decide +kernel), by decide⟩, ?_⟩
  · exact pairwiseValid_pair (by decide) (by decide +kernel)
  · intro h
    have hout := (h (ascii "area/b/x") (by decide)).1
    exact absurd hout (by decide)

end MonsterMQ.Virtual
