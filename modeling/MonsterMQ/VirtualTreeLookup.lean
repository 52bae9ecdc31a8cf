import MonsterMQ.VirtualTreeProjection

/-!
# Stored items under their names

The lookup of stored items for a filter: the canonical queries find every item that the
filter sees under one of its names, and each name is emitted once, with the item whose
canonical topic it stands for.
-/

namespace MonsterMQ.Virtual

open LittleEndian PeerLink Auth Topics List

theorem covers_append_left {fs ts : List Bytes} (ls : List Bytes) (h : Covers fs ts) :
    Covers (ls ++ fs) (ls ++ ts) := by
  induction ls with
  | nil => exact h
  | cons l ls ih => exact .same l ih

def restLevelsOf (rest : Bytes) : List Bytes :=
  match rest with
  | [] => []
  | _ :: s => levels s

theorem levels_append_rest {topic rest : Bytes} (h : rest = [] ∨ rest.head? = some slashByte) :
    levels (topic ++ rest) = levels topic ++ restLevelsOf rest := by
  cases rest with
  | nil => rw [append_nil, restLevelsOf, append_nil]
  | cons b s =>
    rcases h with h | h
    · cases h
    · rw [List.head?_cons, Option.some.injEq] at h
      rw [h, levels_append]
      rfl

private theorem drop_of_under {a b : Bytes} (h : under a b = true) :
    a.drop b.length = [] ∨ (a.drop b.length).head? = some slashByte := by
  rcases (under_iff).mp h with rfl | ⟨rest, rfl⟩
  · exact .inl drop_length
  · right
    rw [drop_left, List.head?_cons]

theorem matches_of_concrete {target q topic : Bytes} {fs : List Bytes} (hc : Concrete target)
    (hq : levels q = levels target ++ fs) (hcov : Covers (levels q) (levels topic)) : Matches q topic := by
  refine (matches_iff_levels).mpr ⟨hcov, fun _ => ?_⟩
  rw [hq]
  rcases ht : levels target with _ | ⟨l, ls⟩
  · exact absurd ht (levels_ne_nil target)
  · have hl := concreteLevels_levels hc l (ht ▸ mem_cons_self)
    constructor
    · intro heq
      rw [Option.some.inj heq] at hl
      exact hl.2.2 (by decide)
    · intro heq
      rw [Option.some.inj heq] at hl
      exact hl.2.1 (by decide)

theorem exists_mount_query {target rest : Bytes} (hc : Concrete target)
    (hrest : rest = [] ∨ rest.head? = some slashByte) {fs ps : List Bytes} (hlast : HashLast fs)
    (hslash : ∀ f ∈ fs, slashByte ∉ f) (hcov : Covers fs (ps ++ restLevelsOf rest)) :
    ∃ q ∈ mountFilters target fs ps, Matches q (target ++ rest) := by
  have hall : Matches (target ++ ascii "/#") (target ++ rest) := by
    have hq := levels_append_hash target
    apply matches_of_concrete hc hq
    rw [hq, levels_append_rest hrest]
    exact covers_append_left _ (.rest _)
  induction ps generalizing fs with
  | nil =>
    rw [mountFilters]
    rw [nil_append] at hcov
    by_cases hnil : fs = []
    · rw [if_pos hnil]
      refine ⟨target, mem_singleton_self _, ?_⟩
      rw [hnil] at hcov
      apply matches_of_concrete hc (append_nil _).symm
      rw [levels_append_rest hrest]
      have := covers_append_left (levels target) hcov
      rwa [append_nil] at this
    · rw [if_neg hnil]
      split
      · exact ⟨_, mem_cons_self, hall⟩
      · refine ⟨_, mem_singleton_self _, ?_⟩
        have hq : levels (target ++ slashByte :: joinLevels fs) = levels target ++ fs := by
          rw [levels_append, levels_joinLevels hnil hslash]
        apply matches_of_concrete hc hq
        rw [hq, levels_append_rest hrest]
        exact covers_append_left _ hcov
  | cons p ps ih =>
    cases fs with
    | nil => cases hcov
    | cons f fs =>
      rw [mountFilters]
      by_cases hh : f = hashLevel
      · rw [if_pos hh]
        exact ⟨_, mem_cons_self, hall⟩
      · rw [cons_append] at hcov
        obtain ⟨hsame, hcov⟩ := (covers_cons_iff hh).mp hcov
        have htest := (level_test_iff).mpr hsame
        rw [if_neg hh, htest, if_neg (by decide)]
        exact ih hlast.2 (fun g hg => hslash g (mem_cons_of_mem _ hg)) hcov

theorem mem_sortedRoutes_iff {m : List (Bytes × Route)} {rt : Route} :
    rt ∈ sortedRoutes m ↔ ∃ p, (p, rt) ∈ m := by
  rw [sortedRoutes, mem_mergeSort, mem_map]
  constructor
  · rintro ⟨⟨p, rt'⟩, hm, rfl⟩
    exact ⟨p, hm⟩
  · rintro ⟨p, hm⟩
    exact ⟨(p, rt), hm, rfl⟩

private theorem mem_distinct_iff {q : Bytes} {l : List Bytes} : ∀ {out : List Bytes},
    q ∈ l.foldl (fun out f => if f ∈ out then out else out ++ [f]) out ↔ q ∈ out ∨ q ∈ l := by
  induction l with
  | nil =>
    intro out
    exact (or_iff_left not_mem_nil).symm
  | cons f l ih =>
    intro out
    rw [foldl_cons, ih, mem_cons, ← or_assoc]
    apply or_congr_left
    split
    · rename_i hm
      constructor
      · exact .inl
      · rintro (hq | rfl)
        · exact hq
        · exact hm
    · rw [mem_append, mem_singleton]

section Lookup

variable {trees : List Tree} {filter c v : Bytes}

theorem mem_canonicalQueries (h : PairwiseValid trees) {t : Tree} (ht : t ∈ trees)
    (hen : t.enabled = true) {rt : Route} {q : Bytes} (hq : q ∈ canonicalFilters filter rt)
    (hrt : (compile t).exact.lookup rt.path = some rt ∨
      (compile t).mounts.lookup rt.path = some rt) :
    q ∈ (newResolver trees).canonicalQueries filter := by
  rw [Resolver.canonicalQueries, mem_distinct_iff]
  right
  refine mem_flatMap.mpr ⟨compile t, (mem_enabled_iff h).mpr ⟨t, ht, hen, rfl⟩, ?_⟩
  rw [mem_append]
  rcases hrt with hlook | hlook
  · left
    refine mem_flatMap.mpr ⟨rt, (mem_sortedRoutes_iff).mpr ⟨rt.path, ?_⟩, hq⟩
    exact (mem_iff_lookup (h.routes ht).exactKeys).mpr hlook
  · right
    refine mem_flatMap.mpr ⟨rt, (mem_sortedRoutes_iff).mpr ⟨rt.path, ?_⟩, hq⟩
    exact (mem_iff_lookup (h.routes ht).mountKeys).mpr hlook

theorem target_of_route (h : PairwiseValid trees) {t : Tree} (ht : t ∈ trees) {rt : Route}
    (hrt : (compile t).exact.lookup rt.path = some rt ∨
      (compile t).mounts.lookup rt.path = some rt) : ValidTopic rt.binding.target := by
  obtain ⟨before, after, -, hvalid⟩ := h.tree ht
  rcases hrt with hlook | hlook
  · obtain ⟨n, hn, b, -, hb, -, heq⟩ := ((h.routes ht).exact _ _).mp hlook
    rw [heq]
    exact (hvalid.binding n hn b hb).target
  · obtain ⟨n, hn, b, -, hb, -, heq⟩ := ((h.routes ht).mounts _ _).mp hlook
    rw [heq]
    exact (hvalid.binding n hn b hb).target

theorem exists_query (h : PairwiseValid trees) (hw : WholeLevels (levels filter))
    (hv : v ∈ names (newResolver trees) c) (hm : Matches filter v) :
    ∃ q ∈ (newResolver trees).canonicalQueries filter, Matches q c := by
  obtain ⟨t, ht, hen, rt, hwin, hcan⟩ := (mem_names_iff h).mp hv
  obtain ⟨hu, -, ⟨hkind, hpath, hlook⟩ | ⟨hkind, hlook⟩⟩ := winner_spec h ht hwin
  · rw [canonical_exact hkind] at hcan
    have htarget := target_of_route h ht (.inl hlook)
    have hq : canonicalFilters filter rt = [c] := by
      rw [canonicalFilters, if_pos hkind, hpath, if_pos ((virtualMatch_iff hw).mpr hm), hcan]
    refine ⟨c, mem_canonicalQueries h ht hen (hq ▸ mem_singleton_self c) (.inl hlook), ?_⟩
    rw [hcan] at htarget
    exact matches_of_concrete htarget.concrete (append_nil _).symm (covers_self _)
  · rw [canonical_mount hkind] at hcan
    have htarget := target_of_route h ht (.inr hlook)
    have hrest := drop_of_under hu
    have hcov : Covers (levels filter) (levels rt.path ++ restLevelsOf (v.drop rt.path.length)) := by
      rw [← levels_append_rest hrest, ← eq_append_drop hu]
      exact hm.1
    obtain ⟨q, hq, hmatch⟩ := exists_mount_query htarget.concrete hrest hw.hashLast
      (fun f hf => slash_not_mem_levels hf) hcov
    rw [hcan] at hmatch
    refine ⟨q, mem_canonicalQueries h ht hen ?_ (.inr hlook), hmatch⟩
    rw [canonicalFilters, if_neg hkind]
    exact hq

end Lookup

section Emission

variable {T : Type}

def always : Bytes → T → Bool := fun _ _ => true

/-- An item under a name, emitted unless the name has been seen. -/
@[grind =] def Found.addNew (s : Found T) (e : Bytes × T) : Found T :=
  if e.1 ∈ s.seen then s else s.add always e.1 e.2

@[grind =] def Found.addAll (l : List (Bytes × T)) (s : Found T) : Found T := l.foldl Found.addNew s

/-- The names seen are those emitted, none of them twice, and nothing has stopped the lookup. -/
structure Found.Sound (s : Found T) : Prop where
  seen : ∀ name, name ∈ s.seen ↔ name ∈ s.emitted.map Prod.fst
  once : (s.emitted.map Prod.fst).Nodup
  going : s.stop = false

theorem addNew_sound {s : Found T} (h : s.Sound) (e : Bytes × T) : (s.addNew e).Sound := by
  rw [Found.addNew]
  split
  · exact h
  · rename_i hseen
    refine ⟨?_, ?_, ?_⟩
    · intro name
      rw [Found.add]
      dsimp only
      rw [mem_cons, h.seen, map_append, mem_append, or_comm]
      simp
    · rw [Found.add]
      dsimp only
      rw [map_append, map_cons, map_nil, nodup_append]
      refine ⟨h.once, nodup_cons.mpr ⟨not_mem_nil, nodup_nil⟩, ?_⟩
      intro a ha b hb heq
      rw [mem_singleton.mp hb] at heq
      exact hseen ((h.seen _).mpr (heq ▸ ha))
    · rw [Found.add]
      dsimp only
      rw [h.going]
      rfl

variable {l : List (Bytes × T)}

theorem addAll_sound : ∀ {s : Found T}, s.Sound → (s.addAll l).Sound := by
  induction l with
  | nil =>
    intro s h
    exact h
  | cons e l ih =>
    intro s h
    exact ih (addNew_sound h e)

theorem emitted_addAll_subset : ∀ {s : Found T} {e : Bytes × T},
    e ∈ (s.addAll l).emitted → e ∈ s.emitted ∨ e ∈ l := by
  induction l with
  | nil =>
    intro s e h
    exact .inl h
  | cons d l ih =>
    intro s e h
    rcases ih h with h | h
    · rw [Found.addNew] at h
      split at h
      · exact .inl h
      · rw [Found.add] at h
        rcases mem_append.mp h with h | h
        · exact .inl h
        · right
          rw [mem_singleton.mp h]
          exact mem_cons_self
    · exact .inr (mem_cons_of_mem _ h)

theorem names_addAll : ∀ {s : Found T}, s.Sound → ∀ name,
    name ∈ s.emitted.map Prod.fst ∨ name ∈ l.map Prod.fst → name ∈ (s.addAll l).emitted.map Prod.fst := by
  induction l with
  | nil =>
    rintro s h name (hm | hm)
    · exact hm
    · exact absurd hm not_mem_nil
  | cons e l ih =>
    intro s h name hm
    apply ih (addNew_sound h e)
    have hkeep : ∀ name, name ∈ s.emitted.map Prod.fst → name ∈ (s.addNew e).emitted.map Prod.fst := by
      intro name hm
      rw [Found.addNew]
      split
      · exact hm
      · rw [Found.add, map_append]
        exact mem_append_left _ hm
    have hnew : e.1 ∈ (s.addNew e).emitted.map Prod.fst := by
      rw [Found.addNew]
      split
      · rename_i hseen
        exact (h.seen _).mp hseen
      · rw [Found.add, map_append]
        exact mem_append_right _ (mem_singleton_self _)
    rcases hm with hm | hm
    · exact .inl (hkeep name hm)
    · rw [map_cons, mem_cons] at hm
      rcases hm with rfl | hm
      · exact .inl hnew
      · exact .inr hm

theorem empty_sound : ({} : Found T).Sound := ⟨fun _ => Iff.rfl, nodup_nil, rfl⟩

theorem mem_addAll_iff (hone : ∀ name i j, (name, i) ∈ l → (name, j) ∈ l → i = j) (name : Bytes) (item : T) :
    (name, item) ∈ (Found.addAll l {}).emitted ↔ (name, item) ∈ l := by
  constructor
  · intro h
    rcases emitted_addAll_subset h with h | h
    · exact absurd h not_mem_nil
    · exact h
  · intro h
    have hname := names_addAll empty_sound name (.inr (mem_map.mpr ⟨_, h, rfl⟩))
    obtain ⟨⟨name', item'⟩, hm, rfl⟩ := mem_map.mp hname
    rcases emitted_addAll_subset hm with hm' | hm'
    · exact absurd hm' not_mem_nil
    · rw [← hone name' item' item hm' h]
      exact hm

variable {r : Resolver} {filter : Bytes} {finder : Bytes → List T} {topicOf : T → Bytes}

theorem eachItem_eq {callback : T → Found T → Found T} {cand : T → List (Bytes × T)}
    (hc : ∀ item s, Found.Sound s → callback item s = s.addAll (cand item)) (items : List T) :
    ∀ s : Found T, s.Sound → eachItem callback items s = s.addAll (items.flatMap cand) := by
  induction items with
  | nil =>
    intro s _
    rfl
  | cons item items ih =>
    intro s h
    have hnext := addAll_sound (l := cand item) h
    rw [eachItem, hc item s h, hnext.going, if_neg (by decide), ih _ hnext, flatMap_cons, Found.addAll, Found.addAll,
      Found.addAll, foldl_append]

@[grind =] def ownName (r : Resolver) (topicOf : T → Bytes) (item : T) : List (Bytes × T) :=
  if r.inVirtualNamespace (topicOf item) then [] else [(topicOf item, item)]

private theorem physicalItem_eq (item : T) (s : Found T) :
    physicalItem r topicOf always item s = s.addAll (ownName r topicOf item) := by
  rw [physicalItem, ownName]
  cases r.inVirtualNamespace (topicOf item) with
  | true => rfl
  | false =>
    show _ = s.addNew (topicOf item, item)
    rw [Found.addNew]
    by_cases hseen : topicOf item ∈ s.seen
    · simp [hseen]
    · simp [hseen]

@[grind =] def virtualNames (filter : Bytes) (item : T) (ps : List Presentation) : List (Bytes × T) :=
  (ps.filter fun p => virtualMatch filter p.virtual).map fun p => (p.virtual, item)

theorem eachPresentation_eq (item : T) (ps : List Presentation) : ∀ s : Found T, s.Sound →
    eachPresentation filter always item ps s = s.addAll (virtualNames filter item ps) := by
  induction ps with
  | nil =>
    intro s _
    rfl
  | cons p ps ih =>
    intro s h
    rw [eachPresentation, virtualNames, filter_cons]
    cases hmatch : virtualMatch filter p.virtual with
    | false => exact ih s h
    | true =>
      have hnext := addNew_sound h (p.virtual, item)
      rw [if_pos rfl, map_cons, Found.addAll, foldl_cons]
      have hfold : (virtualNames filter item ps).foldl Found.addNew (s.addNew (p.virtual, item)) =
          eachPresentation filter always item ps (s.addNew (p.virtual, item)) := (ih _ hnext).symm
      refine Eq.trans ?_ hfold.symm
      rw [Found.addNew] at hnext ⊢
      dsimp only at hnext ⊢
      by_cases hseen : p.virtual ∈ s.seen
      · simp [hseen]
      · rw [if_neg hseen] at hnext
        simp [hseen, hnext.going]

theorem eachQuery_eq (qs : List Bytes) : ∀ s : Found T, s.Sound →
    eachQuery r filter finder topicOf always qs s = s.addAll (qs.flatMap fun q =>
      (finder q).flatMap fun item => virtualNames filter item (r.project (topicOf item))) := by
  induction qs with
  | nil =>
    intro s _
    rfl
  | cons q qs ih =>
    intro s h
    have hitem : ∀ item s, Found.Sound s →
        eachPresentation filter always item (r.project (topicOf item)) s =
          s.addAll (virtualNames filter item (r.project (topicOf item))) :=
      fun item => eachPresentation_eq item _
    have hitems := eachItem_eq hitem (finder q) s h
    have hnext := addAll_sound (l := (finder q).flatMap fun item =>
      virtualNames filter item (r.project (topicOf item))) h
    rw [eachQuery, hitems, hnext.going, if_neg (by decide), ih _ hnext, flatMap_cons, Found.addAll, Found.addAll,
      Found.addAll, foldl_append]

/-- The pairs that the two phases of the lookup go through. -/
@[grind =] def candidates (r : Resolver) (filter : Bytes) (finder : Bytes → List T) (topicOf : T → Bytes) :
    List (Bytes × T) :=
  (finder filter).flatMap (ownName r topicOf) ++ (r.canonicalQueries filter).flatMap fun q =>
    (finder q).flatMap fun item => virtualNames filter item (r.project (topicOf item))

theorem findPresented_eq : findPresented r filter finder topicOf always =
    Found.addAll (candidates r filter finder topicOf) {} := by
  have hown : ∀ item s, Found.Sound s →
      physicalItem r topicOf always item s = s.addAll (ownName r topicOf item) :=
    fun item s _ => physicalItem_eq item s
  have hphysical := eachItem_eq hown (finder filter) {} empty_sound
  have hnext := addAll_sound (l := (finder filter).flatMap (ownName r topicOf)) empty_sound
  rw [findPresented, hphysical, hnext.going, Bool.false_or, candidates]
  cases hempty : r.isEmpty with
  | true =>
    have hqueries : r.canonicalQueries filter = [] := by
      rw [Resolver.canonicalQueries, Resolver.enabled, isEmpty_iff.mp hempty]
      rfl
    rw [if_pos rfl, hqueries, flatMap_nil, append_nil]
  | false =>
    rw [if_neg (by decide), eachQuery_eq _ _ hnext, Found.addAll, Found.addAll, Found.addAll,
      foldl_append]

end Emission

section Lookup

variable {T : Type} {trees : List Tree} {filter : Bytes} {stored : List T} {topicOf : T → Bytes}
  {finder : Bytes → List T}

theorem mem_presented_iff {r : Resolver} (hw : WholeLevels (levels filter)) {c name : Bytes} :
    name ∈ r.presented filter c ↔ name ∈ r.presentations c ∧ Matches filter name := by
  rw [Resolver.presented, mem_mergeSort, mem_filter, virtualMatch_iff hw]

theorem mem_ownName_iff {r : Resolver} {name : Bytes} {item it : T} : (name, item) ∈ ownName r topicOf it ↔
      item = it ∧ r.inVirtualNamespace (topicOf item) = false ∧ name = topicOf item := by
  rw [ownName]
  split
  · rename_i hin
    refine iff_of_false not_mem_nil ?_
    rintro ⟨rfl, hout, -⟩
    rw [hin] at hout
    cases hout
  · rename_i hout
    rw [mem_singleton, Prod.mk.injEq]
    constructor
    · rintro ⟨rfl, rfl⟩
      exact ⟨rfl, Bool.not_eq_true _ ▸ hout, rfl⟩
    · rintro ⟨rfl, -, rfl⟩
      exact ⟨rfl, rfl⟩

theorem mem_virtualNames_iff {r : Resolver} (hw : WholeLevels (levels filter)) {name : Bytes}
    {item it : T} : (name, item) ∈ virtualNames filter it (r.project (topicOf it)) ↔
      item = it ∧ name ∈ names r (topicOf item) ∧ Matches filter name := by
  rw [virtualNames, mem_map]
  constructor
  · rintro ⟨p, hp, heq⟩
    obtain ⟨rfl, rfl⟩ := Prod.mk.inj heq
    obtain ⟨hp, hm⟩ := mem_filter.mp hp
    exact ⟨rfl, mem_map.mpr ⟨p, hp, rfl⟩, (virtualMatch_iff hw).mp hm⟩
  · rintro ⟨rfl, hname, hm⟩
    obtain ⟨p, hp, rfl⟩ := mem_map.mp hname
    exact ⟨p, mem_filter.mpr ⟨hp, (virtualMatch_iff hw).mpr hm⟩, rfl⟩

def FindsMatching (stored : List T) (topicOf : T → Bytes) (finder : Bytes → List T) : Prop :=
  ∀ q item, item ∈ finder q ↔ item ∈ stored ∧ Matches q (topicOf item)

theorem mem_candidates_iff (h : PairwiseValid trees) (hw : WholeLevels (levels filter))
    (hf : FindsMatching stored topicOf finder) {name : Bytes} {item : T} :
    (name, item) ∈ candidates (newResolver trees) filter finder topicOf ↔
      item ∈ stored ∧ name ∈ (newResolver trees).presented filter (topicOf item) := by
  rw [candidates, mem_append, mem_presented_iff hw, mem_presentations_iff]
  constructor
  · rintro (hm | hm)
    · obtain ⟨it, hit, hm⟩ := mem_flatMap.mp hm
      obtain ⟨rfl, hout, rfl⟩ := (mem_ownName_iff).mp hm
      obtain ⟨hstored, hmatch⟩ := (hf _ _).mp hit
      exact ⟨hstored, .inl ⟨hout, rfl⟩, hmatch⟩
    · obtain ⟨q, -, hm⟩ := mem_flatMap.mp hm
      obtain ⟨it, hit, hm⟩ := mem_flatMap.mp hm
      obtain ⟨rfl, hname, hmatch⟩ := (mem_virtualNames_iff hw).mp hm
      exact ⟨((hf _ _).mp hit).1, .inr hname, hmatch⟩
  · rintro ⟨hstored, ⟨hout, rfl⟩ | hname, hmatch⟩
    · left
      exact mem_flatMap.mpr ⟨item, (hf _ _).mpr ⟨hstored, hmatch⟩,
        (mem_ownName_iff).mpr ⟨rfl, hout, rfl⟩⟩
    · right
      obtain ⟨q, hq, hmq⟩ := exists_query h hw hname hmatch
      exact mem_flatMap.mpr ⟨q, hq, mem_flatMap.mpr ⟨item, (hf _ _).mpr ⟨hstored, hmq⟩,
        (mem_virtualNames_iff hw).mpr ⟨rfl, hname, hmatch⟩⟩⟩

/-- The lookup of stored items emits the names under which they would be delivered live, each
name once. -/
theorem findPresented_exact (h : PairwiseValid trees) (hv : ValidFilter filter)
    (hs : (stored.map topicOf).Nodup) (hf : FindsMatching stored topicOf finder) :
    let found := (findPresented (newResolver trees) filter finder topicOf always).emitted
    (∀ name item, (name, item) ∈ found ↔
      item ∈ stored ∧ name ∈ (newResolver trees).presented filter (topicOf item)) ∧
    (found.map Prod.fst).Nodup := by
  have hw := hv.whole
  have hone : ∀ name i j, (name, i) ∈ candidates (newResolver trees) filter finder topicOf →
      (name, j) ∈ candidates (newResolver trees) filter finder topicOf → i = j := by
    intro name i j hi hj
    obtain ⟨hi, hni⟩ := (mem_candidates_iff h hw hf).mp hi
    obtain ⟨hj, hnj⟩ := (mem_candidates_iff h hw hf).mp hj
    apply inj_on_of_nodup_map hs hi hj
    exact canonical_unique h ((mem_presented_iff hw).mp hni).1 ((mem_presented_iff hw).mp hnj).1
  dsimp only
  rw [findPresented_eq]
  refine ⟨?_, (addAll_sound empty_sound).once⟩
  intro name item
  rw [mem_addAll_iff hone, mem_candidates_iff h hw hf]

end Lookup

def storedTopics : List Bytes := [ascii "s7/db1/temp", ascii "s7/db2/level", ascii "x"]

theorem plantTrees_lookup :
    let found := (findPresented (newResolver [plantTree, officeTree]) (ascii "plant/#")
      (fun q => storedTopics.filter fun t => Matches q t) id always).emitted
    (∀ name item, (name, item) ∈ found ↔ item ∈ storedTopics ∧
      name ∈ (newResolver [plantTree, officeTree]).presented (ascii "plant/#") item) ∧
    (found.map Prod.fst).Nodup := by
  have hfilter : ValidFilter (ascii "plant/#") :=
    ⟨(validName_iff).mp (by decide +kernel), wholeLevels_of_valid (by decide)⟩
  have hfinder : FindsMatching storedTopics id
      (fun q => storedTopics.filter fun t => Matches q t) := by
    intro q item
    rw [mem_filter, decide_eq_true_eq, id]
  exact findPresented_exact plantTrees_valid hfilter (by decide) hfinder

end MonsterMQ.Virtual
