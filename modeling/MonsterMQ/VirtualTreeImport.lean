import MonsterMQ.VirtualTreeProjection

/-!
# Importing virtual trees

`Manager.Import` of `internal/virtualtrees/manager.go`. Imported trees are stored disabled, but a
disabled tree reserves its root and may take the place of an enabled one. Routing stays what it
was when no enabled tree is replaced and the reserved roots are the same afterwards.
-/

namespace MonsterMQ.Virtual

open LittleEndian PeerLink Auth Topics List

def Code.text : Code → Bytes
  | .invalidTopic => ascii "INVALID_TOPIC"
  | .schemaVersion => ascii "UNSUPPORTED_SCHEMA_VERSION"
  | .reservedTopic => ascii "RESERVED_TOPIC"
  | .duplicateID => ascii "DUPLICATE_ID"
  | .invalidSegment => ascii "INVALID_SEGMENT"
  | .invalidParent => ascii "INVALID_PARENT"
  | .cycle => ascii "CYCLE"
  | .duplicatePath => ascii "DUPLICATE_PATH"
  | .invalidBinding => ascii "INVALID_BINDING"
  | .unsupportedWild => ascii "UNSUPPORTED_WILDCARD"
  | .targetInRoot => ascii "TARGET_IN_VIRTUAL_ROOT"
  | .rootConflict => ascii "ROOT_CONFLICT"

/-- One exported document, with what `ParseJSON` makes of it and what `persist` answers. -/
structure ImportEntry where
  name : Bytes
  config : Except Bytes Tree
  persisted : Except Bytes Unit

structure ImportResult where
  imported : ℕ := 0
  failed : ℕ := 0
  errors : List Bytes := []

def importTree (e : ImportEntry) : Except Bytes Tree := do
  let t ← e.config
  let t := { t with enabled := false, id := if t.id = [] then e.name else t.id }
  if e.name ≠ [] ∧ e.name ≠ t.id then
    .error (ascii "device name " ++ quoted e.name ++ ascii " differs from tree id " ++ quoted t.id)
  else .ok t

@[grind =] def others (trees : List Tree) (id : Bytes) : List Tree := trees.filter fun o => o.id ≠ id

def issueText : List Issue → Bytes
  | [] => []
  | [i] => i.code.text ++ ascii ": " ++ i.message
  | i :: is => i.code.text ++ ascii ": " ++ i.message ++ ascii ", " ++ issueText is

def checkEntry (current : List Tree) (e : ImportEntry) : Except Bytes Tree := do
  let t ← importTree e
  match validate t (others current t.id) with
  | [] => e.persisted
  | issues => .error (issueText issues)
  return t

@[grind =] def setTree (current : List Tree) (t : Tree) : List Tree := others current t.id ++ [t]

def importOne (s : ImportResult × List Tree) (e : ImportEntry) : ImportResult × List Tree :=
  match checkEntry s.2 e with
  | .ok t => ({ s.1 with imported := s.1.imported + 1 }, setTree s.2 t)
  | .error message =>
    let name := if e.name = [] then ascii "?" else e.name
    ({ s.1 with
      failed := s.1.failed + 1
      errors := s.1.errors ++ [ascii "Virtual topic tree " ++ quoted name ++ ascii ": " ++ message] }, s.2)

def byID (t t' : Tree) : Bool := Resolver.textLE t.id t'.id

def importTrees (stored : List Tree) (entries : List ImportEntry) : ImportResult × List Tree :=
  let (res, current) := entries.foldl importOne ({}, stored)
  (res, if res.imported > 0 then current.mergeSort byID else stored)

@[grind =] def accepted : List Tree → List ImportEntry → List Tree
  | _, [] => []
  | current, e :: entries =>
    match checkEntry current e with
    | .ok t => t :: accepted (setTree current t) entries
    | .error _ => accepted current entries

theorem foldl_importOne (entries : List ImportEntry) : ∀ (res : ImportResult) (current : List Tree),
    (entries.foldl importOne (res, current)).2 = (accepted current entries).foldl setTree current ∧
      (entries.foldl importOne (res, current)).1.imported =
        res.imported + (accepted current entries).length := by
  induction entries with
  | nil => exact fun _ _ => ⟨rfl, rfl⟩
  | cons e entries ih =>
    intro res current
    rw [foldl_cons, importOne, accepted]
    cases hcheck : checkEntry current e with
    | ok t =>
      obtain ⟨htrees, hcount⟩ := ih { res with imported := res.imported + 1 } (setTree current t)
      refine ⟨htrees, ?_⟩
      rw [hcount, length_cons]
      dsimp only
      omega
    | error message => exact ih _ current

def LastOf (ts : List Tree) (t : Tree) : Prop :=
  ∃ before after, ts = before ++ t :: after ∧ ∀ u ∈ after, u.id ≠ t.id

theorem mem_setTree {current : List Tree} {t u : Tree} :
    u ∈ setTree current t ↔ (u ∈ current ∧ u.id ≠ t.id) ∨ u = t := by
  simp [setTree, others]

theorem lastOf_append {ts : List Tree} {t u : Tree} :
    LastOf (ts ++ [t]) u ↔ (LastOf ts u ∧ u.id ≠ t.id) ∨ u = t := by
  constructor
  · rintro ⟨before, after, heq, hlast⟩
    rcases eq_nil_or_concat after with rfl | ⟨after, w, rfl⟩
    · obtain ⟨-, htu⟩ := append_inj' heq rfl
      exact .inr (List.cons.inj htu).1.symm
    · rw [concat_eq_append, ← cons_append, ← append_assoc] at heq
      obtain ⟨hts, htw⟩ := append_inj' heq rfl
      have hw : w = t := (List.cons.inj htw).1.symm
      subst hw
      refine .inl ⟨⟨before, after, hts, ?_⟩, ?_⟩
      · exact fun x hx => hlast x (by simp [hx])
      · exact Ne.symm (hlast w (by simp))
  · rintro (⟨⟨before, after, rfl, hlast⟩, hne⟩ | rfl)
    · refine ⟨before, after ++ [t], by simp, ?_⟩
      intro x hx
      rcases mem_append.mp hx with hx | hx
      · exact hlast x hx
      · rw [mem_singleton.mp hx]
        exact Ne.symm hne
    · exact ⟨ts, [], rfl, by simp⟩

theorem mem_foldl_setTree (ts : List Tree) (stored : List Tree) (u : Tree) :
    u ∈ ts.foldl setTree stored ↔ (u ∈ stored ∧ ∀ t ∈ ts, u.id ≠ t.id) ∨ LastOf ts u := by
  induction ts using List.reverseRecOn with
  | nil =>
    have hnone : ¬ LastOf [] u := by
      rintro ⟨before, after, heq, -⟩
      simp at heq
    simp [hnone]
  | append_singleton ts t ih =>
    rw [foldl_append, foldl_cons, foldl_nil, mem_setTree, ih, lastOf_append]
    constructor
    · rintro (⟨⟨hu, hne⟩ | hlast, hid⟩ | heq)
      · left
        refine ⟨hu, ?_⟩
        intro x hx
        rcases mem_append.mp hx with hx | hx
        · exact hne x hx
        · rw [mem_singleton.mp hx]
          exact hid
      · exact .inr (.inl ⟨hlast, hid⟩)
      · exact .inr (.inr heq)
    · rintro (⟨hu, hne⟩ | ⟨hlast, hid⟩ | heq)
      · left
        refine ⟨.inl ⟨hu, fun x hx => hne x (mem_append_left _ hx)⟩, ?_⟩
        exact hne t (mem_append_right _ (mem_singleton.mpr rfl))
      · exact .inl ⟨.inr hlast, hid⟩
      · exact .inr heq

theorem winner_root (t : Tree) : (compile t).winner t.rootPath = none := by
  have hfold : ∀ (ns : List Node) (c : Compiled),
      (∀ p rt, c.exact.lookup p = some rt ∨ c.mounts.lookup p = some rt → ∃ id, PathOf t id p) →
      ∀ p rt, (ns.foldl (Compiled.addNode t.paths) c).exact.lookup p = some rt ∨
        (ns.foldl (Compiled.addNode t.paths) c).mounts.lookup p = some rt → ∃ id, PathOf t id p := by
    intro ns
    induction ns with
    | nil => exact fun c h => h
    | cons n ns ih =>
      intro c h
      rw [foldl_cons]
      apply ih
      rw [Compiled.addNode]
      split
      · exact h
      · rename_i q hq
        have hpath := paths_pathOf t n.id q hq
        split
        · exact h
        · split
          · intro p rt hp
            dsimp only at hp
            rw [lookup_setKey] at hp
            split at hp
            · rename_i heq
              exact ⟨n.id, heq ▸ hpath⟩
            · exact h p rt hp
          · intro p rt hp
            dsimp only at hp
            rw [lookup_setKey] at hp
            split at hp
            · rename_i heq
              exact ⟨n.id, heq ▸ hpath⟩
            · exact h p rt hp
  have hbelow : ∀ p rt, (compile t).exact.lookup p = some rt ∨ (compile t).mounts.lookup p = some rt →
      under t.rootPath p = false := by
    intro p rt hp
    obtain ⟨id, hpath⟩ := hfold t.nodes ⟨t, [], []⟩ (by simp) p rt hp
    obtain ⟨rest, hrest⟩ := hpath.below_root
    rw [← Bool.not_eq_true, under_iff, hrest]
    rintro (heq | ⟨more, heq⟩)
    · have hlen := congrArg List.length heq
      simp at hlen
    · have hlen := congrArg List.length heq
      simp at hlen
  cases hw : (compile t).winner t.rootPath with
  | none => rfl
  | some rt =>
    rcases winner_cases hw with hp | ⟨-, p, hu, hp⟩
    · have hself := hbelow _ rt (.inl hp)
      rw [under_refl] at hself
      cases hself
    · rw [hbelow p rt (.inr hp)] at hu
      cases hu

theorem publish_root {trees : List Tree} (h : RootsApart trees) {t : Tree} (ht : t ∈ trees) :
    (newResolver trees).publish t.rootPath = .error (if t.enabled then .unbound else .disabled) := by
  rw [Resolver.publish, owner_eq h ht (under_refl _)]
  dsimp only
  rw [compile_tree, winner_root]
  cases t.enabled <;> rfl

structure SameRouting (r r' : Resolver) : Prop where
  publish : ∀ topic, r'.publish topic = r.publish topic
  readResolve : ∀ topic, r'.readResolve topic = r.readResolve topic
  presented : ∀ filter topic, r'.presented filter topic = r.presented filter topic

def Reserved (trees : List Tree) (root : Bytes) : Prop :=
  ∃ d ∈ trees, d.enabled = false ∧ d.rootPath = root

theorem enabled_newResolver (trees : List Tree) :
    (newResolver trees).enabled = (trees.filter fun t => t.enabled).map compile := by
  rw [Resolver.enabled, newResolver, filter_map]
  congr 2
  funext t
  rw [Function.comp_apply, compile_tree]

private theorem project_congr {r r' : Resolver} (h : r'.enabled = r.enabled) (topic : Bytes) :
    r'.project topic = r.project topic := by
  simp only [Resolver.project, Resolver.exactByTarget, Resolver.mountsByTarget, Resolver.byTarget, h]

section Routing

variable {trees trees' : List Tree}

theorem owner_cases (h : RootsApart trees) (h' : RootsApart trees')
    (henabled : ∀ t, t.enabled = true → (t ∈ trees ↔ t ∈ trees'))
    (hroots : ∀ root, Reserved trees root ↔ Reserved trees' root) (topic : Bytes) :
    (newResolver trees').owner topic = (newResolver trees).owner topic ∨
      ∃ d d', (newResolver trees).owner topic = some (compile d) ∧ d.enabled = false ∧
        (newResolver trees').owner topic = some (compile d') ∧ d'.enabled = false := by
  by_cases hin : ∃ t ∈ trees, under topic t.rootPath = true
  · obtain ⟨t, ht, hu⟩ := hin
    have howner := owner_eq h ht hu
    cases henable : t.enabled with
    | true =>
      left
      rw [howner, owner_eq h' ((henabled t henable).mp ht) hu]
    | false =>
      right
      obtain ⟨d, hd, hdis, hroot⟩ := (hroots t.rootPath).mp ⟨t, ht, henable, rfl⟩
      rw [← hroot] at hu
      exact ⟨t, d, howner, henable, owner_eq h' hd hu, hdis⟩
  · left
    have hout : ∀ t ∈ trees, under topic t.rootPath = false := by
      intro t ht
      rw [← Bool.not_eq_true]
      exact fun hu => hin ⟨t, ht, hu⟩
    have hout' : ∀ t ∈ trees', under topic t.rootPath = false := by
      intro t ht
      cases henable : t.enabled with
      | true => exact hout t ((henabled t henable).mpr ht)
      | false =>
        obtain ⟨d, hd, -, hroot⟩ := (hroots t.rootPath).mpr ⟨t, ht, henable, rfl⟩
        rw [← hroot]
        exact hout d hd
    rw [owner_none hout, owner_none hout']

theorem sameRouting_of (h : RootsApart trees) (h' : RootsApart trees')
    (henabled : ∀ t, t.enabled = true → (t ∈ trees ↔ t ∈ trees'))
    (hlist : (trees'.filter fun t => t.enabled) = trees.filter fun t => t.enabled)
    (hroots : ∀ root, Reserved trees root ↔ Reserved trees' root) :
    SameRouting (newResolver trees) (newResolver trees') := by
  have hcases := owner_cases h h' henabled hroots
  refine ⟨?_, ?_, ?_⟩
  · intro topic
    rw [Resolver.publish, Resolver.publish]
    rcases hcases topic with heq | ⟨d, d', hd, hdis, hd', hdis'⟩
    · rw [heq]
    · rw [hd, hd']
      simp [compile_tree, hdis, hdis']
  · intro topic
    rw [Resolver.readResolve, Resolver.readResolve]
    rcases hcases topic with heq | ⟨d, d', hd, hdis, hd', hdis'⟩
    · rw [heq]
    · rw [hd, hd']
      simp [compile_tree, hdis, hdis']
  · intro filter topic
    have hproject : (newResolver trees').project topic = (newResolver trees).project topic := by
      apply project_congr
      rw [enabled_newResolver, enabled_newResolver, hlist]
    have hinside : (newResolver trees').inVirtualNamespace topic =
        (newResolver trees).inVirtualNamespace topic := by
      rw [Resolver.inVirtualNamespace, Resolver.inVirtualNamespace]
      rcases hcases topic with heq | ⟨d, d', hd, -, hd', -⟩
      · rw [heq]
      · rw [hd, hd']
        rfl
    rw [Resolver.presented, Resolver.presented, Resolver.presentations, Resolver.presentations, hproject,
      hinside]

theorem publish_disabled_iff {topic : Bytes} (h : RootsApart trees) :
    (newResolver trees).publish topic = .error .disabled ↔
      ∃ d ∈ trees, d.enabled = false ∧ under topic d.rootPath = true := by
  constructor
  · intro hp
    rw [Resolver.publish] at hp
    cases howner : (newResolver trees).owner topic with
    | none =>
      rw [howner] at hp
      cases hp
    | some c =>
      obtain ⟨t, ht, rfl, hu⟩ := exists_of_owner howner
      rw [howner] at hp
      dsimp only at hp
      rw [compile_tree] at hp
      refine ⟨t, ht, ?_, hu⟩
      cases henable : t.enabled with
      | false => rfl
      | true =>
        rw [henable] at hp
        simp only [Bool.not_true, Bool.false_eq_true, ↓reduceIte] at hp
        split at hp
        · cases hp
        · split at hp <;> cases hp
  · rintro ⟨d, hd, hdis, hu⟩
    rw [Resolver.publish, owner_eq h hd hu]
    simp [compile_tree, hdis]

private theorem under_antisymm {a b : Bytes} (h : under a b = true) (h' : under b a = true) : a = b := by
  rcases (under_iff).mp h with heq | ⟨rest, heq⟩
  · exact heq
  · rcases (under_iff).mp h' with heq' | ⟨rest', heq'⟩
    · exact heq'.symm
    · have hlen := congrArg List.length heq
      have hlen' := congrArg List.length heq'
      simp at hlen hlen'
      omega

theorem reserved_of_publish (h : RootsApart trees) (h' : RootsApart trees')
    (hp : ∀ topic, (newResolver trees').publish topic = (newResolver trees).publish topic) {root : Bytes}
    (hr : Reserved trees root) : Reserved trees' root := by
  obtain ⟨d, hd, hdis, rfl⟩ := hr
  have hhere := (publish_disabled_iff h).mpr ⟨d, hd, hdis, under_refl _⟩
  rw [← hp] at hhere
  obtain ⟨d', hd', hdis', hu⟩ := (publish_disabled_iff h').mp hhere
  have hback := (publish_disabled_iff h').mpr ⟨d', hd', hdis', under_refl _⟩
  rw [hp] at hback
  obtain ⟨d'', hd'', -, hu'⟩ := (publish_disabled_iff h).mp hback
  have hsame := h.unique hd hd'' (under_refl _) (under_trans hu hu')
  subst hsame
  exact ⟨d', hd', hdis', under_antisymm hu' hu⟩

theorem sameRouting_iff (h : RootsApart trees) (h' : RootsApart trees')
    (hnew : ∀ t ∈ trees', t.enabled = true → t ∈ trees)
    (hlist : (∀ t ∈ trees, t.enabled = true → t ∈ trees') →
      (trees'.filter fun t => t.enabled) = trees.filter fun t => t.enabled) :
    SameRouting (newResolver trees) (newResolver trees') ↔
      (∀ t ∈ trees, t.enabled = true → t ∈ trees') ∧ ∀ root, Reserved trees root ↔ Reserved trees' root := by
  constructor
  · intro hsame
    refine ⟨?_, ?_⟩
    · intro t ht henable
      have hroot := publish_root h ht
      rw [henable, if_pos rfl, ← hsame.publish, Resolver.publish] at hroot
      cases howner : (newResolver trees').owner t.rootPath with
      | none =>
        rw [howner] at hroot
        cases hroot
      | some c =>
        obtain ⟨u, hu, rfl, hunder⟩ := exists_of_owner howner
        rw [howner] at hroot
        dsimp only at hroot
        rw [compile_tree] at hroot
        cases huen : u.enabled with
        | false =>
          rw [huen] at hroot
          cases hroot
        | true =>
          have heq := h.unique ht (hnew u hu huen) (under_refl _) hunder
          rw [heq]
          exact hu
    · intro root
      exact ⟨reserved_of_publish h h' hsame.publish,
        reserved_of_publish h' h fun topic => (hsame.publish topic).symm⟩
  · rintro ⟨hkept, hroots⟩
    refine sameRouting_of h h' ?_ (hlist hkept) hroots
    exact fun t henable => ⟨fun ht => hkept t ht henable, fun ht => hnew t ht henable⟩

end Routing

section TextOrder

open Resolver

private theorem textLE_total (a : Bytes) : ∀ b, (textLE a b || textLE b a) = true := by
  induction a with
  | nil => simp [textLE]
  | cons x a ih =>
    intro b
    cases b with
    | nil => simp [textLE]
    | cons y b =>
      have hrest := ih b
      rcases lt_trichotomy x.toNat y.toNat with hlt | heq | hgt
      · simp [textLE, UInt8.lt_iff_toNat_lt.mpr hlt]
      · have hxy : x = y := UInt8.toNat_inj.mp heq
        subst hxy
        simpa [textLE] using hrest
      · simp [textLE, UInt8.lt_iff_toNat_lt.mpr hgt]

private theorem textLE_antisymm (a : Bytes) : ∀ b, textLE a b = true → textLE b a = true → a = b := by
  induction a with
  | nil =>
    intro b _ h
    cases b with
    | nil => rfl
    | cons y b => cases h
  | cons x a ih =>
    intro b h h'
    cases b with
    | nil => cases h
    | cons y b =>
      simp only [textLE, Bool.or_eq_true, decide_eq_true_eq, Bool.and_eq_true] at h h'
      rcases h with hlt | ⟨rfl, hrest⟩
      · rcases h' with hlt' | ⟨rfl, -⟩
        · exact absurd (UInt8.lt_trans hlt hlt') (UInt8.lt_irrefl x)
        · exact absurd hlt (UInt8.lt_irrefl _)
      · rcases h' with hlt' | ⟨-, hrest'⟩
        · exact absurd hlt' (UInt8.lt_irrefl x)
        · rw [ih b hrest hrest']

theorem textLE_trans (a : Bytes) : ∀ b c, textLE a b = true → textLE b c = true → textLE a c = true := by
  induction a with
  | nil => simp [textLE]
  | cons x a ih =>
    intro b c h h'
    cases b with
    | nil => cases h
    | cons y b =>
      cases c with
      | nil => cases h'
      | cons z c =>
        simp only [textLE, Bool.or_eq_true, decide_eq_true_eq, Bool.and_eq_true] at h h' ⊢
        rcases h with hlt | ⟨rfl, hrest⟩
        · rcases h' with hlt' | ⟨rfl, -⟩
          · exact .inl (UInt8.lt_trans hlt hlt')
          · exact .inl hlt
        · rcases h' with hlt' | ⟨rfl, hrest'⟩
          · exact .inl hlt'
          · exact .inr ⟨rfl, ih b c hrest hrest'⟩

end TextOrder

/-- The trees of a manager: one for each id, in the order of the ids, with separate roots. -/
structure TreeSet where
  trees : List Tree
  sorted : trees.Pairwise fun t u => byID t u = true
  ids : (trees.map Tree.id).Nodup
  apart : RootsApart trees

variable {current : List Tree} {t : Tree}

theorem checkEntry_ok {e : ImportEntry} (h : checkEntry current e = .ok t) :
    t.enabled = false ∧ validate t (others current t.id) = [] := by
  have himport : ∀ {u}, importTree e = .ok u → u.enabled = false := by
    intro u hu
    cases hconfig : e.config with
    | error message =>
      rw [importTree, hconfig] at hu
      cases hu
    | ok w =>
      simp only [importTree, hconfig, bind, Except.bind] at hu
      by_cases hname : e.name ≠ [] ∧ e.name ≠ (if w.id = [] then e.name else w.id)
      · rw [if_pos hname] at hu
        cases hu
      · rw [if_neg hname] at hu
        rw [← Except.ok.inj hu]
  cases hu : importTree e with
  | error message =>
    rw [checkEntry, hu] at h
    cases h
  | ok u =>
    simp only [checkEntry, hu, bind, Except.bind, pure, Except.pure] at h
    split at h
    · rename_i hvalid
      cases hpersist : e.persisted with
      | error message =>
        rw [hpersist] at h
        cases h
      | ok _ =>
        rw [hpersist] at h
        rw [← Except.ok.inj h]
        exact ⟨himport hu, hvalid⟩
    · cases h

theorem mem_others {id : Bytes} : t ∈ others current id ↔ t ∈ current ∧ t.id ≠ id := by
  simp [others]

private theorem rootsApart_setTree (h : RootsApart current)
    (ht : validate t (others current t.id) = []) : RootsApart (setTree current t) := by
  have hvalid := (validTree_of_validate ht).apart
  intro u hu w hw hne
  rcases (mem_setTree).mp hu with hu | rfl
  · rcases (mem_setTree).mp hw with hw | rfl
    · exact h u hu.1 w hw.1 hne
    · exact (hvalid u ((mem_others).mpr hu)).1
  · rcases (mem_setTree).mp hw with hw | rfl
    · exact (hvalid w ((mem_others).mpr hw)).2
    · exact absurd rfl hne

private theorem ids_setTree (h : (current.map Tree.id).Nodup) (t : Tree) :
    ((setTree current t).map Tree.id).Nodup := by
  rw [setTree, map_append, nodup_append]
  refine ⟨h.sublist (filter_sublist.map Tree.id), by simp, ?_⟩
  intro a ha b hb
  obtain ⟨u, hu, rfl⟩ := mem_map.mp ha
  simp only [map_cons, map_nil, mem_singleton] at hb
  rw [hb]
  exact ((mem_others).mp hu).2

theorem rootsApart_accepted (entries : List ImportEntry) : ∀ {current : List Tree}, RootsApart current →
    RootsApart ((accepted current entries).foldl setTree current) := by
  induction entries with
  | nil => exact fun h => h
  | cons e entries ih =>
    intro current h
    rw [accepted]
    cases hcheck : checkEntry current e with
    | ok t => exact ih (rootsApart_setTree h (checkEntry_ok hcheck).2)
    | error message => exact ih h

theorem accepted_disabled (entries : List ImportEntry) : ∀ (current : List Tree),
    ∀ t ∈ accepted current entries, t.enabled = false := by
  induction entries with
  | nil =>
    intro current t ht
    cases ht
  | cons e entries ih =>
    intro current t ht
    rw [accepted] at ht
    cases hcheck : checkEntry current e with
    | ok u =>
      rw [hcheck] at ht
      rcases mem_cons.mp ht with rfl | ht
      · exact (checkEntry_ok hcheck).1
      · exact ih _ t ht
    | error message =>
      rw [hcheck] at ht
      exact ih _ t ht

private theorem ids_foldl_setTree (ts : List Tree) : ∀ {current : List Tree}, (current.map Tree.id).Nodup →
    ((ts.foldl setTree current).map Tree.id).Nodup := by
  induction ts with
  | nil => exact fun h => h
  | cons t ts ih => exact fun h => ih (ids_setTree h t)

theorem importTrees_trees (s : TreeSet) (entries : List ImportEntry) : (importTrees s.trees entries).2 =
      if accepted s.trees entries = [] then s.trees
      else ((accepted s.trees entries).foldl setTree s.trees).mergeSort byID := by
  obtain ⟨htrees, hcount⟩ := foldl_importOne entries {} s.trees
  rw [importTrees]
  rcases hfold : entries.foldl importOne ({}, s.trees) with ⟨res, current⟩
  rw [hfold] at htrees hcount
  dsimp only at htrees hcount ⊢
  rw [hcount, htrees]
  cases accepted s.trees entries with
  | nil => rfl
  | cons t ts => simp

theorem mem_importTrees (s : TreeSet) (entries : List ImportEntry) (t : Tree) :
    t ∈ (importTrees s.trees entries).2 ↔
      (t ∈ s.trees ∧ ∀ a ∈ accepted s.trees entries, t.id ≠ a.id) ∨ LastOf (accepted s.trees entries) t := by
  rw [importTrees_trees, ← mem_foldl_setTree]
  split
  · rename_i hnone
    rw [hnone]
    rfl
  · exact mem_mergeSort

/-- An entry takes the place of no enabled tree, and the last entries of their ids reserve the
roots that they replace. -/
structure LeavesRouting (trees entries : List Tree) : Prop where
  enabled : ∀ a ∈ entries, ∀ t ∈ trees, t.enabled = true → t.id ≠ a.id
  roots : ∀ root, Reserved trees root ↔
    (∃ d ∈ trees, d.enabled = false ∧ (∀ a ∈ entries, d.id ≠ a.id) ∧ d.rootPath = root) ∨
      ∃ a, LastOf entries a ∧ a.rootPath = root

theorem LastOf.mem {ts : List Tree} (h : LastOf ts t) : t ∈ ts := by
  obtain ⟨before, after, rfl, -⟩ := h
  exact mem_append_right _ mem_cons_self

theorem reserved_importTrees (s : TreeSet) (entries : List ImportEntry) (root : Bytes) :
    Reserved (importTrees s.trees entries).2 root ↔
      (∃ d ∈ s.trees, d.enabled = false ∧ (∀ a ∈ accepted s.trees entries, d.id ≠ a.id) ∧ d.rootPath = root) ∨
        ∃ a, LastOf (accepted s.trees entries) a ∧ a.rootPath = root := by
  simp only [Reserved, mem_importTrees]
  constructor
  · rintro ⟨d, ⟨hd, hne⟩ | hlast, hdis, hroot⟩
    · exact .inl ⟨d, hd, hdis, hne, hroot⟩
    · exact .inr ⟨d, hlast, hroot⟩
  · rintro (⟨d, hd, hdis, hne, hroot⟩ | ⟨a, hlast, hroot⟩)
    · exact ⟨d, .inl ⟨hd, hne⟩, hdis, hroot⟩
    · exact ⟨a, .inr hlast, accepted_disabled entries s.trees a hlast.mem, hroot⟩

theorem importTrees_enabled (s : TreeSet) (entries : List ImportEntry)
    (ht : t ∈ (importTrees s.trees entries).2) (henable : t.enabled = true) : t ∈ s.trees := by
  rcases (mem_importTrees s entries t).mp ht with h | hlast
  · exact h.1
  · rw [accepted_disabled entries s.trees t hlast.mem] at henable
    cases henable

private theorem importTrees_sorted (s : TreeSet) (entries : List ImportEntry) :
    (importTrees s.trees entries).2.Pairwise fun t u => byID t u = true := by
  rw [importTrees_trees]
  split
  · exact s.sorted
  · exact pairwise_mergeSort (fun a b c => textLE_trans a.id b.id c.id)
      (fun a b => textLE_total a.id b.id) _

private theorem importTrees_ids (s : TreeSet) (entries : List ImportEntry) :
    ((importTrees s.trees entries).2.map Tree.id).Nodup := by
  rw [importTrees_trees]
  split
  · exact s.ids
  · rw [((mergeSort_perm _ _).map Tree.id).nodup_iff]
    exact ids_foldl_setTree _ s.ids

theorem importTrees_apart (s : TreeSet) (entries : List ImportEntry) :
    RootsApart (importTrees s.trees entries).2 := by
  rw [importTrees_trees]
  split
  · exact s.apart
  · intro t ht u hu
    exact rootsApart_accepted entries s.apart t (mem_mergeSort.mp ht) u (mem_mergeSort.mp hu)

theorem importTrees_filter (s : TreeSet) (entries : List ImportEntry)
    (hkept : ∀ t ∈ s.trees, t.enabled = true → t ∈ (importTrees s.trees entries).2) :
    ((importTrees s.trees entries).2.filter fun t => t.enabled) = s.trees.filter fun t => t.enabled := by
  have hnodup : ((importTrees s.trees entries).2.filter fun t => t.enabled).Nodup :=
    (List.Nodup.of_map _ (importTrees_ids s entries)).filter _
  have hnodup' : (s.trees.filter fun t => t.enabled).Nodup := (List.Nodup.of_map _ s.ids).filter _
  have hperm : ((importTrees s.trees entries).2.filter fun t => t.enabled).Perm
      (s.trees.filter fun t => t.enabled) := by
    rw [perm_ext_iff_of_nodup hnodup hnodup']
    intro t
    rw [mem_filter, mem_filter]
    constructor
    · exact fun h => ⟨importTrees_enabled s entries h.1 h.2, h.2⟩
    · exact fun h => ⟨hkept t h.1 h.2, h.2⟩
  refine List.Perm.eq_of_pairwise ?_ ((importTrees_sorted s entries).filter _) (s.sorted.filter _) hperm
  intro a b ha hb hab hba
  have hid := textLE_antisymm a.id b.id hab hba
  have ha' := (mem_filter.mp (hperm.subset ha)).1
  exact inj_on_of_nodup_map s.ids ha' (mem_filter.mp hb).1 hid

/-- An import leaves routing as it is when it replaces no enabled tree and reserves the roots
that were reserved, and only then. -/
theorem import_sameRouting_iff (s : TreeSet) (entries : List ImportEntry) :
    SameRouting (newResolver s.trees) (newResolver (importTrees s.trees entries).2) ↔
      LeavesRouting s.trees (accepted s.trees entries) := by
  rw [sameRouting_iff s.apart (importTrees_apart s entries)
    (fun t ht henable => importTrees_enabled s entries ht henable) (importTrees_filter s entries)]
  constructor
  · rintro ⟨hkept, hroots⟩
    refine ⟨?_, ?_⟩
    · intro a ha t ht henable
      rcases (mem_importTrees s entries t).mp (hkept t ht henable) with h | hlast
      · exact h.2 a ha
      · have hdis := accepted_disabled entries s.trees t hlast.mem
        rw [henable] at hdis
        cases hdis
    · intro root
      rw [hroots root, reserved_importTrees]
  · intro h
    refine ⟨?_, ?_⟩
    · intro t ht henable
      exact (mem_importTrees s entries t).mpr (.inl ⟨ht, fun a ha => h.enabled a ha t ht henable⟩)
    · intro root
      rw [h.roots root, reserved_importTrees]

def plantSet : TreeSet where
  trees := [plantTree]
  sorted := pairwise_singleton _ _
  ids := nodup_singleton _
  apart t ht u hu hne := by
    rw [mem_singleton.mp ht, mem_singleton.mp hu] at hne
    exact absurd rfl hne

def plantExport : ImportEntry := ⟨ascii "plant", .ok plantTree, .ok ()⟩

theorem plantExport_accepted : accepted plantSet.trees [plantExport] = [{ plantTree with enabled := false }] := by
  decide +kernel

/-- The export of an enabled tree, imported again, disables it. -/
theorem plantExport_disables :
    ¬ SameRouting (newResolver plantSet.trees) (newResolver (importTrees plantSet.trees [plantExport]).2) := by
  intro h
  have hbefore := publish_root plantSet.apart (t := plantTree) (mem_singleton.mpr rfl)
  have hmem : { plantTree with enabled := false } ∈ (importTrees plantSet.trees [plantExport]).2 := by
    rw [mem_importTrees, plantExport_accepted]
    exact .inr ⟨[], [], rfl, by simp⟩
  have hafter := publish_root (importTrees_apart plantSet [plantExport]) hmem
  have hsame := h.publish plantTree.rootPath
  rw [hbefore] at hsame
  exact absurd (hsame.symm.trans hafter) (by decide)

end MonsterMQ.Virtual
