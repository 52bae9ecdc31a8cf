import MonsterMQ.VirtualTreeResolver

/-!
# Valid virtual trees

What the validation of a tree guarantees: its nodes have distinct paths below the root, its targets lie in
no root, and no two roots overlap.
-/

namespace MonsterMQ.Virtual

open LittleEndian PeerLink Auth Topics List

theorem last_slash_cases (s : Bytes) : (slashByte ∉ s ∧ lastSlash s = none) ∨
    ∃ q r, s = q ++ slashByte :: r ∧ slashByte ∉ r ∧ lastSlash s = some q.length ∧
      s.take q.length = q := by
  by_cases hs : slashByte ∈ s
  · right
    obtain ⟨as, bs, hrev, has⟩ := eq_append_cons_of_mem (mem_reverse.mpr hs)
    have heq : s = bs.reverse ++ slashByte :: as.reverse := by
      rw [← reverse_reverse s, hrev, reverse_append, reverse_cons,
        append_assoc]
      rfl
    refine ⟨bs.reverse, as.reverse, heq, fun h => has (mem_reverse.mp h), ?_, ?_⟩
    · have hidx : s.reverse.idxOf slashByte = as.length := by
        rw [hrev, idxOf_append_of_notMem has, idxOf_cons_self, Nat.add_zero]
      have hlen := congrArg List.length hrev
      rw [length_reverse, length_append, length_cons] at hlen
      rw [lastSlash, if_pos hs, hidx, length_reverse]
      congr 1
      omega
    · conv_lhs => rw [heq]
      exact take_left
  · exact .inl ⟨hs, if_neg hs⟩

private theorem under_of_no_slash {s x : Bytes} (hs : slashByte ∉ s) : under s x = true ↔ x = s := by
  rw [under_iff]
  constructor
  · rintro (rfl | ⟨rest, rfl⟩)
    · rfl
    · exact absurd (mem_append_right _ mem_cons_self) hs
  · exact fun h => .inl h.symm

theorem under_cons_iff {q r x : Bytes} (hr : slashByte ∉ r) :
    under (q ++ slashByte :: r) x = true ↔ x = q ++ slashByte :: r ∨ under q x = true := by
  rw [under_iff]
  constructor
  · rintro (rfl | ⟨rest, heq⟩)
    · exact .inl rfl
    · right
      apply (under_iff).mpr
      obtain ⟨z, hz, hz'⟩ | ⟨z, hz, hz'⟩ := append_eq_append_iff.mp heq
      · cases z with
        | nil =>
          left
          rw [hz, append_nil]
        | cons b z =>
          rw [cons_append, List.cons.injEq] at hz'
          rw [hz'.2] at hr
          exact absurd (mem_append_right _ mem_cons_self) hr
      · cases z with
        | nil =>
          left
          rw [hz, append_nil]
        | cons b z =>
          rw [cons_append, List.cons.injEq] at hz'
          right
          exact ⟨z, by rw [hz, hz'.1]⟩
  · rintro (rfl | h)
    · exact .inl rfl
    · rcases (under_iff).mp h with rfl | ⟨rest, rfl⟩
      · exact .inr ⟨r, rfl⟩
      · exact .inr ⟨rest ++ slashByte :: r, by rw [append_assoc, cons_append]⟩

private theorem mem_walkUp_iff (fuel : ℕ) : ∀ s x : Bytes, s.length < fuel →
    (x ∈ walkUp fuel s ↔ under s x = true) := by
  induction fuel with
  | zero =>
    intro s x h
    exact absurd h (Nat.not_lt_zero _)
  | succ fuel ih =>
    intro s x hfuel
    rw [walkUp]
    rcases last_slash_cases s with ⟨hs, hlast⟩ | ⟨q, r, heq, hr, hlast, htake⟩
    · rw [hlast, under_of_no_slash hs, mem_singleton]
    · have hlen := congrArg List.length heq
      rw [length_append, length_cons] at hlen
      rw [hlast]
      dsimp only
      rw [htake, mem_cons, ih q x (by omega), heq, under_cons_iff hr]

theorem mem_upward_iff {topic x : Bytes} : x ∈ upward topic ↔ under topic x = true :=
  mem_walkUp_iff _ _ _ (Nat.lt_succ_self _)

private theorem walkUp_length_le (fuel : ℕ) : ∀ s : Bytes, ∀ x ∈ walkUp fuel s, x.length ≤ s.length := by
  induction fuel with
  | zero =>
    intro s x hx
    exact absurd hx not_mem_nil
  | succ fuel ih =>
    intro s x hx
    rw [walkUp] at hx
    rcases mem_cons.mp hx with rfl | hx
    · exact le_rfl
    · rcases last_slash_cases s with ⟨-, hlast⟩ | ⟨q, r, heq, -, hlast, htake⟩
      · rw [hlast] at hx
        exact absurd hx not_mem_nil
      · have hlen := congrArg List.length heq
        rw [length_append, length_cons] at hlen
        rw [hlast] at hx
        dsimp only at hx
        rw [htake] at hx
        have := ih q x hx
        omega

theorem walkUp_shorter (fuel : ℕ) : ∀ s : Bytes, (walkUp fuel s).Pairwise fun a b => b.length < a.length := by
  induction fuel with
  | zero =>
    intro s
    exact List.Pairwise.nil
  | succ fuel ih =>
    intro s
    rw [walkUp]
    rcases last_slash_cases s with ⟨-, hlast⟩ | ⟨q, r, heq, -, hlast, htake⟩
    · rw [hlast]
      exact pairwise_singleton _ _
    · have hlen := congrArg List.length heq
      rw [length_append, length_cons] at hlen
      rw [hlast]
      dsimp only
      rw [htake, pairwise_cons]
      refine ⟨?_, ih q⟩
      intro x hx
      have := walkUp_length_le fuel q x hx
      omega

theorem upward_nodup (topic : Bytes) : (upward topic).Nodup := by
  apply (walkUp_shorter _ topic).imp
  intro a b h heq
  rw [heq] at h
  exact absurd h (lt_irrefl _)

inductive PathOf (t : Tree) : Bytes → Bytes → Prop where
  | top {id : Bytes} {n : Node} : t.byID id = some n → n.parentID = none →
      PathOf t id (t.rootPath ++ slashByte :: n.segment)
  | child {id parent base : Bytes} {n : Node} : t.byID id = some n → n.parentID = some parent →
      PathOf t parent base → PathOf t id (base ++ slashByte :: n.segment)

theorem resolve_pathOf (t : Tree) (fuel : ℕ) : ∀ (out : List (Bytes × Bytes)) (seen : List Bytes)
    (id : Bytes), (∀ id p, out.lookup id = some p → PathOf t id p) →
    (∀ p, (t.resolve fuel out seen id).1 = some p → PathOf t id p) ∧
      ∀ id' p, (t.resolve fuel out seen id).2.lookup id' = some p → PathOf t id' p := by
  induction fuel with
  | zero =>
    intro out seen id h
    exact ⟨fun p hp => absurd hp (by simp [Tree.resolve]), h⟩
  | succ fuel ih =>
    intro out seen id h
    rw [Tree.resolve]
    cases hout : out.lookup id with
    | some q =>
      refine ⟨?_, h⟩
      intro p hp
      rw [← Option.some.inj hp]
      exact h id q hout
    | none =>
      cases hn : t.byID id with
      | none => exact ⟨fun p hp => (by cases hp), h⟩
      | some n =>
        dsimp only
        by_cases hseen : id ∈ seen
        · rw [if_pos hseen]
          exact ⟨fun p hp => (by cases hp), h⟩
        rw [if_neg hseen]
        have hadd : ∀ {base : Bytes} {out' : List (Bytes × Bytes)},
            PathOf t id (base ++ slashByte :: n.segment) →
            (∀ id p, out'.lookup id = some p → PathOf t id p) →
            (∀ p, some (base ++ slashByte :: n.segment) = some p → PathOf t id p) ∧
            ∀ id' p, (setKey id (base ++ slashByte :: n.segment) out').lookup id' = some p →
              PathOf t id' p := by
          intro base out' hpath hout'
          refine ⟨fun p hp => Option.some.inj hp ▸ hpath, ?_⟩
          intro id' p hp
          rw [lookup_setKey] at hp
          split at hp
          · rename_i heq
            rw [heq, ← Option.some.inj hp]
            exact hpath
          · exact hout' id' p hp
        cases hparent : n.parentID with
        | none => exact hadd (.top hn hparent) h
        | some parent =>
          obtain ⟨hbase, hout'⟩ := ih out (id :: seen) parent h
          dsimp only
          rcases hres : t.resolve fuel out (id :: seen) parent with ⟨base, out'⟩
          rw [hres] at hbase hout'
          cases base with
          | none => exact ⟨fun p hp => (by cases hp), hout'⟩
          | some base => exact hadd (.child hn hparent (hbase base rfl)) hout'

theorem paths_pathOf (t : Tree) : ∀ id p, t.paths.lookup id = some p → PathOf t id p := by
  have hfold : ∀ (ns : List Node) (out : List (Bytes × Bytes)),
      (∀ id p, out.lookup id = some p → PathOf t id p) → ∀ id p,
      (ns.foldl (fun out n => (t.resolve (t.nodes.length + 1) out [] n.id).2) out).lookup id =
        some p → PathOf t id p := by
    intro ns
    induction ns with
    | nil =>
      intro out h
      exact h
    | cons n ns ih =>
      intro out h
      rw [foldl_cons]
      exact ih _ (resolve_pathOf t _ out [] n.id h).2
  exact hfold t.nodes [] (by intro id p h; cases h)

@[grind =] def Tree.unseen (t : Tree) (seen : List Bytes) : ℕ := (t.nodes.filter fun n => n.id ∉ seen).length

variable {t : Tree}

private theorem unseen_lt {seen : List Bytes} {id : Bytes} {n : Node} (hn : t.byID id = some n)
    (hseen : id ∉ seen) : t.unseen (id :: seen) < t.unseen seen := by
  have hmem := mem_of_find?_eq_some hn
  have hid : n.id = id := by simpa using List.find?_some hn
  rw [Tree.unseen, Tree.unseen]
  have hfilter : (t.nodes.filter fun n => n.id ∉ id :: seen) =
      (t.nodes.filter fun n => n.id ∉ seen).filter fun n => n.id ≠ id := by
    rw [filter_filter]
    apply filter_congr
    intro m _
    simp [not_or]
  rw [hfilter]
  apply length_filter_lt_length_iff_exists.mpr
  refine ⟨n, mem_filter.mpr ⟨hmem, ?_⟩, ?_⟩
  · simpa [hid] using hseen
  · simp [hid]

theorem resolve_fuel (t : Tree) (fuel : ℕ) : ∀ (out : List (Bytes × Bytes)) (seen : List Bytes)
    (id : Bytes), t.unseen seen < fuel → t.resolve (fuel + 1) out seen id = t.resolve fuel out seen id := by
  induction fuel with
  | zero =>
    intro out seen id h
    exact absurd h (Nat.not_lt_zero _)
  | succ fuel ih =>
    intro out seen id h
    rw [Tree.resolve, Tree.resolve.eq_def t (fuel + 1)]
    dsimp only
    cases hout : out.lookup id with
    | some q => rfl
    | none =>
      cases hn : t.byID id with
      | none => rfl
      | some n =>
        dsimp only
        by_cases hseen : id ∈ seen
        · rw [if_pos hseen, if_pos hseen]
        · rw [if_neg hseen, if_neg hseen]
          have hlt := unseen_lt hn hseen
          cases hparent : n.parentID with
          | none => rfl
          | some parent =>
            dsimp only
            rw [ih out (id :: seen) parent (by omega)]

theorem resolve_enough (t : Tree) (out : List (Bytes × Bytes)) (id : Bytes) (more : ℕ) :
    t.resolve (t.nodes.length + 1 + more) out [] id = t.resolve (t.nodes.length + 1) out [] id := by
  have hunseen : t.unseen [] = t.nodes.length := by
    rw [Tree.unseen]
    simp
  induction more with
  | zero => rfl
  | succ more ih => rw [← ih, ← Nat.add_assoc, resolve_fuel t _ out [] id (by omega)]

structure Binding.Valid (roots : List Bytes) (b : Binding) : Prop where
  kind : b.kind = .exact ∨ b.kind = .subtree
  target : ValidTopic b.target
  outside : ∀ root ∈ roots, under b.target root = false

structure ValidTree (t : Tree) (others : List Tree) : Prop where
  root : ValidTopic t.rootPath
  rootPlain : t.rootPath.head? ≠ some dollarByte
  ids : (t.nodes.map Node.id).Nodup
  segment : ∀ n ∈ t.nodes, validSegment n.segment = true
  path : ∀ n ∈ t.nodes, ∃ p, t.paths.lookup n.id = some p ∧ p.length ≤ 65535
  distinct : ∀ n ∈ t.nodes, ∀ n' ∈ t.nodes, ∀ p, t.paths.lookup n.id = some p →
    t.paths.lookup n'.id = some p → n.id = n'.id
  binding : ∀ n ∈ t.nodes, ∀ b, n.binding = some b →
    b.Valid (others.map Tree.rootPath ++ [t.rootPath])
  apart : ∀ o ∈ others, under o.rootPath t.rootPath = false ∧ under t.rootPath o.rootPath = false

theorem ite_nil_iff {α : Type} {c : Prop} [Decidable c] {a : α} {l : List α} :
    (if c then a :: l else []) = [] ↔ ¬ c := by
  by_cases h : c
  · rw [if_pos h]
    exact iff_of_false (cons_ne_nil _ _) (fun hn => hn h)
  · rw [if_neg h]
    exact iff_of_true rfl h

theorem not_hasWildcard_iff {s : Bytes} : ¬ hasWildcard s = true ↔ Concrete s := by
  rw [hasWildcard, Bool.or_eq_true, not_or, contains_iff_mem, contains_iff_mem, and_comm]
  rfl

private theorem root_of_headIssues (h : headIssues t = []) :
    ValidTopic t.rootPath ∧ t.rootPath.head? ≠ some dollarByte := by
  rw [headIssues, append_eq_nil_iff] at h
  have h := h.2
  split at h
  · cases h
  · rename_i hname
    rw [Bool.or_eq_true, Bool.not_eq_true', not_or, Bool.not_eq_false] at hname
    exact ⟨⟨(validName_iff).mp hname.1, (not_hasWildcard_iff).mp hname.2⟩, (ite_nil_iff).mp h⟩

variable {ns : List Node}

private theorem nodup_of_idIssues : ∀ {seen : List Bytes}, idIssues seen ns = [] →
    (ns.map Node.id).Nodup ∧ ∀ n ∈ ns, n.id ∉ seen := by
  induction ns with
  | nil =>
    intro seen _
    exact ⟨nodup_nil, fun n hn => absurd hn not_mem_nil⟩
  | cons n ns ih =>
    intro seen h
    rw [idIssues, append_eq_nil_iff, ite_nil_iff] at h
    obtain ⟨hnodup, hseen⟩ := ih h.2
    refine ⟨?_, ?_⟩
    · rw [map_cons, nodup_cons]
      refine ⟨?_, hnodup⟩
      intro hm
      obtain ⟨m, hm, heq⟩ := mem_map.mp hm
      exact hseen m hm (heq ▸ mem_cons_self)
    · intro m hm
      rcases mem_cons.mp hm with rfl | hm
      · exact h.1
      · exact fun hs => hseen m hm (mem_cons_of_mem _ hs)

variable {roots : List Bytes}

private theorem valid_of_bindingIssues {id p : Bytes} {b : Binding}
    (h : bindingIssues roots id p b = []) : b.Valid roots := by
  rw [bindingIssues, append_eq_nil_iff, map_eq_nil_iff, filter_eq_nil_iff] at h
  obtain ⟨h, hroots⟩ := h
  split at h
  · cases h
  rename_i hkind
  split at h
  · cases h
  rename_i hwild
  rw [ite_nil_iff, Bool.not_eq_true', Bool.not_eq_false] at h
  rw [not_or, not_and_or, not_not, not_not] at hkind
  exact ⟨hkind.1, ⟨(validName_iff).mp h, (not_hasWildcard_iff).mp hwild⟩,
    fun root hroot => Bool.eq_false_iff.mpr (hroots root hroot)⟩

theorem node_of_nodeIssues {paths : List (Bytes × Bytes)}
    : ∀ {seen : List (Bytes × Bytes)}, nodeIssues t roots paths seen ns = [] →
    ∀ n ∈ ns, validSegment n.segment = true ∧
      (∃ p, paths.lookup n.id = some p ∧ p.length ≤ 65535) ∧
      ∀ b, n.binding = some b → b.Valid roots := by
  induction ns with
  | nil =>
    intro seen _ n hn
    exact absurd hn not_mem_nil
  | cons m ns ih =>
    intro seen h n hn
    rw [nodeIssues, append_eq_nil_iff, append_eq_nil_iff, ite_nil_iff, ite_nil_iff,
      Bool.not_eq_true', Bool.not_eq_false] at h
    obtain ⟨⟨-, hsegment⟩, h⟩ := h
    split at h
    · cases h
    split at h
    · cases h
    rename_i p hp
    rw [append_eq_nil_iff] at h
    rcases mem_cons.mp hn with rfl | hn
    · rw [pathIssues, append_eq_nil_iff, append_eq_nil_iff, ite_nil_iff] at h
      refine ⟨hsegment, ⟨p, hp, by omega⟩, ?_⟩
      intro b hb
      have hbind := h.1.2
      rw [hb] at hbind
      exact valid_of_bindingIssues hbind
    · exact ih h.2 n hn

theorem distinct_of_nodeIssues {paths : List (Bytes × Bytes)}
    : ∀ {seen : List (Bytes × Bytes)}, nodeIssues t roots paths seen ns = [] →
    ∀ n ∈ ns, ∀ p, paths.lookup n.id = some p →
      (∀ other, seen.lookup p = some other → other = n.id) ∧
      ∀ n' ∈ ns, paths.lookup n'.id = some p → n'.id = n.id := by
  induction ns with
  | nil =>
    intro seen _ n hn
    exact absurd hn not_mem_nil
  | cons m ns ih =>
    intro seen h
    rw [nodeIssues, append_eq_nil_iff] at h
    obtain ⟨-, h⟩ := h
    split at h
    · cases h
    split at h
    · cases h
    rename_i q hq
    rw [append_eq_nil_iff] at h
    obtain ⟨hissues, hrest⟩ := h
    have hfirst : ∀ other, seen.lookup q = some other → other = m.id := by
      intro other hother
      rw [pathIssues, append_eq_nil_iff, append_eq_nil_iff, hother] at hissues
      exact not_not.mp ((ite_nil_iff).mp hissues.1.2)
    have hlater : ∀ n ∈ ns, ∀ p, paths.lookup n.id = some p →
        (p = q → m.id = n.id) ∧ ∀ other, seen.lookup p = some other → other = n.id := by
      intro n hn p hp
      have hseen := (ih hrest n hn p hp).1
      constructor
      · intro heq
        apply hseen
        rw [lookup_setKey, if_pos heq]
      · intro other hother
        by_cases heq : p = q
        · have hm : m.id = n.id := by
            apply hseen
            rw [lookup_setKey, if_pos heq]
          rw [heq] at hother
          rw [hfirst other hother, hm]
        · apply hseen
          rw [lookup_setKey, if_neg heq, hother]
    intro n hmem p hp
    rcases mem_cons.mp hmem with rfl | hn
    · rw [hq, Option.some.injEq] at hp
      subst hp
      refine ⟨hfirst, ?_⟩
      intro n' hn' hp'
      rcases mem_cons.mp hn' with rfl | hn'
      · rfl
      · exact ((hlater n' hn' q hp').1 rfl).symm
    · refine ⟨(hlater n hn p hp).2, ?_⟩
      intro n' hn' hp'
      rcases mem_cons.mp hn' with rfl | hn'
      · rw [hq, Option.some.injEq] at hp'
        exact (hlater n hn p hp).1 hp'.symm
      · exact (ih hrest n hn p hp).2 n' hn' hp'

theorem validTree_of_validate {others : List Tree} (h : validate t others = []) : ValidTree t others := by
  rw [validate, append_eq_nil_iff, append_eq_nil_iff, append_eq_nil_iff,
    flatMap_eq_nil_iff] at h
  obtain ⟨⟨⟨hhead, hids⟩, hnodes⟩, hothers⟩ := h
  obtain ⟨hroot, hplain⟩ := root_of_headIssues hhead
  exact {
    root := hroot
    rootPlain := hplain
    ids := (nodup_of_idIssues hids).1
    segment := fun n hn => (node_of_nodeIssues hnodes n hn).1
    path := fun n hn => (node_of_nodeIssues hnodes n hn).2.1
    distinct := fun n hn n' hn' p hp hp' =>
      (distinct_of_nodeIssues hnodes n' hn' p hp').2 n hn hp
    binding := fun n hn => (node_of_nodeIssues hnodes n hn).2.2
    apart := by
      intro o ho
      have hconflict := (append_eq_nil_iff.mp (hothers o ho)).1
      rw [ite_nil_iff, Bool.or_eq_true, not_or] at hconflict
      exact ⟨Bool.eq_false_iff.mpr hconflict.1, Bool.eq_false_iff.mpr hconflict.2⟩ }

end MonsterMQ.Virtual
