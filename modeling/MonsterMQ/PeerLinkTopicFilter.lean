import MonsterMQ.VirtualTreeLookup

/-!
# Compiled include and exclude filters

`compileFilters` sorts the filters of a list by their shape: `#` is a flag, a plain topic goes to a map,
`<prefix>/#` to a list of prefixes and the rest to a trie.
-/

namespace MonsterMQ.PeerLink

open LittleEndian Auth Topics Virtual List

inductive FilterNode where
  | mk (children : List (Bytes × FilterNode)) (plus : Option FilterNode) (hash fin : Bool)

namespace FilterNode

def zero : FilterNode := mk [] none false false

def hash : FilterNode → Bool
  | mk _ _ h _ => h

def children : FilterNode → List (Bytes × FilterNode)
  | mk c _ _ _ => c

def plus : FilterNode → Option FilterNode
  | mk _ p _ _ => p

def fin : FilterNode → Bool
  | mk _ _ _ e => e

def addLevels : List Bytes → FilterNode → FilterNode
  | [], mk c p h _ => mk c p h true
  | l :: ls, mk c p h e =>
    if l = hashLevel then mk c p true e
    else if l = plusLevel then mk c (some (addLevels ls (p.getD zero))) h e
    else mk ((l, addLevels ls ((c.lookup l).getD zero)) :: c) p h e

def add (n : FilterNode) (filter : Bytes) : FilterNode := addLevels (levels filter) n

/-- `match`: the levels of `t` from the index `i` on. The first argument bounds the depth of
the walk, which takes at least one byte, or the end of the text, in each call. -/
def matchAt (t : Bytes) : ℕ → FilterNode → ℕ → Bool
  | 0, _, _ => false
  | fuel + 1, n, i =>
    if n.hash then true
    else if i > t.length then n.fin
    else
      let level := segment t i
      let next := segmentEnd t i + 1
      ((n.children.lookup level).any fun c => matchAt t fuel c next) ||
        n.plus.any fun c => matchAt t fuel c next

@[grind =] def matchLevels : List Bytes → FilterNode → Bool
  | [], n => n.hash || n.fin
  | t :: ts, n =>
    n.hash || ((n.children.lookup t).any (matchLevels ts) || n.plus.any (matchLevels ts))

theorem matchAt_eq (t : Bytes) (fuel : ℕ) : ∀ n i, t.length + 1 < fuel + i →
    0 < fuel → matchAt t fuel n i = matchLevels (restLevels t i) n := by
  induction fuel with
  | zero =>
    intro n i _ h
    exact absurd h (lt_irrefl 0)
  | succ fuel ih =>
    intro n i hfuel _
    rw [matchAt]
    by_cases hi : i > t.length
    · rw [(restLevels_eq_nil_iff).mpr hi, matchLevels, if_pos hi]
      cases n.hash <;> rfl
    · have hge := segmentEnd_ge t i
      have hnext : ∀ c, matchAt t fuel c (segmentEnd t i + 1) =
          matchLevels (restLevels t (segmentEnd t i + 1)) c := by
        intro c
        exact ih c _ (by omega) (by omega)
      rw [restLevels_step (by omega : i ≤ t.length), matchLevels, if_neg hi]
      simp only [hnext]
      cases n.hash <;> rfl

private theorem matchLevels_zero (ts : List Bytes) : matchLevels ts zero = false := by
  cases ts <;> rfl

theorem matchLevels_getD (ts : List Bytes) (o : Option FilterNode) :
    matchLevels ts (o.getD zero) = o.any (matchLevels ts) := by
  cases o with
  | none => exact matchLevels_zero ts
  | some n => rfl

theorem matchLevels_addLevels {fs : List Bytes} (h : HashLast fs) (ts : List Bytes)
    (n : FilterNode) : matchLevels ts (addLevels fs n) = (matchLevels ts n || decide (Topics.Covers fs ts)) := by
  induction fs generalizing ts n with
  | nil =>
    obtain ⟨c, p, hash, e⟩ := n
    cases ts with
    | nil => simp [addLevels, matchLevels, fin, FilterNode.hash, Topics.Covers.done]
    | cons t ts =>
      have hno : ¬ Topics.Covers [] (t :: ts) := by
        intro hc
        cases hc
      rw [decide_eq_false hno, Bool.or_false]
      rfl
  | cons l ls ih =>
    obtain ⟨c, p, hash, e⟩ := n
    obtain ⟨hl, hls⟩ := h
    rw [addLevels]
    by_cases hh : l = hashLevel
    · have hcov : Topics.Covers (l :: ls) ts := by
        rw [hl hh, hh]
        exact .rest ts
      rw [if_pos hh, decide_eq_true hcov, Bool.or_true]
      cases ts <;> rfl
    rw [if_neg hh]
    cases ts with
    | nil =>
      have hno : ¬ Topics.Covers (l :: ls) [] := by
        simp [covers_iff, hh]
      rw [decide_eq_false hno, Bool.or_false]
      split <;> rfl
    | cons t ts =>
      have hcov : decide (Topics.Covers (l :: ls) (t :: ts)) =
          ((decide (l = plusLevel) || decide (l = t)) && decide (Topics.Covers ls ts)) := by
        rw [← Bool.decide_or, ← Bool.decide_and]
        exact decide_eq_decide.mpr (by simp [covers_iff, hh])
      rw [hcov]
      by_cases hp : l = plusLevel
      · rw [if_pos hp, matchLevels, matchLevels]
        simp only [FilterNode.hash, children, plus, Option.any_some, ih hls, matchLevels_getD, hp,
          decide_true, Bool.true_or, Bool.true_and]
        simp only [Bool.or_assoc]
      · rw [if_neg hp, matchLevels, matchLevels]
        simp only [FilterNode.hash, children, plus, lookup_cons, hp, decide_false, Bool.false_or]
        by_cases ht : t = l
        · simp only [ht, beq_self_eq_true, Option.any_some, ih hls, matchLevels_getD, decide_true,
            Bool.true_and]
          cases hash <;> cases (c.lookup l).any (matchLevels ts) <;> cases p.any (matchLevels ts) <;>
            simp
        · have hbeq : (t == l) = false := beq_eq_false_iff_ne.mpr ht
          simp [hbeq, Ne.symm ht]

end FilterNode

/-- `topicFilter`. The map of plain topics is the list of its keys. -/
structure TopicFilter where
  all : Bool
  exact : List Bytes
  prefixes : List Bytes
  trie : Option FilterNode

namespace TopicFilter

def none : TopicFilter := ⟨false, [], [], Option.none⟩

/-- `strings.HasSuffix(raw, "/#") && !strings.ContainsAny(raw[:len(raw)-2], "+#")`. -/
def isPrefixFilter (raw : Bytes) : Bool :=
  (ascii "/#").isSuffixOf raw && !isWildcardFilter (raw.take (raw.length - 2))

def insert (f : TopicFilter) (raw : Bytes) : TopicFilter :=
  if raw = hashLevel then { f with all := true }
  else if !isWildcardFilter raw then { f with exact := raw :: f.exact }
  else if isPrefixFilter raw then
    { f with prefixes := f.prefixes ++ [raw.take (raw.length - 2)] }
  else { f with trie := some ((f.trie.getD FilterNode.zero).add raw) }

end TopicFilter

def compileLoop : List Bytes → TopicFilter → Except FilterError TopicFilter
  | [], f => .ok f
  | raw :: list, f =>
    match validFilter raw with
    | .error e => .error e
    | .ok () => compileLoop list (f.insert raw)

def compileFilters (list : List Bytes) : Except FilterError TopicFilter :=
  compileLoop list TopicFilter.none

/-- `t == root` or `t` starts with `root + "/"`. An empty root matches nothing. -/
def underRoot (t root : Bytes) : Bool :=
  if root = [] || t.length < root.length || t.take root.length ≠ root then false
  else t.length = root.length || t[root.length]? = some slashByte

namespace TopicFilter

def matchTopic (f : TopicFilter) (t : Bytes) : Bool :=
  f.all || f.exact.contains t || f.prefixes.any (underRoot t) ||
    f.trie.any fun n => n.matchAt t (t.length + 2) 0

end TopicFilter

/-- The filter of every topic with an empty first level. -/
def rootHash : Bytes := ascii "/#"

theorem hashLast_of_validFilter {raw : Bytes} (h : validFilter raw = .ok ()) : HashLast (levels raw) := by
  unfold validFilter at h
  split at h
  · cases h
  · exact hashLast_of_validLevels h

theorem underRoot_iff {t root : Bytes} :
    underRoot t root = true ↔ root ≠ [] ∧ (t = root ∨ ∃ rest, t = root ++ slashByte :: rest) := by
  unfold underRoot
  by_cases hroot : root = []
  · simp [hroot]
  constructor
  · intro h
    split at h
    · cases h
    rename_i hno
    simp only [hroot, decide_false, Bool.false_or, Bool.or_eq_true, decide_eq_true_eq, not_or,
      not_lt, ne_eq, not_not] at hno
    obtain ⟨hlen, htake⟩ := hno
    refine ⟨hroot, ?_⟩
    simp only [Bool.or_eq_true, decide_eq_true_eq] at h
    rcases h with h | h
    · left
      rw [← htake, ← h, take_length]
    · right
      obtain ⟨hlt, hget⟩ := List.getElem?_eq_some_iff.mp h
      refine ⟨t.drop (root.length + 1), ?_⟩
      have hdrop := drop_eq_getElem_cons hlt
      rw [hget] at hdrop
      calc t = t.take root.length ++ t.drop root.length := (take_append_drop _ _).symm
        _ = root ++ slashByte :: t.drop (root.length + 1) := by rw [htake, hdrop]
  · rintro ⟨-, rfl | ⟨rest, rfl⟩⟩ <;> simp [hroot]

/-- Plain levels followed by `#` cover the topics that begin with these levels. -/
theorem covers_append_hash_iff {ls ts : List Bytes} (hh : hashLevel ∉ ls) (hp : plusLevel ∉ ls) :
    Topics.Covers (ls ++ [hashLevel]) ts ↔ ls <+: ts := by
  induction ls generalizing ts with
  | nil => exact iff_of_true (.rest ts) nil_prefix
  | cons l ls ih =>
    simp only [mem_cons, not_or] at hh hp
    rw [cons_append, covers_iff, cons_prefix_iff]
    constructor
    · rintro (⟨h, -⟩ | ⟨t, us, rfl, h | rfl, hc⟩)
      · exact absurd h.symm hh.1
      · exact absurd h.symm hp.1
      · exact ⟨us, rfl, (ih hh.2 hp.2).mp hc⟩
    · rintro ⟨us, rfl, hpre⟩
      exact .inr ⟨l, us, rfl, .inr rfl, (ih hh.2 hp.2).mpr hpre⟩

private theorem levels_prefix_iff {p t : Bytes} :
    levels p <+: levels t ↔ t = p ∨ ∃ rest, t = p ++ slashByte :: rest := by
  constructor
  · rintro ⟨us, hus⟩
    rcases us with _ | ⟨u, us⟩
    · left
      exact (levels_injective (by simpa using hus)).symm
    · right
      refine ⟨joinLevels (u :: us), levels_injective ?_⟩
      have hmem : ∀ l ∈ u :: us, slashByte ∉ l := fun l hl =>
        slash_not_mem_levels (s := t) (by rw [← hus]; exact mem_append_right _ hl)
      rw [levels_append, levels_joinLevels (cons_ne_nil u us) hmem, hus]
  · rintro (rfl | ⟨rest, rfl⟩)
    · exact prefix_rfl
    · rw [levels_append]
      exact prefix_append _ _

theorem concrete_of_not_wildcard {s : Bytes} (h : isWildcardFilter s = false) : Concrete s := by
  simp only [isWildcardFilter, Bool.or_eq_false_iff] at h
  exact ⟨by simpa using h.2, by simpa using h.1⟩

private theorem covers_exact_iff {raw t : Bytes} (h : isWildcardFilter raw = false) :
    Topics.Covers (levels raw) (levels t) ↔ raw = t := by
  rw [← matches_exact_iff h]
  have hlv := concreteLevels_levels (concrete_of_not_wildcard h)
  refine ⟨fun hc => ⟨hc, fun _ => ⟨?_, ?_⟩⟩, fun hm => hm.1⟩
  · exact fun hd => (hlv _ (mem_of_mem_head? hd)).2.2 (by decide)
  · exact fun hd => (hlv _ (mem_of_mem_head? hd)).2.1 (by decide)

/-- The test for a prefix agrees with the filter, except that an empty prefix matches nothing. -/
theorem underRoot_iff_covers {t root : Bytes} (h : isWildcardFilter root = false) :
    underRoot t root = true ↔ root ≠ [] ∧ Topics.Covers (levels (root ++ ascii "/#")) (levels t) := by
  have hlv := concreteLevels_levels (concrete_of_not_wildcard h)
  have hplus : plusLevel ∉ levels root := fun hm => (hlv _ hm).2.2 (by decide)
  have hhash : hashLevel ∉ levels root := fun hm => (hlv _ hm).2.1 (by decide)
  rw [underRoot_iff, levels_append_hash, covers_append_hash_iff hhash hplus, levels_prefix_iff]

namespace TopicFilter

private theorem isPrefixFilter_iff {raw : Bytes} : isPrefixFilter raw = true ↔
    ∃ root, raw = root ++ ascii "/#" ∧ isWildcardFilter root = false := by
  have htake : ∀ root : Bytes, (root ++ ascii "/#").take ((root ++ ascii "/#").length - 2) = root := by
    intro root
    have hlen : (root ++ ascii "/#").length - 2 = root.length := by
      rw [length_append]
      exact Nat.add_sub_cancel _ 2
    rw [hlen, take_left]
  simp only [isPrefixFilter, Bool.and_eq_true, isSuffixOf_iff_suffix, Bool.not_eq_eq_eq_not,
    Bool.not_true]
  constructor
  · rintro ⟨⟨root, rfl⟩, hw⟩
    rw [htake] at hw
    exact ⟨root, rfl, hw⟩
  · rintro ⟨root, rfl, hw⟩
    rw [htake]
    exact ⟨suffix_append _ _, hw⟩

theorem matchTopic_insert {raw : Bytes} (hv : validFilter raw = .ok ()) (f : TopicFilter)
    (t : Bytes) : (f.insert raw).matchTopic t = true ↔
      f.matchTopic t = true ∨ raw ≠ rootHash ∧ Topics.Covers (levels raw) (levels t) := by
  have hlast := hashLast_of_validFilter hv
  rw [insert]
  by_cases hh : raw = hashLevel
  · have hcov : Topics.Covers (levels raw) (levels t) := by
      rw [hh]
      exact .rest _
    have hne : raw ≠ rootHash := by
      rw [hh]
      decide
    rw [if_pos hh]
    exact iff_of_true (by simp [matchTopic]) (.inr ⟨hne, hcov⟩)
  rw [if_neg hh]
  cases hw : isWildcardFilter raw with
  | false =>
    have hne : raw ≠ rootHash := by
      rintro rfl
      revert hw
      decide
    simp only [Bool.not_false, if_true, matchTopic, contains_cons, Bool.or_eq_true, beq_iff_eq,
      covers_exact_iff hw]
    tauto
  | true =>
    rw [Bool.not_true, if_neg Bool.false_ne_true]
    cases hp : isPrefixFilter raw with
    | true =>
      obtain ⟨root, rfl, hroot⟩ := (isPrefixFilter_iff).mp hp
      have hlen : (root ++ ascii "/#").length - 2 = root.length := by
        rw [length_append]
        exact Nat.add_sub_cancel _ 2
      have hne : root ++ ascii "/#" ≠ rootHash ↔ root ≠ [] := by
        simp [rootHash]
      simp only [if_true, hlen, take_left, matchTopic, any_append, any_cons,
        any_nil, Bool.or_false, Bool.or_eq_true, underRoot_iff_covers hroot, hne]
      tauto
    | false =>
      have hne : raw ≠ rootHash := by
        rintro rfl
        revert hp
        decide
      have hmatch : ∀ n : FilterNode, n.matchAt t (t.length + 2) 0 = n.matchLevels (levels t) := by
        intro n
        rw [FilterNode.matchAt_eq t _ n 0 (by omega) (by omega), restLevels, if_pos (Nat.zero_le _),
          drop_zero]
      simp only [Bool.false_eq_true, if_false, matchTopic, Option.any_some, hmatch, FilterNode.add,
        FilterNode.matchLevels_addLevels hlast, FilterNode.matchLevels_getD, Bool.or_eq_true,
        decide_eq_true_eq]
      tauto

end TopicFilter

/-- A valid list compiles, and the set matches what some filter of it matches, `/#` left out. -/
theorem compileLoop_matches {list : List Bytes} (hv : ∀ raw ∈ list, validFilter raw = .ok ())
    (f : TopicFilter) (t : Bytes) : ∃ g, compileLoop list f = .ok g ∧ (g.matchTopic t = true ↔
      f.matchTopic t = true ∨ ∃ raw ∈ list, raw ≠ rootHash ∧ Topics.Covers (levels raw) (levels t)) := by
  induction list generalizing f with
  | nil => exact ⟨f, rfl, by simp⟩
  | cons raw list ih =>
    have hraw := hv raw mem_cons_self
    obtain ⟨g, hg, hiff⟩ := ih (fun r hr => hv r (mem_cons_of_mem _ hr)) (f.insert raw)
    refine ⟨g, ?_, ?_⟩
    · rw [compileLoop, hraw]
      exact hg
    · rw [hiff, TopicFilter.matchTopic_insert hraw, or_assoc]
      simp only [exists_mem_cons_iff]

theorem covers_rootHash_iff {t : Bytes} :
    Topics.Covers (levels rootHash) (levels t) ↔ (levels t).head? = some [] := by
  have hroot : levels rootHash = [] :: [hashLevel] := by decide
  rw [hroot, covers_iff]
  rcases hls : levels t with _ | ⟨l, ls⟩
  · exact absurd hls (levels_ne_nil t)
  · simp only [List.cons.injEq, List.head?_cons, Option.some.injEq]
    constructor
    · rintro (⟨h, -⟩ | ⟨_, _, ⟨rfl, rfl⟩, h | h, -⟩)
      · exact absurd h (by decide)
      · exact absurd h (by decide)
      · exact h.symm
    · rintro rfl
      exact .inr ⟨[], ls, ⟨rfl, rfl⟩, .inr rfl, .rest ls⟩

/-- Some filter of the list covers the topic, level by level. -/
def AnyCovers (list : List Bytes) (t : Bytes) : Prop :=
  ∃ raw ∈ list, Topics.Covers (levels raw) (levels t)

/-- The compiled list matches a topic exactly when one of its filters covers it. -/
def CompiledAgrees (list : List Bytes) (t : Bytes) : Prop :=
  ∃ f, compileFilters list = .ok f ∧ (f.matchTopic t = true ↔ AnyCovers list t)

/-- `/#` is not in the list, or the topic does not begin with an empty level, or a filter other
than `/#` covers the topic too. -/
def RootHashSpared (list : List Bytes) (t : Bytes) : Prop :=
  rootHash ∉ list ∨ (levels t).head? ≠ some [] ∨ AnyCovers (list.filter (· ≠ rootHash)) t

theorem compiledAgrees_iff {list : List Bytes} (hv : ∀ raw ∈ list, validFilter raw = .ok ())
    (t : Bytes) : CompiledAgrees list t ↔ RootHashSpared list t := by
  obtain ⟨f, hf, hiff⟩ := compileLoop_matches hv TopicFilter.none t
  have hnone : TopicFilter.none.matchTopic t = false := rfl
  rw [hnone] at hiff
  have hothers : f.matchTopic t = true ↔ AnyCovers (list.filter (· ≠ rootHash)) t := by
    rw [hiff]
    simp [AnyCovers, and_assoc]
  have hall : AnyCovers list t ↔ AnyCovers (list.filter (· ≠ rootHash)) t ∨
      rootHash ∈ list ∧ (levels t).head? = some [] := by
    rw [← covers_rootHash_iff]
    constructor
    · rintro ⟨raw, hraw, hc⟩
      by_cases hr : raw = rootHash
      · exact .inr ⟨hr ▸ hraw, hr ▸ hc⟩
      · exact .inl ⟨raw, mem_filter.mpr ⟨hraw, decide_eq_true hr⟩, hc⟩
    · rintro (⟨raw, hraw, hc⟩ | ⟨hr, hc⟩)
      · exact ⟨raw, (mem_filter.mp hraw).1, hc⟩
      · exact ⟨rootHash, hr, hc⟩
  have hagrees : CompiledAgrees list t ↔ (f.matchTopic t = true ↔ AnyCovers list t) := by
    constructor
    · rintro ⟨g, hg, h⟩
      have hfg : f = g := Except.ok.inj (hf.symm.trans hg)
      rw [hfg]
      exact h
    · exact fun h => ⟨f, hf, h⟩
  rw [hagrees, hothers, hall, RootHashSpared]
  tauto

/-- `/#` is compiled to an empty prefix, which matches nothing. -/
theorem slashed_not_compiledAgrees :
    validFilter rootHash = .ok () ∧ ¬ CompiledAgrees [rootHash] (ascii "/a") := by
  refine ⟨by decide, ?_⟩
  rintro ⟨f, hf, h⟩
  have hfe : f = ⟨false, [], [[]], none⟩ := (Except.ok.inj hf).symm
  have hcov : AnyCovers [rootHash] (ascii "/a") :=
    ⟨rootHash, mem_cons_self, (covers_rootHash_iff).mpr (by decide)⟩
  have hmatch := h.mpr hcov
  rw [hfe] at hmatch
  revert hmatch
  decide

/-- A topic at a seam: `x/#` covers its parent level. -/
theorem prefixed_compiledAgrees : CompiledAgrees [ascii "x/#", ascii "a/+/c"] (ascii "x") := by
  refine (compiledAgrees_iff ?_ (ascii "x")).mpr (.inl ?_)
  · decide
  · decide

end MonsterMQ.PeerLink
