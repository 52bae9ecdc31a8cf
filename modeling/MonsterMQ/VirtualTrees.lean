import MonsterMQ.TopicMatchersAgree

/-!
# Virtual topic trees

The trees of `internal/virtualtrees`: a tree reserves a root topic as a virtual namespace whose nodes
present canonical topics or canonical subtrees under other names.
-/

namespace MonsterMQ.Virtual

open LittleEndian PeerLink Auth Topics List

inductive Kind where
  | exact
  | subtree
  | other (kind : Bytes)
  deriving DecidableEq, Repr

inductive Access where
  | readOnly
  | readWrite
  | other (access : Bytes)
  deriving DecidableEq, Repr

def Kind.text : Kind → Bytes
  | exact => ascii "EXACT"
  | subtree => ascii "SUBTREE"
  | other kind => kind

def Access.text : Access → Bytes
  | readOnly => ascii "READ_ONLY"
  | readWrite => ascii "READ_WRITE"
  | other access => access

structure Binding where
  kind : Kind
  target : Bytes
  access : Access
  deriving DecidableEq, Repr

structure Node where
  id : Bytes
  parentID : Option Bytes
  segment : Bytes
  binding : Option Binding
  deriving DecidableEq, Repr

structure Tree where
  schemaVersion : ℤ
  id : Bytes
  rootPath : Bytes
  enabled : Bool
  nodes : List Node
  deriving DecidableEq, Repr

def Tree.byID (t : Tree) (id : Bytes) : Option Node := t.nodes.find? fun n => n.id = id

@[grind =] def setKey {α : Type} (k : Bytes) (v : α) (m : List (Bytes × α)) : List (Bytes × α) :=
  m.filter (fun e => e.1 ≠ k) ++ [(k, v)]

/-- The inner function of `Paths`, with the paths found so far and the ids on the way here. -/
@[grind =] def Tree.resolve (t : Tree) : ℕ → List (Bytes × Bytes) → List Bytes → Bytes →
    Option Bytes × List (Bytes × Bytes)
  | 0, out, _, _ => (none, out)
  | fuel + 1, out, seen, id =>
    match out.lookup id with
    | some p => (some p, out)
    | none =>
      match t.byID id with
      | none => (none, out)
      | some n =>
        if id ∈ seen then (none, out)
        else
          let (base, out) := match n.parentID with
            | none => (some t.rootPath, out)
            | some parent => t.resolve fuel out (id :: seen) parent
          match base with
          | none => (none, out)
          | some base =>
            let p := base ++ slashByte :: n.segment
            (some p, setKey id p out)

/-- `Paths`: the virtual path of each node; nodes in a cycle or below an unknown parent have
none. -/
def Tree.paths (t : Tree) : List (Bytes × Bytes) :=
  t.nodes.foldl (fun out n => (t.resolve (t.nodes.length + 1) out [] n.id).2) []

def under (topic base : Bytes) : Bool :=
  topic = base || (topic.length > base.length && base.isPrefixOf topic &&
    (topic.drop base.length).head? = some slashByte)

@[grind =] def hasWildcard (s : Bytes) : Bool := s.contains 0x2B || s.contains 0x23

def validSegment (s : Bytes) : Bool :=
  validName s && !(s.contains slashByte || s.contains 0x2B || s.contains 0x23)

inductive Code where
  | invalidTopic
  | schemaVersion
  | reservedTopic
  | duplicateID
  | invalidSegment
  | invalidParent
  | cycle
  | duplicatePath
  | invalidBinding
  | unsupportedWild
  | targetInRoot
  | rootConflict
  deriving DecidableEq, Repr

structure Issue where
  code : Code
  nodeID : Bytes
  path : Bytes
  message : Bytes
  deriving DecidableEq, Repr

def quoted (s : Bytes) : Bytes := [0x27] ++ s ++ [0x27]

def headIssues (t : Tree) : List Issue :=
  (if t.id = [] then [⟨.invalidTopic, [], [], ascii "Tree id must not be empty"⟩] else []) ++
  (if t.schemaVersion ≠ 1 then
    [⟨.schemaVersion, [], t.rootPath,
      ascii "Unsupported schemaVersion " ++ ascii (toString t.schemaVersion)⟩] else []) ++
  (if !validName t.rootPath || hasWildcard t.rootPath then
    [⟨.invalidTopic, [], t.rootPath, ascii "Invalid root path " ++ quoted t.rootPath⟩]
  else if t.rootPath.head? = some dollarByte then
    [⟨.reservedTopic, [], t.rootPath, ascii "Root path must not start with '$'"⟩]
  else [])

/-- The loop over the nodes that looks for repeated ids. -/
def idIssues : List Bytes → List Node → List Issue
  | _, [] => []
  | seen, n :: ns =>
    (if n.id ∈ seen then
      [⟨.duplicateID, n.id, [], ascii "Duplicate node id " ++ quoted n.id⟩] else []) ++
    idIssues (n.id :: seen) ns

def bindingIssues (roots : List Bytes) (id p : Bytes) (b : Binding) : List Issue :=
  (if (b.kind ≠ .exact ∧ b.kind ≠ .subtree) ∨ (b.access ≠ .readOnly ∧ b.access ≠ .readWrite) then
    [⟨.invalidBinding, id, p, ascii "Invalid binding kind " ++ quoted b.kind.text ++
      ascii " or access " ++ quoted b.access.text⟩]
  else if hasWildcard b.target then
    [⟨.unsupportedWild, id, p, ascii "Binding target " ++ quoted b.target ++
      ascii " must not contain wildcards"⟩]
  else if !validName b.target then
    [⟨.invalidTopic, id, p, ascii "Invalid binding target " ++ quoted b.target⟩]
  else []) ++
  (roots.filter (under b.target)).map fun root =>
    ⟨.targetInRoot, id, p, ascii "Binding target " ++ quoted b.target ++
      ascii " lies in virtual root " ++ quoted root⟩

@[grind =] def pathIssues (roots : List Bytes) (seen : List (Bytes × Bytes)) (n : Node) (p : Bytes) :
    List Issue :=
  (if p.length > 65535 then
    [⟨.invalidTopic, n.id, [], ascii "Derived path is too long"⟩] else []) ++
  (match seen.lookup p with
    | some other =>
      if other ≠ n.id then
        [⟨.duplicatePath, n.id, p, ascii "Path " ++ quoted p ++
          ascii " is already used by node " ++ quoted other⟩]
      else []
    | none => []) ++
  (match n.binding with
    | none => []
    | some b => bindingIssues roots n.id p b)

def unknownParent (t : Tree) (n : Node) : Option Bytes :=
  n.parentID.filter fun parent => (t.byID parent).isNone

@[grind =] def nodeIssues (t : Tree) (roots : List Bytes) (paths : List (Bytes × Bytes)) :
    List (Bytes × Bytes) → List Node → List Issue
  | _, [] => []
  | seen, n :: ns =>
    (if n.id = [] then [⟨.invalidSegment, n.id, [], ascii "Node id must not be empty"⟩] else []) ++
    (if !validSegment n.segment then
      [⟨.invalidSegment, n.id, [], ascii "Invalid segment " ++ quoted n.segment⟩] else []) ++
    match unknownParent t n with
    | some parent =>
      ⟨.invalidParent, n.id, [], ascii "Unknown parent " ++ quoted parent⟩ ::
        nodeIssues t roots paths seen ns
    | none =>
      match paths.lookup n.id with
      | none =>
        ⟨.cycle, n.id, [], ascii "Node is part of a cycle"⟩ :: nodeIssues t roots paths seen ns
      | some p => pathIssues roots seen n p ++ nodeIssues t roots paths (setKey p n.id seen) ns

def otherIssues (t o : Tree) : List Issue :=
  (if under o.rootPath t.rootPath || under t.rootPath o.rootPath then
    [⟨.rootConflict, [], t.rootPath, ascii "Root " ++ quoted t.rootPath ++
      ascii " overlaps root " ++ quoted o.rootPath ++ ascii " of tree " ++ quoted o.id⟩]
  else []) ++
  o.nodes.flatMap fun n =>
    match n.binding with
    | none => []
    | some b =>
      if under b.target t.rootPath then
        [⟨.targetInRoot, [], t.rootPath, ascii "Root " ++ quoted t.rootPath ++
          ascii " contains target " ++ quoted b.target ++ ascii " of tree " ++ quoted o.id⟩]
      else []

def validate (t : Tree) (others : List Tree) : List Issue :=
  headIssues t ++ idIssues [] t.nodes ++
    nodeIssues t (others.map Tree.rootPath ++ [t.rootPath]) t.paths [] t.nodes ++
    others.flatMap (otherIssues t)

def PairwiseValid (trees : List Tree) : Prop :=
  ∀ before t after, trees = before ++ t :: after → validate t (before ++ after) = []

section Keys

variable {α : Type} {k k' : Bytes} {v : α} {m : List (Bytes × α)}

theorem lookup_filter_ne : (m.filter fun e => e.1 ≠ k).lookup k' = if k' = k then none else m.lookup k' := by
  induction m with
  | nil =>
    split <;> rfl
  | cons e m ih =>
    obtain ⟨a, b⟩ := e
    by_cases ha : a = k
    · rw [filter_cons_of_neg (by simpa using ha), ih]
      split
      · rfl
      · rename_i hne
        have : (k' == a) = false := beq_eq_false_iff_ne.mpr (by rw [ha]; exact hne)
        rw [lookup_cons, this]
    · rw [filter_cons_of_pos (by simpa using ha), lookup_cons, lookup_cons, ih]
      by_cases hk : k' = a
      · have hne : ¬ k' = k := by
          rw [hk]
          exact ha
        rw [beq_iff_eq.mpr hk, if_neg hne, if_neg hne]
      · rw [beq_eq_false_iff_ne.mpr hk]

theorem lookup_setKey : (setKey k v m).lookup k' = if k' = k then some v else m.lookup k' := by
  rw [setKey, lookup_append, lookup_filter_ne]
  by_cases hk : k' = k
  · rw [if_pos hk, if_pos hk, lookup_cons, beq_iff_eq.mpr hk]
    rfl
  · rw [if_neg hk, if_neg hk, lookup_cons, beq_eq_false_iff_ne.mpr hk]
    cases m.lookup k' <;> rfl

@[grind =] def DistinctKeys (m : List (Bytes × α)) : Prop := (m.map Prod.fst).Nodup

theorem distinctKeys_setKey (h : DistinctKeys m) : DistinctKeys (setKey k v m) := by
  rw [DistinctKeys, setKey, map_append, nodup_append]
  refine ⟨?_, nodup_cons.mpr ⟨not_mem_nil, nodup_nil⟩, ?_⟩
  · exact h.sublist (filter_sublist.map _)
  · intro a ha b hb
    rw [map_cons, map_nil, mem_singleton] at hb
    obtain ⟨e, he, rfl⟩ := mem_map.mp ha
    rw [hb]
    simpa using (mem_filter.mp he).2

theorem mem_iff_lookup (h : DistinctKeys m) : (k, v) ∈ m ↔ m.lookup k = some v := by
  induction m with
  | nil => simp
  | cons e m ih =>
    obtain ⟨a, b⟩ := e
    rw [DistinctKeys, map_cons, nodup_cons] at h
    rw [mem_cons, lookup_cons]
    by_cases hk : k = a
    · subst hk
      rw [beq_self_eq_true]
      constructor
      · rintro (heq | hm)
        · rw [(Prod.mk.inj heq).2]
        · exact absurd (mem_map.mpr ⟨_, hm, rfl⟩) h.1
      · intro heq
        left
        rw [Option.some.inj heq]
    · rw [beq_eq_false_iff_ne.mpr hk]
      rw [← ih h.2]
      constructor
      · rintro (heq | hm)
        · exact absurd (Prod.mk.inj heq).1 hk
        · exact hm
      · exact fun hm => .inr hm

end Keys

theorem under_iff {topic base : Bytes} :
    under topic base = true ↔ topic = base ∨ ∃ rest, topic = base ++ slashByte :: rest := by
  rw [under, Bool.or_eq_true, decide_eq_true_iff]
  apply or_congr_right
  rw [Bool.and_eq_true, Bool.and_eq_true, decide_eq_true_iff, decide_eq_true_iff,
    isPrefixOf_iff_prefix]
  constructor
  · rintro ⟨⟨-, s, rfl⟩, hs⟩
    rw [drop_left] at hs
    cases s with
    | nil => cases hs
    | cons b s =>
      rw [List.head?_cons, Option.some.injEq] at hs
      exact ⟨s, by rw [hs]⟩
  · rintro ⟨rest, rfl⟩
    refine ⟨⟨?_, prefix_append _ _⟩, ?_⟩
    · rw [length_append, length_cons]
      omega
    · rw [drop_left, List.head?_cons]

theorem under_refl (topic : Bytes) : under topic topic = true := (under_iff).mpr (.inl rfl)

theorem under_append (base rest : Bytes) : under (base ++ slashByte :: rest) base = true :=
  (under_iff).mpr (.inr ⟨rest, rfl⟩)

theorem under_trans {a b c : Bytes} (h : under a b = true) (h' : under b c = true) : under a c = true := by
  rcases (under_iff).mp h with rfl | ⟨s, rfl⟩
  · exact h'
  · rcases (under_iff).mp h' with rfl | ⟨s', rfl⟩
    · exact h
    · rw [append_assoc, cons_append]
      exact under_append _ _

theorem under_comparable {a b c : Bytes} (hb : under a b = true) (hc : under a c = true) :
    under b c = true ∨ under c b = true := by
  have split : ∀ {x y : Bytes}, under a x = true → under a y = true → x.length ≤ y.length →
      under y x = true := by
    intro x y hx hy hlen
    apply (under_iff).mpr
    rcases (under_iff).mp hx with rfl | ⟨s, rfl⟩
    · rcases (under_iff).mp hy with rfl | ⟨s', hs'⟩
      · exact .inl rfl
      · have := congrArg List.length hs'
        rw [length_append, length_cons] at this
        omega
    · rcases (under_iff).mp hy with rfl | ⟨s', hs'⟩
      · exact .inr ⟨s, rfl⟩
      · obtain ⟨z, hz, hz'⟩ | ⟨z, hz, hz'⟩ := append_eq_append_iff.mp hs'
        · cases z with
          | nil =>
            left
            rw [hz, append_nil]
          | cons b z =>
            right
            rw [cons_append, List.cons.injEq] at hz'
            exact ⟨z, by rw [hz, hz'.1]⟩
        · have := congrArg List.length hz
          rw [length_append] at this
          have hnil : z = [] := eq_nil_of_length_eq_zero (by omega)
          left
          rw [hz, hnil, append_nil]
  rcases Nat.le_total c.length b.length with h | h
  · exact .inl (split hc hb h)
  · exact .inr (split hb hc h)

end MonsterMQ.Virtual
