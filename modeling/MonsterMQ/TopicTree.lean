import MonsterMQ.TopicMatchers

/-!
# The topic tree

The trie of `internal/topic/tree.go`: filters are stored level by level with the data of their subscribers,
`FindData` collects the data of every filter that matches a topic and `IsMatching` says whether there is
any.
-/

namespace MonsterMQ.TopicTree

open LittleEndian PeerLink Auth Topics List

inductive Node (V : Type) where
  | mk (children : List (Bytes × Node V)) (dataset : List (Bytes × V))

namespace Node

variable {V : Type}

@[grind =] def children : Node V → List (Bytes × Node V)
  | mk c _ => c

@[grind =] def dataset : Node V → List (Bytes × V)
  | mk _ d => d

def newNode : Node V := mk [] []

@[grind =] def setChild (n : Node V) (l : Bytes) (child : Node V) : Node V :=
  mk (n.children.filter (fun c => c.1 ≠ l) ++ [(l, child)]) n.dataset

@[grind =] def setData (n : Node V) (key : Bytes) (value : V) : Node V :=
  mk n.children (n.dataset.filter (fun e => e.1 ≠ key) ++ [(key, value)])

@[grind =] def addLevels (key : Bytes) (value : Option V) : List Bytes → Node V → Node V
  | [], n =>
    match value with
    | some v => if key ≠ [] then n.setData key v else n
    | none => n
  | l :: ls, n => n.setChild l (addLevels key value ls ((n.children.lookup l).getD newNode))

@[grind =] def hashData (n : Node V) : List (Bytes × V) :=
  match n.children.lookup hashLevel with
  | some h => h.dataset
  | none => []

/-- One child in the walk of `FindData`, with what is found `below` one that fits. `dollar`
says that the topic starts with `$`, `first` that its first level is compared. -/
@[grind =] def findChild (dollar : Bool) (current : Bytes) (first filterDollar : Bool)
    (below : Node V → Bool → List (Bytes × V)) (c : Bytes × Node V) : List (Bytes × V) :=
  let childDollar := if first then c.1.head? == some dollarByte else filterDollar
  if c.1 = hashLevel then
    if first && dollar && !childDollar then [] else c.2.dataset
  else if c.1 = plusLevel then
    if first && dollar && !childDollar then [] else below c.2 childDollar
  else if c.1 = current then below c.2 childDollar
  else []

@[grind =] def findWalk (dollar : Bool) : List Bytes → Node V → Bytes → Bool → Bool → List (Bytes × V)
  | [], n, current, first, filterDollar =>
    -- a trailing `#` also matches its parent level
    n.children.flatMap (findChild dollar current first filterDollar
      fun child _ => child.dataset ++ child.hashData)
  | r :: rs, n, current, first, filterDollar =>
    n.children.flatMap (findChild dollar current first filterDollar
      fun child childDollar => findWalk dollar rs child r false childDollar)

def matchChild (dollar : Bool) (current : Bytes) (first filterDollar : Bool)
    (below : Node V → Bool → Bool) (c : Bytes × Node V) : Bool :=
  let childDollar := if first then c.1.head? == some dollarByte else filterDollar
  if c.1 = hashLevel then
    if first && dollar && !childDollar then false else !c.2.dataset.isEmpty
  else if c.1 = plusLevel then
    if first && dollar && !childDollar then false else below c.2 childDollar
  else if c.1 = current then below c.2 childDollar
  else false

def matchWalk (dollar : Bool) : List Bytes → Node V → Bytes → Bool → Bool → Bool
  | [], n, current, first, filterDollar =>
    n.children.any (matchChild dollar current first filterDollar
      fun child _ => !child.dataset.isEmpty || !child.hashData.isEmpty)
  | r :: rs, n, current, first, filterDollar =>
    n.children.any (matchChild dollar current first filterDollar
      fun child childDollar => matchWalk dollar rs child r false childDollar)

end Node

@[grind =] def splitTopic (topic : Bytes) : List Bytes := if topic = [] then [] else levels topic

structure Tree (V : Type) where
  root : Node V

variable {V : Type}

def newTree : Tree V := ⟨.newNode⟩

@[grind =] def Tree.addData (t : Tree V) (topic key : Bytes) (value : V) : Tree V :=
  match splitTopic topic with
  | [] => t
  | ls => ⟨t.root.addLevels key (some value) ls⟩

@[grind =] def Tree.findData (t : Tree V) (topic : Bytes) : List (Bytes × V) :=
  match splitTopic topic with
  | [] => []
  | l :: ls => Node.findWalk (l.head? = some dollarByte) ls t.root l true false

def Tree.isMatching (t : Tree V) (topic : Bytes) : Bool :=
  match splitTopic topic with
  | [] => false
  | l :: ls => Node.matchWalk (l.head? = some dollarByte) ls t.root l true false

theorem flatMap_ne_nil_iff {α β : Type} {l : List α} {f : α → List β} :
    l.flatMap f ≠ [] ↔ ∃ a ∈ l, f a ≠ [] := by
  rw [Ne, flatMap_eq_nil_iff]
  simp only [not_forall, exists_prop, Ne]

theorem matchChild_iff {dollar first filterDollar : Bool} {current : Bytes}
    {below : Node V → Bool → Bool} {found : Node V → Bool → List (Bytes × V)}
    (h : ∀ n d, below n d = true ↔ found n d ≠ []) (c : Bytes × Node V) :
    Node.matchChild dollar current first filterDollar below c = true ↔
      Node.findChild dollar current first filterDollar found c ≠ [] := by
  rw [Node.matchChild, Node.findChild]
  split_ifs <;> simp [h]

theorem matchWalk_iff (dollar : Bool) (rest : List Bytes) : ∀ (n : Node V) (current : Bytes)
    (first filterDollar : Bool), n.matchWalk dollar rest current first filterDollar = true ↔
      n.findWalk dollar rest current first filterDollar ≠ [] := by
  induction rest with
  | nil =>
    intro n current first filterDollar
    rw [Node.matchWalk, Node.findWalk, any_eq_true, flatMap_ne_nil_iff]
    apply exists_congr
    intro c
    apply and_congr_right
    intro _
    apply matchChild_iff
    intro m d
    simp [imp_iff_not_or]
  | cons r rs ih =>
    intro n current first filterDollar
    rw [Node.matchWalk, Node.findWalk, any_eq_true, flatMap_ne_nil_iff]
    apply exists_congr
    intro c
    apply and_congr_right
    intro _
    apply matchChild_iff
    intro m d
    exact ih m r false d

theorem isMatching_iff (t : Tree V) (topic : Bytes) : t.isMatching topic = true ↔ t.findData topic ≠ [] := by
  rw [Tree.isMatching, Tree.findData]
  split
  · exact iff_of_false (by decide) (fun h => h rfl)
  · exact matchWalk_iff _ _ _ _ _ _

end MonsterMQ.TopicTree
