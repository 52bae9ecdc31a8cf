import MonsterMQ.VirtualTrees

/-!
# The resolver of virtual trees

The compiled routing table of `internal/virtualtrees/resolver.go`: publishing and reading
resolve a virtual topic to its canonical topic, projection and presentation go the other
way, and stored items are looked up for a filter by canonical queries.
-/

namespace MonsterMQ.Virtual

open LittleEndian PeerLink Auth Topics

structure Route where
  nodeID : Bytes
  path : Bytes
  binding : Binding
  deriving DecidableEq, Repr

structure Presentation where
  virtual : Bytes
  nodeID : Bytes
  treeID : Bytes
  access : Access
  deriving DecidableEq, Repr

structure Compiled where
  tree : Tree
  exact : List (Bytes × Route)
  mounts : List (Bytes × Route)
  deriving DecidableEq, Repr

@[grind =] def Compiled.addNode (paths : List (Bytes × Bytes)) (c : Compiled) (n : Node) : Compiled :=
  match paths.lookup n.id with
  | none => c
  | some p =>
    match n.binding with
    | none => c
    | some b =>
      if b.kind = .exact then { c with exact := setKey p ⟨n.id, p, b⟩ c.exact }
      else { c with mounts := setKey p ⟨n.id, p, b⟩ c.mounts }

def compile (t : Tree) : Compiled := t.nodes.foldl (Compiled.addNode t.paths) ⟨t, [], []⟩

def lastSlash (s : Bytes) : Option ℕ :=
  if slashByte ∈ s then some (s.length - 1 - s.reverse.idxOf slashByte) else none

/-- The topics that a loop over `LastIndexByte` goes through. -/
@[grind =] def walkUp : ℕ → Bytes → List Bytes
  | 0, _ => []
  | fuel + 1, p =>
    p :: match lastSlash p with
      | none => []
      | some i => walkUp fuel (p.take i)

def upward (topic : Bytes) : List Bytes := walkUp (topic.length + 1) topic

/-- The binding that wins for a virtual topic: an exact one, or the longest mount. -/
@[grind =] def Compiled.winner (c : Compiled) (v : Bytes) : Option Route :=
  match c.exact.lookup v with
  | some r => some r
  | none => if c.mounts.isEmpty then none else (upward v).findSome? fun p => c.mounts.lookup p

structure Resolver where
  compiled : List Compiled
  deriving DecidableEq, Repr

def newResolver (trees : List Tree) : Resolver := ⟨trees.map compile⟩

namespace Resolver

def isEmpty (r : Resolver) : Bool := r.compiled.isEmpty

@[grind =] def byRoot (r : Resolver) (p : Bytes) : Option Compiled :=
  r.compiled.find? fun c => c.tree.rootPath = p

@[grind =] def enabled (r : Resolver) : List Compiled := r.compiled.filter fun c => c.tree.enabled

@[grind =] def byTarget (r : Resolver) (routes : Compiled → List (Bytes × Route)) (target : Bytes) :
    List (Compiled × Route) :=
  r.enabled.flatMap fun c =>
    ((routes c).filter fun e => e.2.binding.target = target).map fun e => (c, e.2)

def exactByTarget (r : Resolver) (target : Bytes) : List (Compiled × Route) :=
  r.byTarget Compiled.exact target

def mountsByTarget (r : Resolver) (target : Bytes) : List (Compiled × Route) :=
  r.byTarget Compiled.mounts target

@[grind =] def owner (r : Resolver) (topic : Bytes) : Option Compiled := (upward topic).findSome? r.byRoot

@[grind =] def inVirtualNamespace (r : Resolver) (topic : Bytes) : Bool := (r.owner topic).isSome

end Resolver

def canonical (v : Bytes) (rt : Route) : Bytes :=
  if rt.binding.kind = .exact then rt.binding.target
  else rt.binding.target ++ v.drop rt.path.length

inductive Reject where
  | readOnly
  | unbound
  | disabled
  deriving DecidableEq, Repr

namespace Resolver

@[grind =] def publish (r : Resolver) (topic : Bytes) : Except Reject Bytes :=
  match r.owner topic with
  | none => .ok topic
  | some c =>
    if !c.tree.enabled then .error .disabled
    else match c.winner topic with
      | none => .error .unbound
      | some rt =>
        if rt.binding.access ≠ .readWrite then .error .readOnly else .ok (canonical topic rt)

@[grind =] def winnerRoute (r : Resolver) (topic : Bytes) : Option Route :=
  match r.owner topic with
  | none => none
  | some c => if !c.tree.enabled then none else c.winner topic

@[grind =] def readResolve (r : Resolver) (topic : Bytes) : Option Bytes :=
  match r.owner topic with
  | none => some topic
  | some c =>
    if !c.tree.enabled then none
    else (c.winner topic).map (canonical topic)

def present (c : Compiled) (rt : Route) (v : Bytes) : Presentation :=
  ⟨v, rt.nodeID, c.tree.id, rt.binding.access⟩

@[grind =] def textLE : Bytes → Bytes → Bool
  | [], _ => true
  | _ :: _, [] => false
  | a :: as, b :: bs => a < b || (a = b && textLE as bs)

@[grind =] def project (r : Resolver) (canonicalTopic : Bytes) : List Presentation :=
  let exact := (r.exactByTarget canonicalTopic).map fun (c, e) => present c e e.path
  let mounts := (upward canonicalTopic).flatMap fun target =>
    (r.mountsByTarget target).filterMap fun (c, m) =>
      let v := m.path ++ canonicalTopic.drop target.length
      if c.winner v = some m then some (present c m v) else none
  (exact ++ mounts).mergeSort fun a b => textLE a.virtual b.virtual

def addNames (out : List Bytes) (proj : List Presentation) : List Bytes :=
  proj.foldl (fun out p => if p.virtual ∈ out then out else out ++ [p.virtual]) out

@[grind =] def presentations (r : Resolver) (canonicalTopic : Bytes) : List Bytes :=
  let physical := if r.inVirtualNamespace canonicalTopic then [] else [canonicalTopic]
  addNames physical (r.project canonicalTopic)

@[grind =] def presented (r : Resolver) (filter canonicalTopic : Bytes) : List Bytes :=
  ((r.presentations canonicalTopic).filter (virtualMatch filter)).mergeSort textLE

end Resolver

/-- The levels of a mount path against those of a filter, in `CanonicalFilters`. -/
def mountFilters (target : Bytes) : List Bytes → List Bytes → List Bytes
  | f, [] =>
    if f = [] then [target]
    else if joinLevels f = hashLevel then [target ++ ascii "/#", target]
    else [target ++ slashByte :: joinLevels f]
  | [], _ :: _ => []
  | f :: fs, p :: ps =>
    if f = hashLevel then [target ++ ascii "/#", target]
    else if f ≠ plusLevel && f ≠ p then []
    else mountFilters target fs ps

def canonicalFilters (filter : Bytes) (rt : Route) : List Bytes :=
  if rt.binding.kind = .exact then
    if virtualMatch filter rt.path then [rt.binding.target] else []
  else mountFilters rt.binding.target (levels filter) (levels rt.path)

def sortedRoutes (m : List (Bytes × Route)) : List Route :=
  (m.map Prod.snd).mergeSort fun a b => Resolver.textLE a.path b.path

@[grind =] def Resolver.canonicalQueries (r : Resolver) (filter : Bytes) : List Bytes :=
  (r.enabled.flatMap fun c =>
    (sortedRoutes c.exact).flatMap (canonicalFilters filter) ++
      (sortedRoutes c.mounts).flatMap (canonicalFilters filter)).foldl
    (fun out f => if f ∈ out then out else out ++ [f]) []

structure Found (T : Type) where
  emitted : List (Bytes × T) := []
  seen : List Bytes := []
  stop : Bool := false

section Find

variable {T : Type} (r : Resolver) (filter : Bytes) (finder : Bytes → List T) (topicOf : T → Bytes)
  (emit : Bytes → T → Bool)

@[grind =] def Found.add (s : Found T) (name : Bytes) (item : T) : Found T where
  emitted := s.emitted ++ [(name, item)]
  seen := name :: s.seen
  stop := s.stop || !emit name item

/-- A finder calls back for each item until the callback returns false. -/
def eachItem (callback : T → Found T → Found T) : List T → Found T → Found T
  | [], s => s
  | item :: items, s =>
    let s := callback item s
    if s.stop then s else eachItem callback items s

def physicalItem (item : T) (s : Found T) : Found T :=
  let t := topicOf item
  if !r.inVirtualNamespace t && t ∉ s.seen then s.add emit t item else s

def eachPresentation (item : T) : List Presentation → Found T → Found T
  | [], s => s
  | p :: ps, s =>
    if virtualMatch filter p.virtual && p.virtual ∉ s.seen then
      let s := s.add emit p.virtual item
      if s.stop then s else eachPresentation item ps s
    else eachPresentation item ps s

def eachQuery : List Bytes → Found T → Found T
  | [], s => s
  | q :: qs, s =>
    let s := eachItem (fun item => eachPresentation filter emit item (r.project (topicOf item)))
      (finder q) s
    if s.stop then s else eachQuery qs s

def findPresented : Found T :=
  let s := eachItem (physicalItem r topicOf emit) (finder filter) {}
  if s.stop || r.isEmpty then s
  else eachQuery r filter finder topicOf emit (r.canonicalQueries filter) s

end Find

end MonsterMQ.Virtual
