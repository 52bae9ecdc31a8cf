import Mathlib.Data.List.Sort
import MonsterMQ.NestedMaps
import MonsterMQ.TopicFilters

/-!
# The topic index

`TopicsIndex` of `internal/mqtt/topics.go`: exact subscriptions in sharded maps, wildcard and
shared ones in maps by client and by group, and the snapshots both are read through. A loop over
a map visits its entries in an order of its own, which every operation takes as an argument.
-/

namespace MonsterMQ.Topics

open LittleEndian PeerLink Auth FiniteMaps

structure Subscription where
  filter : Bytes
  identifier : ℤ
  identifiers : Option (FMap Bytes ℤ)
  retainHandling : UInt8
  qos : UInt8
  retainAsPublished : Bool
  noLocal : Bool
  fwdRetainedFlag : Bool
  deriving DecidableEq

@[grind =] def identifiersLen (ids : Option (FMap Bytes ℤ)) : ℕ := (ids.map size).getD 0

@[grind =] def mergeIdentifiers (s n : Subscription) : Option (FMap Bytes ℤ) :=
  if s.identifier > 0 || n.identifier > 0 || identifiersLen s.identifiers > 0 ||
      identifiersLen n.identifiers > 0 then
    let ids := s.identifiers.getD ((∅ : FMap Bytes ℤ).insert s.filter s.identifier)
    let ids := if n.identifier > 0 then ids.insert n.filter n.identifier else ids
    some (((n.identifiers.map (·.entries)).getD []).foldl
      (fun ids e => if e.2 > 0 then ids.insert e.1 e.2 else ids) ids)
  else s.identifiers

def Subscription.merge (s n : Subscription) : Subscription :=
  { s with
    identifiers := mergeIdentifiers s n
    qos := if n.qos > s.qos then n.qos else s.qos
    noLocal := if n.noLocal then true else s.noLocal }

/-- The sorted, non-zero identifiers to send with a PUBLISH. -/
def Subscription.subscriptionIdentifiers (s : Subscription) : List ℤ :=
  if identifiersLen s.identifiers > 0 then
    ((((s.identifiers.map (·.entries)).getD []).map (·.2)).filter (· > 0)).insertionSort (· ≤ ·)
  else if s.identifier > 0 then [s.identifier]
  else []

structure InlineSubscription where
  sub : Subscription
  handler : ℕ
  deriving DecidableEq

structure ExactTopicEntry where
  subs : List (Bytes × Subscription)
  inline : List InlineSubscription
  deriving DecidableEq

/-- A shard of the exact index and the copy its readers see. -/
structure ExactShard where
  internal : FMap Bytes ExactTopicEntry
  snap : FMap Bytes ExactTopicEntry

structure WildcardSnapshot where
  clients : List (Bytes × List Subscription)
  inline : List InlineSubscription
  shared : List (Bytes × FMap Bytes Subscription)

structure TopicsIndex where
  exact : Fin 64 → ExactShard
  wildcardClients : FMap Bytes (FMap Bytes Subscription)
  wildcardInline : FMap Bytes (FMap ℤ InlineSubscription)
  shared : FMap Bytes (FMap Bytes Subscription)
  wildcardSnap : Option WildcardSnapshot

def newTopicsIndex : TopicsIndex := ⟨fun _ => ⟨∅, ∅⟩, ∅, ∅, ∅, none⟩

def exactShardIdx (topic : Bytes) : Fin 64 :=
  let h := topic.foldl (fun (h : UInt32) b => (h ^^^ b.toUInt32) * 16777619) 2166136261
  Fin.ofNat 64 (h &&& 63).toNat

def plainOfKey (key : Bytes) : Option Bytes :=
  match key.dropWhile (· ≠ 0) with
  | [] => none
  | _ :: plain => some plain

/-- What `rebuildWildcardSnapLocked` stores. -/
@[grind =] def buildSnapshot (o : MapOrder) (x : TopicsIndex) : Option WildcardSnapshot :=
  if size x.wildcardClients = 0 && size x.wildcardInline = 0 && size x.shared = 0 then none
  else some {
    inline := (o.visit x.wildcardInline.entries).flatMap fun byID => (o.visit byID.2.entries).map (·.2)
    clients := (o.visit x.wildcardClients.entries).filterMap fun e =>
      if size e.2 = 0 then none else some (e.1, (o.visit e.2.entries).map (·.2))
    shared := (o.visit x.shared.entries).filterMap fun e =>
      if size e.2 = 0 then none else (plainOfKey e.1).map fun plain => (plain, e.2) }

namespace TopicsIndex

@[grind =] def rebuildWildcardSnap (o : MapOrder) (x : TopicsIndex) : TopicsIndex :=
  { x with wildcardSnap := buildSnapshot o x }

@[grind =]
def setShard (x : TopicsIndex) (topic : Bytes) (internal : FMap Bytes ExactTopicEntry) : TopicsIndex :=
  { x with exact := Function.update x.exact (exactShardIdx topic) ⟨internal, internal⟩ }

@[grind =] def exactInternal (x : TopicsIndex) (topic : Bytes) : FMap Bytes ExactTopicEntry :=
  (x.exact (exactShardIdx topic)).internal

def getExact (x : TopicsIndex) (topic : Bytes) : Option ExactTopicEntry :=
  (x.exact (exactShardIdx topic)).snap.lookup topic

def upsertExactSub (x : TopicsIndex) (topic client : Bytes) (sub : Subscription) : TopicsIndex × Bool :=
  let internal := x.exactInternal topic
  match internal.lookup topic with
  | some prev =>
    let (subs, existed) := upsert (fun cs => cs.1 = client) (client, sub) prev.subs
    (x.setShard topic (internal.insert topic ⟨subs, prev.inline⟩), existed)
  | none => (x.setShard topic (internal.insert topic ⟨[(client, sub)], []⟩), false)

def deleteExactSub (x : TopicsIndex) (topic client : Bytes) : TopicsIndex × Bool :=
  let internal := x.exactInternal topic
  match internal.lookup topic with
  | none => (x, false)
  | some prev =>
    if !prev.subs.any (fun cs => cs.1 = client) then (x, false)
    else
      let subs := prev.subs.filter (fun cs => cs.1 ≠ client)
      if subs.isEmpty && prev.inline.isEmpty then (x.setShard topic (internal.erase topic), true)
      else (x.setShard topic (internal.insert topic ⟨subs, prev.inline⟩), true)

def upsertExactInline (x : TopicsIndex) (topic : Bytes) (inl : InlineSubscription) : TopicsIndex × Bool :=
  let internal := x.exactInternal topic
  match internal.lookup topic with
  | some prev =>
    let (inline, existed) :=
      upsert (fun i : InlineSubscription => i.sub.identifier = inl.sub.identifier) inl prev.inline
    (x.setShard topic (internal.insert topic ⟨prev.subs, inline⟩), existed)
  | none => (x.setShard topic (internal.insert topic ⟨[], [inl]⟩), false)

def deleteExactInline (x : TopicsIndex) (topic : Bytes) (id : ℤ) : TopicsIndex × Bool :=
  let internal := x.exactInternal topic
  match internal.lookup topic with
  | none => (x, false)
  | some prev =>
    if !prev.inline.any (fun i => i.sub.identifier = id) then (x, false)
    else
      let inline := prev.inline.filter (fun i => i.sub.identifier ≠ id)
      if prev.subs.isEmpty && inline.isEmpty then (x.setShard topic (internal.erase topic), true)
      else (x.setShard topic (internal.insert topic ⟨prev.subs, inline⟩), true)

end TopicsIndex

@[grind =] def shareKey (group plain : Bytes) : Bytes := group ++ 0 :: plain

def keyOfFilter (filter : Bytes) : Bytes := shareKey (splitShared filter).1 (splitShared filter).2

namespace TopicsIndex

def inlineSubscribe (x : TopicsIndex) (o : MapOrder) (inl : InlineSubscription) : TopicsIndex × Bool :=
  if isWildcardFilter inl.sub.filter then
    let (m, existed) := insertAt x.wildcardInline inl.sub.filter inl.sub.identifier inl
    ({ x with wildcardInline := m }.rebuildWildcardSnap o, !existed)
  else
    let (x, existed) := x.upsertExactInline inl.sub.filter inl
    (x, !existed)

def inlineUnsubscribe (x : TopicsIndex) (o : MapOrder) (id : ℤ) (filter : Bytes) : TopicsIndex × Bool :=
  if isWildcardFilter filter then
    match eraseAt x.wildcardInline filter id with
    | none => (x, false)
    | some m => ({ x with wildcardInline := m }.rebuildWildcardSnap o, true)
  else x.deleteExactInline filter id

@[grind =]
def subscribe (x : TopicsIndex) (o : MapOrder) (client : Bytes) (sub : Subscription) : TopicsIndex × Bool :=
  if isSharedFilter sub.filter then
    let (m, existed) := insertAt x.shared (keyOfFilter sub.filter) client sub
    ({ x with shared := m }.rebuildWildcardSnap o, !existed)
  else if isWildcardFilter sub.filter then
    let (m, existed) := insertAt x.wildcardClients client sub.filter sub
    ({ x with wildcardClients := m }.rebuildWildcardSnap o, !existed)
  else
    let (x, existed) := x.upsertExactSub sub.filter client sub
    (x, !existed)

@[grind =] def unsubscribe (x : TopicsIndex) (o : MapOrder) (filter client : Bytes) : TopicsIndex × Bool :=
  if isSharedFilter filter then
    match eraseAt x.shared (keyOfFilter filter) client with
    | none => (x, false)
    | some m => ({ x with shared := m }.rebuildWildcardSnap o, true)
  else if isWildcardFilter filter then
    match eraseAt x.wildcardClients client filter with
    | none => (x, false)
    | some m => ({ x with wildcardClients := m }.rebuildWildcardSnap o, true)
  else x.deleteExactSub filter client

end TopicsIndex

structure Subscribers where
  shared : FMap Bytes (FMap Bytes Subscription)
  sharedSelected : FMap Bytes Subscription
  subscriptions : FMap Bytes Subscription
  inlineSubscriptions : FMap ℤ InlineSubscription

@[grind =] def mergeOnto (cls : Option Subscription) (sub : Subscription) : Subscription :=
  match cls with
  | some cls => cls.merge sub
  | none => sub

def mergeInto (m : FMap Bytes Subscription) (client : Bytes) (sub : Subscription) : FMap Bytes Subscription :=
  m.insert client (mergeOnto (m.lookup client) sub)

def gatherClient (topic : Bytes) (m : FMap Bytes Subscription) (wc : Bytes × List Subscription) :
    FMap Bytes Subscription :=
  wc.2.foldl (fun m sub => if matchMQTTTopic sub.filter topic then mergeInto m wc.1 sub else m) m

/-- One entry of the shared snapshot, put under the filters of its members. -/
def gatherShared (topic : Bytes) (m : FMap Bytes (FMap Bytes Subscription))
    (sf : Bytes × FMap Bytes Subscription) : FMap Bytes (FMap Bytes Subscription) :=
  if matchMQTTTopic sf.1 topic then
    sf.2.entries.foldl (fun m e => (insertAt m e.2.filter e.1 e.2).1) m
  else m

def gatherInline (topic : Bytes) (m : FMap ℤ InlineSubscription) (inl : InlineSubscription) :
    FMap ℤ InlineSubscription :=
  if matchMQTTTopic inl.sub.filter topic then m.insert inl.sub.identifier inl else m

@[grind =] def TopicsIndex.subscribers (x : TopicsIndex) (topic : Bytes) : Subscribers :=
  if topic.isEmpty then ⟨∅, ∅, ∅, ∅⟩
  else
    let exact := x.getExact topic
    let subscriptions := ((exact.map (·.subs)).getD []).foldl
      (fun (m : FMap Bytes Subscription) cs => m.insert cs.1 cs.2) ∅
    let inline := ((exact.map (·.inline)).getD []).foldl
      (fun (m : FMap ℤ InlineSubscription) inl => m.insert inl.sub.identifier inl) ∅
    match x.wildcardSnap with
    | none => ⟨∅, ∅, subscriptions, inline⟩
    | some snap =>
      { shared := snap.shared.foldl (gatherShared topic) ∅
        sharedSelected := ∅
        subscriptions := snap.clients.foldl (gatherClient topic) subscriptions
        inlineSubscriptions := snap.inline.foldl (gatherInline topic) inline }

def Subscribers.picks (s : Subscribers) (o : MapOrder) : List (Bytes × Subscription) :=
  (o.visit s.shared.entries).filterMap fun g => (o.visit g.2.entries).head?.map fun e => (e.1, e.2)

def mergeSelected (m : FMap Bytes Subscription) (client : Bytes) (sub : Subscription) :
    FMap Bytes Subscription :=
  m.insert client (((m.lookup client).getD sub).merge sub)

def Subscribers.selectShared (s : Subscribers) (o : MapOrder) : Subscribers :=
  { s with sharedSelected := (s.picks o).foldl (fun m e => mergeSelected m e.1 e.2) ∅ }

def Subscribers.mergeSharedSelected (s : Subscribers) : Subscribers :=
  { s with subscriptions := s.sharedSelected.entries.foldl (fun m e => mergeSelected m e.1 e.2) s.subscriptions }

end MonsterMQ.Topics
