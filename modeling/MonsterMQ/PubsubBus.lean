import MonsterMQ.StateRuns
import MonsterMQ.TopicMatchersAgree
import Mathlib.Logic.Function.Basic

/-!
# The in-process bus

`internal/pubsub/bus.go`. `Publish` works on a snapshot of the subscribers without the lock, `Unsubscribe`
closes a channel under it. A step is one atomic action of some goroutine.
-/

namespace MonsterMQ.Pubsub

open LittleEndian PeerLink Auth Topics List

structure Message where
  topicName : Bytes
  payload : Bytes
  deriving DecidableEq, Repr

/-- A subscriber with a channel of some capacity or, without one, with a function. For each
message that it was handed it has the call that did so. -/
structure Sub where
  filters : List Bytes
  capacity : Option ℕ
  buffer : List Message := []
  taken : List Message := []
  closes : ℕ := 0
  once : Bool := false
  overflowCloses : ℕ := 0
  received : List (ℕ × Message) := []
  dropped : List ℕ := []
  deriving DecidableEq, Repr

def newSub (filters : List Bytes) (capacity : Option ℕ) : Sub :=
  { filters := filters, capacity := capacity }

/-- `sub.deliver` in a call: nothing when it sends on a closed channel. -/
@[grind =] def Sub.deliver (s : Sub) (call : ℕ) (msg : Message) : Option Sub :=
  match s.capacity with
  | none => some { s with received := s.received ++ [(call, msg)] }
  | some capacity =>
    if s.closes ≠ 0 then none
    else if s.buffer.length < capacity then
      some { s with buffer := s.buffer ++ [msg], received := s.received ++ [(call, msg)] }
    else
      some { s with
        dropped := call :: s.dropped
        once := true
        overflowCloses := if s.once then s.overflowCloses else s.overflowCloses + 1 }

@[grind =] def Sub.receive (s : Sub) : Sub :=
  match s.buffer with
  | [] => s
  | msg :: buffer =>
    { s with buffer := buffer, taken := s.taken ++ [msg] }

@[grind =] def Sub.close (s : Sub) : Sub :=
  if s.capacity.isSome then { s with closes := s.closes + 1 } else s

def anyMatch (filters : List Bytes) (topic : Bytes) : Bool := filters.any (busMatchTopic · topic)

structure BusSnapshot where
  exact : List (Bytes × ℕ)
  wildcard : List ℕ
  deriving DecidableEq, Repr

/-- A call of `Publish` or `Deliver`: the subscribers that it delivers to, and those of them that
it has not come to yet. -/
structure Flight where
  msg : Message
  targets : List ℕ
  todo : List ℕ
  deriving DecidableEq, Repr

/-- The bus. `heap` has every subscriber there has been, `subs` the ids of those in the map, and
`closing` the one whose channel an `Unsubscribe` has closed under the lock. -/
structure Bus where
  next : ℕ
  subs : List ℕ
  heap : ℕ → Option Sub
  snap : Option BusSnapshot
  closing : Option ℕ
  flights : List Flight
  panicked : Bool

def newBus : Bus := ⟨0, [], fun _ => none, none, none, [], false⟩

/-- The filter under which a subscriber stands in the exact map. -/
def exactFilter : List Bytes → Option Bytes
  | [f] => if isWildcardFilter f then none else some f
  | _ => none

@[grind =] def filtersOf (heap : ℕ → Option Sub) (id : ℕ) : List Bytes := ((heap id).map Sub.filters).getD []

@[grind =] def rebuildSnapshot (heap : ℕ → Option Sub) (subs : List ℕ) : Option BusSnapshot :=
  if subs.isEmpty then none
  else some {
    exact := subs.filterMap fun id => (exactFilter (filtersOf heap id)).map fun f => (f, id)
    wildcard := subs.filter fun id => (exactFilter (filtersOf heap id)).isNone }

def Bus.targets (b : Bus) (topic : Bytes) : List ℕ :=
  match b.snap with
  | none => []
  | some snap =>
    (snap.exact.filter fun e => e.1 = topic).map Prod.snd ++
      snap.wildcard.filter fun id => anyMatch (filtersOf b.heap id) topic

inductive BusEvent where
  | subscribe (filters : List Bytes) (buffer : ℤ)
  | subscribeFunc (filters : List Bytes)
  | unsubscribe (id : ℕ)
  | unsubscribed
  | publish (msg : Message)
  | deliver (id : ℕ) (msg : Message)
  | send (call id : ℕ)
  | receive (id : ℕ)
  deriving DecidableEq, Repr

/-- A subscriber enters the map, unless an `Unsubscribe` has the lock. -/
@[grind =] def Bus.add (b : Bus) (filters : List Bytes) (capacity : Option ℕ) : Bus :=
  if b.closing.isSome then b
  else
    let heap := Function.update b.heap (b.next + 1) (some (newSub filters capacity))
    { b with
      next := b.next + 1
      heap := heap
      subs := b.subs ++ [b.next + 1]
      snap := rebuildSnapshot heap (b.subs ++ [b.next + 1]) }

/-- `Unsubscribe` up to the closing of the channel. -/
@[grind =] def Bus.unsubscribe (b : Bus) (id : ℕ) : Bus :=
  if b.closing.isSome || id ∉ b.subs then b
  else
    { b with heap := Function.update b.heap id ((b.heap id).map Sub.close), closing := some id }

/-- The rest of `Unsubscribe` under the lock. -/
@[grind =] def Bus.unsubscribed (b : Bus) : Bus :=
  match b.closing with
  | none => b
  | some id =>
    { b with
      subs := b.subs.filter fun i => i ≠ id
      snap := rebuildSnapshot b.heap (b.subs.filter fun i => i ≠ id)
      closing := none }

@[grind =] def Bus.send (b : Bus) (call id : ℕ) : Bus :=
  match b.flights[call]?, b.heap id with
  | some flight, some sub =>
    if id ∈ flight.todo then
      match sub.deliver call flight.msg with
      | none => { b with panicked := true }
      | some sub =>
        { b with
          heap := Function.update b.heap id (some sub)
          flights := b.flights.set call { flight with todo := flight.todo.erase id } }
    else b
  | _, _ => b

@[grind =] def Bus.step (b : Bus) : BusEvent → Bus
  | .subscribe filters buffer =>
    b.add filters (some (if buffer ≤ 0 then 16 else buffer.toNat))
  | .subscribeFunc filters => b.add filters none
  | .unsubscribe id => b.unsubscribe id
  | .unsubscribed => b.unsubscribed
  | .publish msg =>
    { b with flights := b.flights ++ [⟨msg, b.targets msg.topicName, b.targets msg.topicName⟩] }
  | .deliver id msg =>
    if b.closing.isSome || id ∉ b.subs then b
    else { b with flights := b.flights ++ [⟨msg, [id], [id]⟩] }
  | .send call id => b.send call id
  | .receive id => { b with heap := Function.update b.heap id ((b.heap id).map Sub.receive) }

private theorem anyMatch_of_exactFilter {filters : List Bytes} {f : Bytes} (h : exactFilter filters = some f)
    (topic : Bytes) : anyMatch filters topic = decide (f = topic) := by
  match filters with
  | [] => cases h
  | [g] =>
    rw [exactFilter] at h
    split at h
    · cases h
    · rename_i hg
      obtain rfl := Option.some.inj h
      rw [anyMatch, any_cons, any_nil, Bool.or_false, Bool.eq_iff_iff, decide_eq_true_iff]
      exact busMatchTopic_exact_iff (Bool.not_eq_true _ ▸ hg)
  | _ :: _ :: _ => cases h

theorem exact_targets (heap : ℕ → Option Sub) (topic : Bytes) (subs : List ℕ) :
    ((subs.filterMap fun id => (exactFilter (filtersOf heap id)).map fun f => (f, id)).filter
      fun e => e.1 = topic).map Prod.snd =
    subs.filter fun id => exactFilter (filtersOf heap id) = some topic := by
  induction subs with
  | nil => rfl
  | cons id subs ih =>
    rw [filterMap_cons, filter_cons]
    cases hf : exactFilter (filtersOf heap id) with
    | none =>
      rw [if_neg (by simp)]
      exact ih
    | some f =>
      dsimp only [Option.map_some]
      rw [filter_cons]
      by_cases heq : f = topic
      · rw [if_pos (by simpa using heq), if_pos (by simpa using heq), map_cons, ih]
      · rw [if_neg (by simpa using heq), if_neg (by simpa using heq), ih]

theorem count_targets {b : Bus} (hs : b.snap = rebuildSnapshot b.heap b.subs) (topic : Bytes)
    (id : ℕ) : (b.targets topic).count id =
      if anyMatch (filtersOf b.heap id) topic then b.subs.count id else 0 := by
  rw [Bus.targets, hs, rebuildSnapshot]
  cases hempty : b.subs.isEmpty with
  | true =>
    rw [isEmpty_iff.mp hempty]
    simp
  | false =>
    rw [if_neg (by decide)]
    dsimp only
    rw [exact_targets, filter_filter, count_append]
    cases hf : exactFilter (filtersOf b.heap id) with
    | none =>
      have hexact : (b.subs.filter fun i => exactFilter (filtersOf b.heap i) = some topic).count id
          = 0 := by
        apply count_eq_zero.mpr
        intro hm
        have := (mem_filter.mp hm).2
        rw [decide_eq_true_iff, hf] at this
        cases this
      rw [hexact, Nat.zero_add]
      split
      · rename_i hm
        exact count_filter (by rw [hf, hm]; rfl)
      · rename_i hm
        apply count_eq_zero.mpr
        intro hmem
        have := (mem_filter.mp hmem).2
        rw [Bool.and_eq_true] at this
        exact hm this.1
    | some f =>
      have hwild : (b.subs.filter fun i => anyMatch (filtersOf b.heap i) topic &&
          (exactFilter (filtersOf b.heap i)).isNone).count id = 0 := by
        apply count_eq_zero.mpr
        intro hm
        have := (mem_filter.mp hm).2
        rw [hf, Bool.and_eq_true] at this
        cases this.2
      rw [hwild, Nat.add_zero, anyMatch_of_exactFilter hf]
      by_cases heq : f = topic
      · rw [if_pos (by simpa using heq)]
        exact count_filter (by rw [hf, heq, decide_eq_true_iff])
      · rw [if_neg (by simpa using heq)]
        apply count_eq_zero.mpr
        intro hm
        have := (mem_filter.mp hm).2
        rw [decide_eq_true_iff, hf] at this
        exact heq (Option.some.inj this)

end MonsterMQ.Pubsub
