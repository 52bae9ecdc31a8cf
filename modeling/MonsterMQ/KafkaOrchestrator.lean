import MonsterMQ.KafkaStreams
import MonsterMQ.KeyedGroups
import MonsterMQ.StateRuns

/-!
# From the bus to the streams

The orchestrator of `internal/kafka/orchestrator.go` keeps the messages of the bus in a buffer and stores
them stream by stream. What Produce has stored itself is skipped by its UUID.
-/

namespace MonsterMQ.Kafka

open LittleEndian KeyedGroups StateRuns

abbrev Arrival := ℕ × Message

/-- A flush: the batches that are still to be stored, in any order, and the messages of those that
failed. The last flush has a context that `stop` does not cancel. -/
structure Flush where
  todo : List (Stream × List Arrival)
  failed : List Arrival
  final : Bool
  deriving DecidableEq, Repr

structure Orchestrator where
  buf : List Arrival
  selfPub : List (Bytes × ℕ)
  flush : Option Flush
  cancelled : Bool
  returned : Bool
  stored : List (Stream × Arrival)
  /-- The streams whose last `Enqueue` failed. -/
  failing : List Stream
  /-- Every message that `onMessage` was called with. -/
  received : List Arrival
  /-- The numbers of the messages that an overflow of the buffer dropped. -/
  dropped : List ℕ
  /-- The UUIDs of what Produce has stored. -/
  produced : List Bytes
  deriving DecidableEq, Repr

inductive BusEvent where
  | onMessage (m : Message)
  | produce (m : Message) (now : ℕ)
  | publishFailed (m : Message)
  | sweepSelfPub (now : ℕ)
  | take
  | enqueue (i : ℕ) (ok : Bool)
  | finish
  | stop
  | ctxDone
  deriving DecidableEq, Repr

def maxBuffered : ℕ := 200000

def selfPubTTL : ℕ := 30

namespace Orchestrator

def new : Orchestrator := ⟨[], [], none, false, false, [], [], [], [], []⟩

@[grind =] def dropOldest (o : Orchestrator) (n : ℕ) : Orchestrator :=
  { o with buf := o.buf.drop n, dropped := o.dropped ++ (o.buf.take n).map Prod.fst }

def unregister (o : Orchestrator) (uuid : Bytes) : List (Bytes × ℕ) :=
  o.selfPub.filter fun e => e.1 ≠ uuid

/-- `selfPub` tells that Produce has stored the message. -/
def isSelf (o : Orchestrator) (m : Message) : Prop :=
  m.messageUUID ≠ [] ∧ m.messageUUID ∈ o.selfPub.map Prod.fst
deriving Decidable

def makeRoom (o : Orchestrator) : Orchestrator :=
  if o.buf.length ≥ maxBuffered then o.dropOldest (o.buf.length - maxBuffered + 1) else o

@[grind =] def append (o : Orchestrator) (m : Message) : Orchestrator :=
  { o with buf := o.buf ++ [(o.received.length, m)], received := o.received ++ [(o.received.length, m)] }

def skip (o : Orchestrator) (m : Message) : Orchestrator :=
  { o with selfPub := o.unregister m.messageUUID, received := o.received ++ [(o.received.length, m)] }

def onMessage (o : Orchestrator) (m : Message) : Orchestrator :=
  if o.isSelf m then o.skip m else o.makeRoom.append m

end Orchestrator

namespace Server

variable (s : Server)

def routed (batch : List Arrival) : List (Stream × Arrival) :=
  batch.filterMap fun e => (s.routeEnqueue e.2.topicName).map (·, e)

def groupByStream (batch : List Arrival) : List (Stream × List Arrival) := groups (s.routed batch)

end Server

namespace Orchestrator

/-- `take`, by a tick or after the context has been cancelled for the last time. -/
def startFlush (s : Server) (o : Orchestrator) (final : Bool) : Orchestrator :=
  { o with buf := [], flush := some ⟨s.groupByStream o.buf, [], final⟩ }

def endFlush (o : Orchestrator) (f : Flush) : Orchestrator :=
  { o with flush := none, returned := f.final }

def putBack (o : Orchestrator) (failed : List Arrival) : Orchestrator :=
  { o with buf := failed ++ o.buf }

/-- The end of `flush`, whose context is the cancelled one unless it is the last. -/
def finish (o : Orchestrator) (f : Flush) : Orchestrator :=
  if f.failed.isEmpty ∨ (o.cancelled = true ∧ f.final = false) then o.endFlush f
  else
    let o := (o.endFlush f).putBack f.failed
    o.dropOldest (o.buf.length - maxBuffered)

@[grind =] def storeBatch (o : Orchestrator) (f : Flush) (i : ℕ) (ok : Bool) : Orchestrator :=
  match f.todo[i]? with
  | none => o
  | some (st, msgs) =>
    if ok then
      { o with
        stored := o.stored ++ msgs.map (st, ·)
        flush := some
          { f with todo := f.todo.eraseIdx i }
        failing := o.failing.filter fun x => x ≠ st }
    else
      { o with
        flush := some
          { f with todo := f.todo.eraseIdx i, failed := f.failed ++ msgs }
        failing := o.failing ++ [st] }

/-- A record that Produce has stored and publishes. What no filter matches is not registered. -/
def produce (s : Server) (o : Orchestrator) (m : Message) (now : ℕ) : Orchestrator :=
  { o with
    selfPub := if (s.firstMatching m.topicName).isSome then o.unregister m.messageUUID ++ [(m.messageUUID, now)]
      else o.selfPub
    produced := o.produced ++ [m.messageUUID] }

def step (s : Server) (o : Orchestrator) : BusEvent → Orchestrator
  | .onMessage m => o.onMessage m
  | .produce m now => o.produce s m now
  | .publishFailed m =>
    { o with selfPub := o.unregister m.messageUUID }
  | .sweepSelfPub now =>
    { o with selfPub := o.selfPub.filter fun e => !decide (e.2 + selfPubTTL < now) }
  | .take => if o.returned = true ∨ o.flush.isSome then o else o.startFlush s false
  | .enqueue i ok =>
    match o.flush with
    | none => o
    | some f => o.storeBatch f i ok
  | .finish =>
    match o.flush with
    | none => o
    | some f => if f.todo.isEmpty then o.finish f else o
  | .stop =>
    { o with cancelled := true }
  | .ctxDone =>
    -- `run` sees the cancelled context, now or after one more tick
    if o.returned = true ∨ o.flush.isSome ∨ o.cancelled = false then o else o.startFlush s true

end Orchestrator

end MonsterMQ.Kafka
