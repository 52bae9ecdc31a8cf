import Mathlib.Data.Finset.Basic
import MonsterMQ.FiniteMaps
import MonsterMQ.StateRuns

/-!
# The expiry sweep and a reconnect

`clearExpiredClients` of `internal/mqtt/server.go`, interleaved with the attachment of a new connection.
Every access to a shared map, to the topic index or to a client's state is a step of its own.
-/

namespace MonsterMQ.Sweep

open FiniteMaps

structure Client where
  id : String
  remote : String
  protocolVersion : ℕ
  clean : Bool
  sessionExpiryInterval : ℕ
  sessionExpiryIntervalFlag : Bool
  closed : Bool
  disconnected : ℕ
  disconnectedNano : ℕ
  isTakenOver : Bool
  subscriptions : List String
  inflight : List ℕ
  deriving DecidableEq, Repr

namespace Client

/-- The session of a disconnected client has outlived its Session Expiry Interval, or the maximum
of the server for clients without one. A session restored from storage has only seconds. -/
def sessionExpired (c : Client) (now : ℤ) (maxExpiry : ℕ) : Bool :=
  if c.disconnectedNano = 0 ∧ c.disconnected = 0 then false
  else
    let stopped := if c.disconnectedNano = 0 then c.disconnected * 1000000000 else c.disconnectedNano
    let expire :=
      if c.protocolVersion = 5 && c.sessionExpiryIntervalFlag then c.sessionExpiryInterval
      else maxExpiry
    decide (now - stopped ≥ expire * 1000000000)

/-- The session ends with its network connection, or has expired since. -/
def existingEnds (c : Client) (now : ℤ) (maxExpiry : ℕ) : Bool :=
  (c.clean && decide (c.protocolVersion < 5)) ||
    (decide (c.protocolVersion = 5) && decide (c.sessionExpiryInterval = 0)) ||
    (c.closed && c.sessionExpired now maxExpiry)

def stop (c : Client) (now : ℤ) : Client :=
  if c.closed then c
  else { c with closed := true, disconnectedNano := now.toNat, disconnected := now.toNat / 1000000000 }

/-- The session outlives the connection, as the queue hook sees it. -/
def persists (c : Client) : Bool :=
  !((decide (c.protocolVersion = 5) && decide (c.sessionExpiryInterval = 0)) ||
    (decide (c.protocolVersion < 5) && c.clean))

end Client

structure SessionInfo where
  clientID : String
  cleanSession : Bool
  connected : Bool
  clientAddress : String
  protocolVersion : ℕ
  sessionExpiryInterval : ℕ
  deriving DecidableEq, Repr

/-- The row `OnSessionEstablished` writes for a connection. -/
def Client.sessionInfo (c : Client) : SessionInfo :=
  let sei := if c.sessionExpiryIntervalFlag then c.sessionExpiryInterval else 0
  ⟨c.id, if c.protocolVersion = 5 then decide (sei = 0) else c.clean, true, c.remote,
    c.protocolVersion, sei⟩

/-- Where a call of `UnsubscribeClient` is: before it copies the subscriptions, while it deletes
them from the client, before it looks whether the client was taken over, while it deletes them
from the topic index, or at its end. -/
inductive UnsubscribeAt where
  | start
  | clear (all todo : List String)
  | check (all : List String)
  | remove (todo : List String)
  | finished
  deriving DecidableEq, Repr

/-- What the sweep does next with a client it has found to be expired. -/
inductive Stage where
  | hookStorage
  | hookQueue
  | clearInflights
  | unsubscribe (u : UnsubscribeAt)
  | delete
  deriving DecidableEq, Repr

/-- Where the event loop is: elsewhere, at the head of the sweep's loop, or at a client. -/
inductive SweepAt where
  | idle
  | loop (now : ℤ) (rest : List (String × ℕ))
  | working (now : ℤ) (rest : List (String × ℕ)) (id : String) (client : ℕ) (stage : Stage)
  deriving DecidableEq, Repr

/-- Where the new connection is: in `inheritClientSession`, about to be added, in its hooks, or
reading packets. -/
inductive AttachAt where
  | lookup
  | decide (existing : ℕ)
  | abandon (existing : ℕ) (u : UnsubscribeAt)
  | abandoned (existing : ℕ)
  | inherit (existing : ℕ)
  | copy (existing : ℕ)
  | resubscribe (existing : ℕ) (todo : List String)
  | release (existing : ℕ) (u : UnsubscribeAt)
  | released (existing : ℕ)
  | stored
  | restore (todo : List String)
  | add
  | hookStorage
  | hookQueue
  | established
  deriving DecidableEq, Repr

structure Server where
  objects : ℕ → Client
  clients : FMap String ℕ
  topics : Finset (String × String)
  persistent : Finset String
  sessions : FMap String SessionInfo
  maxExpiry : ℕ
  cl : ℕ
  sweep : SweepAt
  attach : AttachAt

namespace Server

@[grind =] def setObject (s : Server) (c : ℕ) (v : Client) : Server :=
  { s with objects := Function.update s.objects c v }

@[grind =] def unsubscribeClient (s : Server) (c : ℕ) : UnsubscribeAt → Server × UnsubscribeAt
  | .start => (s, .clear (s.objects c).subscriptions (s.objects c).subscriptions)
  | .clear all [] => (s, .check all)
  | .clear all (f :: fs) =>
    (s.setObject c { s.objects c with
      subscriptions := (s.objects c).subscriptions.filter (· ≠ f) }, .clear all fs)
  | .check all => if (s.objects c).isTakenOver then (s, .finished) else (s, .remove all)
  | .remove [] => (s, .finished)
  | .remove (f :: fs) => ({ s with topics := s.topics.erase ((s.objects c).id, f) }, .remove fs)
  | .finished => (s, .finished)

@[grind =] def sweepStart (s : Server) (now : ℤ) : Server :=
  match s.sweep with
  | .idle => { s with sweep := .loop now (s.clients.entries.map fun e => (e.1, e.2)) }
  | _ => s

def expires (s : Server) (now : ℤ) (c : ℕ) : Bool :=
  decide ((s.objects c).disconnected ≠ 0) && (s.objects c).sessionExpired now s.maxExpiry

/-- The sweep turns to the next client, in the order of the map, or is done. -/
@[grind =] def sweepNext (s : Server) (i : ℕ) : Server :=
  match s.sweep with
  | .loop _ [] => { s with sweep := .idle }
  | .loop now rest =>
    match rest[i]? with
    | none => s
    | some (id, c) =>
      if s.expires now c then { s with sweep := .working now (rest.eraseIdx i) id c .hookStorage }
      else { s with sweep := .loop now (rest.eraseIdx i) }
  | _ => s

@[grind =] def sweepWork (s : Server) : Server :=
  match s.sweep with
  | .working now rest id c stage =>
    match stage with
    | .hookStorage => { s with
        sessions := s.sessions.erase (s.objects c).id
        sweep := .working now rest id c .hookQueue }
    | .hookQueue => { s with
        persistent := s.persistent.erase (s.objects c).id
        sweep := .working now rest id c .clearInflights }
    | .clearInflights => { s.setObject c { s.objects c with inflight := [] } with
        sweep := .working now rest id c (.unsubscribe .start) }
    | .unsubscribe .finished => { s with sweep := .working now rest id c .delete }
    | .unsubscribe u =>
      let r := s.unsubscribeClient c u
      { r.1 with sweep := .working now rest id c (.unsubscribe r.2) }
    | .delete => { s with clients := s.clients.erase id, sweep := .loop now rest }
  | _ => s

def isCurrentClient (s : Server) (c : ℕ) : Bool :=
  !(s.objects c).isTakenOver &&
    (match s.clients.lookup (s.objects c).id with
      | none => true
      | some cur => decide (cur = c))

/-- The connection subscribes: the topic index first, then its own state. -/
def subscribe (s : Server) (f : String) : Server :=
  { s with topics := insert ((s.objects s.cl).id, f) s.topics }.setObject s.cl { s.objects s.cl with
      subscriptions := f :: (s.objects s.cl).subscriptions }

/-- The next step of the attachment. `now` is the clock, `rows` the stored subscriptions of the
client that are still allowed, or none when the stored session has expired. -/
@[grind =] def attachStep (s : Server) (now : ℤ) (rows : Option (List String)) : Server :=
  match s.attach with
  | .lookup =>
    match s.clients.lookup (s.objects s.cl).id with
    | some e => { s.setObject e ((s.objects e).stop now) with attach := .decide e }
    | none => { s with attach := if (s.objects s.cl).clean then .add else .stored }
  | .decide e =>
    if (s.objects s.cl).clean || (s.objects e).existingEnds now s.maxExpiry then
      { s with attach := .abandon e .start }
    else { s with attach := .inherit e }
  | .abandon e .finished => { s with attach := .abandoned e }
  | .abandon e u =>
    let r := s.unsubscribeClient e u
    { r.1 with attach := .abandon e r.2 }
  | .abandoned e => { s.setObject e { s.objects e with
      inflight := []
      isTakenOver := true } with attach := .add }
  | .inherit e => { s.setObject e { s.objects e with isTakenOver := true } with attach := .copy e }
  | .copy e => { s.setObject s.cl { s.objects s.cl with inflight := (s.objects e).inflight } with
      attach := .resubscribe e (s.objects e).subscriptions }
  | .resubscribe e [] => { s with attach := .release e .start }
  | .resubscribe e (f :: fs) => { s.subscribe f with attach := .resubscribe e fs }
  | .release e .finished => { s with attach := .released e }
  | .release e u =>
    let r := s.unsubscribeClient e u
    { r.1 with attach := .release e r.2 }
  | .released e => { s.setObject e { s.objects e with inflight := [] } with attach := .add }
  | .stored =>
    match s.sessions.lookup (s.objects s.cl).id with
    | some info =>
      if info.cleanSession then { s with attach := .add }
      else match rows with
        | some rows => { s with attach := .restore rows }
        | none => { s with sessions := s.sessions.erase (s.objects s.cl).id, attach := .add }
    | none => { s with attach := .add }
  | .restore [] => { s with attach := .add }
  | .restore (f :: fs) => { s.subscribe f with attach := .restore fs }
  | .add => { s with clients := s.clients.insert (s.objects s.cl).id s.cl, attach := .hookStorage }
  | .hookStorage =>
    if s.isCurrentClient s.cl then { s with
      sessions := s.sessions.insert (s.objects s.cl).id (s.objects s.cl).sessionInfo
      attach := .hookQueue }
    else { s with attach := .hookQueue }
  | .hookQueue =>
    if s.isCurrentClient s.cl then { s with
      persistent :=
        if (s.objects s.cl).persists then insert (s.objects s.cl).id s.persistent
        else s.persistent.erase (s.objects s.cl).id
      attach := .established }
    else { s with attach := .established }
  | .established => s

def unsubscribe (s : Server) (f : String) : Server :=
  { s with topics := s.topics.erase ((s.objects s.cl).id, f) }.setObject s.cl { s.objects s.cl with
      subscriptions := (s.objects s.cl).subscriptions.filter (· ≠ f) }

inductive Event where
  | sweepStart (now : ℤ)
  | sweepNext (i : ℕ)
  | sweepWork
  | attach (now : ℤ) (rows : Option (List String))
  | subscribe (f : String)
  | unsubscribe (f : String)
  deriving DecidableEq, Repr

@[grind =] def step (s : Server) : Event → Server
  | .sweepStart now => s.sweepStart now
  | .sweepNext i => s.sweepNext i
  | .sweepWork => s.sweepWork
  | .attach now rows => s.attachStep now rows
  | .subscribe f => if s.attach = .established then s.subscribe f else s
  | .unsubscribe f => if s.attach = .established then s.unsubscribe f else s

end Server

end MonsterMQ.Sweep
