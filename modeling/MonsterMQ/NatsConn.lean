import MonsterMQ.FiniteMaps
import MonsterMQ.NatsSubjects
import MonsterMQ.StateRuns
import Mathlib.Logic.Function.Basic

/-!
# The goroutines of a NATS connection

The reader, the writer of the subscriptions' messages, the goroutines of the consumers and whoever closes
the connection. A turn is one critical section, one call of the bus or one write.
-/

namespace MonsterMQ.Nats

open LittleEndian StateRuns FiniteMaps

structure SidState where
  sid : Bytes
  topicFilter : Bytes
  subID : ℕ
  deriving DecidableEq, Repr

structure Consumer where
  name : Bytes
  deliverSubj : Bytes
  busSubID : ℕ
  deriving DecidableEq, Repr

structure BusSub where
  id : ℕ
  callback : Option SidState
  deriving DecidableEq, Repr

/-- A request to create a consumer, and what the scan of the last values finds for it: their number,
unless there is an error. -/
structure CreateRequest where
  name : Bytes
  deliverSubj : Bytes
  replyTo : Bytes
  scan : Option ℕ
  deriving DecidableEq, Repr

inductive Op where
  /-- `removeSid` under `c.mu`. -/
  | removeSid (sid : Bytes)
  | stopSid (id : ℕ)
  /-- `Bus.Unsubscribe`. -/
  | unsubscribe (id : ℕ)
  | onUnsubscribe
  /-- `removeConsumer` under `j.mu`. -/
  | removeConsumer (x : Consumer)
  /-- The same in `consumerCreate`, which goes on with the new consumer. -/
  | replaceConsumer (x : Consumer) (r : CreateRequest)
  | stop (id : ℕ)
  /-- `Bus.SubscribeFunc` in `handleSub`. -/
  | subscribe (sid topicFilter : Bytes)
  /-- `c.sids[sid] = state`. -/
  | register (st : SidState)
  | onSubscribe
  | startDelivery (x : Consumer)
  | registerConsumer (r : CreateRequest)
  /-- The goroutine of `consumerCreate` after the scan. -/
  | scanned (x : Consumer) (r : CreateRequest)
  /-- `deliverVia` and `deliverLocal`. -/
  | deliver (subject : Bytes)
  /-- `writeRaw` up to `isClosed`, and after it. -/
  | send
  | write
  /-- `writeSubBatch` up to `isClosed`, its messages, and its end. -/
  | batch
  | writeOne
  | endBatch
  | close
  /-- `js.close`, before the subscriptions that `close` has taken are given back. -/
  | closeJs (sids : List SidState)
  | closeNet
  deriving DecidableEq, Repr

structure Conn where
  closed : Bool
  /-- `none` is the nil map. -/
  sids : Option (FMap Bytes SidState)
  consumers : FMap Bytes Consumer
  /-- `js.close` has taken the consumers. -/
  jsClosed : Bool
  /-- What the bus holds for the connection. -/
  bus : List BusSub
  /-- The last number that the bus has given. -/
  next : ℕ
  loaded : List ℕ
  /-- The consumers whose delivery has begun; they are bound. -/
  ready : List ℕ
  /-- The messages that a consumer has yet to deliver when it begins. -/
  backlog : ℕ → ℕ
  /-- The consumers that have not been stopped. -/
  running : List Consumer
  stopped : List ℕ
  delivered : ℕ → ℕ
  maxMsgs : ℕ → Option ℕ
  subCh : List SidState
  toRemove : List Bytes
  /-- The subscriptions that publishers have found on the bus and have yet to serve. -/
  publishing : List (List BusSub)
  readerOps : List Op
  /-- `serve` is on its way out. -/
  leaving : Bool
  subWriterOps : List Op
  /-- `subWriterLoop` has been started, and it has not returned. -/
  subWriterOnce : Bool
  subWriterUp : Bool
  others : List (List Op)
  /-- The frames that have reached the client. -/
  wire : ℕ
  netOpen : Bool
  panicked : Bool

inductive Command where
  | sub (sid topicFilter : Bytes) (accepted : Bool)
  | unsub (sid : Bytes)
  | unsubMax (sid : Bytes) (max : ℕ)
  | consumerCreate (r : CreateRequest)
  | consumerDelete (name : Bytes)
  /-- `CONNECT` with a wrong password. -/
  | rejected
  /-- The end of the stream or a read error. -/
  | eof
  deriving DecidableEq, Repr

inductive Turn where
  | command (cmd : Command)
  | reader
  | subWriter (takes : ℕ)
  | subWriterFails
  | other (i : ℕ)
  /-- A close from another goroutine: an administrator or the server. -/
  | disconnect
  | publish (ids : List ℕ)
  | serve (i : ℕ)
  /-- A message or a tick for a consumer. -/
  | receive (x : Consumer)
  deriving DecidableEq, Repr

namespace Conn

def new : Conn where
  closed := false
  sids := some ∅
  consumers := ∅
  jsClosed := false
  bus := []
  next := 0
  loaded := []
  ready := []
  backlog := fun _ => 0
  running := []
  stopped := []
  delivered := fun _ => 0
  maxMsgs := fun _ => none
  subCh := []
  toRemove := []
  publishing := []
  readerOps := []
  leaving := false
  subWriterOps := []
  subWriterOnce := false
  subWriterUp := false
  others := []
  wire := 0
  netOpen := true
  panicked := false

def valuesOf {α β : Type} (m : FMap α β) : List β := m.entries.map Sigma.snd

/-- The state of a sid; there is none in the nil map. -/
@[grind =] def sidAt (c : Conn) (sid : Bytes) : Option SidState := c.sids.bind fun m => m.lookup sid

def states (c : Conn) : List SidState := (c.sids.map valuesOf).getD []

def sidsForSubject (c : Conn) (subject : Bytes) : List SidState :=
  c.states.filter fun st => topicMatchesFilter (subjectToTopic subject) st.topicFilter

@[grind =] def forget (c : Conn) (x : Consumer) : Conn :=
  { c with consumers := if c.consumers.lookup x.name = some x then c.consumers.erase x.name else c.consumers }

def newConsumer (c : Conn) (r : CreateRequest) : Conn :=
  let x : Consumer := ⟨r.name, r.deliverSubj, c.next + 1⟩
  { c with
    next := c.next + 1
    bus := ⟨c.next + 1, none⟩ :: c.bus
    consumers := c.consumers.insert r.name x
    running := x :: c.running
    others := c.others ++ [[.scanned x r]] }

def writeOne (c : Conn) : Conn :=
  match c.subCh with
  | [] => c
  | st :: subCh =>
    let c := { c with subCh := subCh }
    if st.subID ∈ c.stopped then c
    else
      let reached := fun n => (c.maxMsgs st.subID).any fun max => max ≤ n
      if reached (c.delivered st.subID) then c
      else
        let c := { c with
          delivered := Function.update c.delivered st.subID (c.delivered st.subID + 1)
          wire := if c.netOpen then c.wire + 1 else c.wire }
        if reached (c.delivered st.subID) then
          { c with stopped := st.subID :: c.stopped, toRemove := c.toRemove ++ [st.sid] }
        else c

/-- What an operation does, and what its goroutine does right after it. -/
@[grind =] def exec (c : Conn) : Op → Conn × List Op
  | .removeSid sid =>
    match c.sidAt sid with
    | none => (c, [])
    | some st => ({ c with
        sids := c.sids.map fun m => m.erase sid }, [.stopSid st.subID, .unsubscribe st.subID, .onUnsubscribe])
  | .stopSid id => ({ c with stopped := id :: c.stopped }, [])
  | .unsubscribe id => ({ c with bus := c.bus.filter fun s => s.id ≠ id }, [])
  | .onUnsubscribe =>
    (c, ((valuesOf c.consumers).filter fun x => x.busSubID ∈ c.ready ∧ c.sidsForSubject x.deliverSubj = []).map
      .removeConsumer)
  | .removeConsumer x => (c.forget x, [.stop x.busSubID, .unsubscribe x.busSubID])
  | .replaceConsumer x r => (c.forget x, [.stop x.busSubID, .unsubscribe x.busSubID, .registerConsumer r])
  | .stop id => ({ c with running := c.running.filter fun x => x.busSubID ≠ id }, [])
  | .subscribe sid topicFilter =>
    let st : SidState := ⟨sid, topicFilter, c.next + 1⟩
    ({ c with
      next := c.next + 1
      bus := ⟨c.next + 1, some st⟩ :: c.bus
      subWriterOnce := true
      subWriterUp := c.subWriterUp || !c.subWriterOnce }, [.register st, .onSubscribe])
  | .register st =>
    match c.sids with
    | none => ({ c with panicked := true }, [])
    | some m => ({ c with sids := some (m.insert st.sid st) }, [])
  | .onSubscribe => (c, (valuesOf c.consumers).map .startDelivery)
  | .startDelivery x =>
    if x.busSubID ∈ c.loaded ∧ x.busSubID ∉ c.ready ∧ c.sidsForSubject x.deliverSubj ≠ [] then
      ({ c with ready := x.busSubID :: c.ready, backlog := Function.update c.backlog x.busSubID 0 },
        List.replicate (c.backlog x.busSubID) (.deliver x.deliverSubj))
    else (c, [])
  | .registerConsumer r => (c.newConsumer r, [])
  | .scanned x r =>
    if c.consumers.lookup x.name = some x then
      match r.scan with
      | none => (c, [.removeConsumer x, .deliver r.replyTo])
      | some n => ({ c with
          loaded := x.busSubID :: c.loaded
          backlog := Function.update c.backlog x.busSubID (c.backlog x.busSubID + n) },
          [.deliver r.replyTo, .startDelivery x])
    else (c, [])
  | .deliver subject => (c, (c.sidsForSubject subject).map fun _ => .send)
  | .send => (c, if c.closed then [] else [.write])
  | .write => ({ c with wire := if c.netOpen then c.wire + 1 else c.wire }, [])
  | .batch => (c, [])
  | .writeOne => (c.writeOne, [])
  | .endBatch => ({ c with toRemove := [] }, c.toRemove.map .removeSid)
  | .close =>
    if c.closed then (c, [])
    else ({ c with closed := true, sids := none }, [.closeJs c.states])
  | .closeJs sids => ({ c with
      consumers := ∅
      jsClosed := true }, ((valuesOf c.consumers).map fun x => .stop x.busSubID) ++
        (sids.flatMap fun st => [.stopSid st.subID, .unsubscribe st.subID]) ++ [.closeNet])
  | .closeNet => ({ c with netOpen := false }, [])

/-- The first critical section of a handler, and what it goes on with. -/
@[grind =] def begin (c : Conn) : Command → Conn × List Op
  | .sub sid topicFilter accepted =>
    let r := c.exec (.removeSid sid)
    (r.1, r.2 ++ if accepted then [.subscribe sid topicFilter] else [])
  | .unsub sid => c.exec (.removeSid sid)
  | .unsubMax sid max =>
    match c.sidAt sid with
    | none => (c, [])
    | some st =>
      if max ≤ c.delivered st.subID then (c, [.removeSid sid])
      else ({ c with maxMsgs := Function.update c.maxMsgs st.subID (some max) }, [])
  | .consumerCreate r =>
    match c.consumers.lookup r.name with
    | some x => (c, [.replaceConsumer x r])
    | none => (c.newConsumer r, [])
  | .consumerDelete name =>
    match c.consumers.lookup name with
    | some x => (c, [.removeConsumer x])
    | none => (c, [])
  | .rejected => (c, [.close])
  | .eof => ({ c with leaving := true }, [.close])

/-- A publisher serves the subscriptions that it has found: a callback puts the message into the channel
of the connection; to send into a closed channel is a panic. -/
@[grind =] def serve (c : Conn) : List BusSub → Conn
  | [] => c
  | s :: subs =>
    match s.callback with
    | some st => (if st.subID ∈ c.stopped then c else { c with subCh := c.subCh ++ [st] }).serve subs
    | none => (if s ∈ c.bus then c else { c with panicked := true }).serve subs

def subWriterStep (c : Conn) (takes : ℕ) : Conn :=
  match c.subWriterOps with
  | [] =>
    if c.subWriterUp then
      if 0 < min takes c.subCh.length then
        { c with subWriterOps := .batch :: List.replicate (min takes c.subCh.length) .writeOne ++ [.endBatch] }
      else { c with subWriterUp := !c.closed }
    else c
  | .batch :: ops =>
    if c.closed then
      { c with subWriterOps := [.close], subWriterUp := false }
    else { c with subWriterOps := ops }
  | op :: ops => { (c.exec op).1 with subWriterOps := (c.exec op).2 ++ ops }

@[grind =] def step (c : Conn) (turn : Turn) : Conn :=
  if c.panicked then c
  else match turn with
    | .command cmd =>
      if c.readerOps = [] ∧ c.leaving = false then
        { (c.begin cmd).1 with readerOps := (c.begin cmd).2 }
      else c
    | .reader =>
      match c.readerOps with
      | [] => c
      | op :: ops => { (c.exec op).1 with readerOps := (c.exec op).2 ++ ops }
    | .subWriter takes => c.subWriterStep takes
    | .subWriterFails =>
      if c.subWriterOps.head? = some .writeOne then
        { c with subWriterOps := c.toRemove.map .removeSid ++ [.close], subWriterUp := false, toRemove := [] }
      else c
    | .other i =>
      match c.others[i]? with
      | some (op :: ops) => { (c.exec op).1 with others := (c.exec op).1.others.set i ((c.exec op).2 ++ ops) }
      | _ => c
    | .disconnect => { c with others := c.others ++ [[.close]] }
    | .publish ids => { c with publishing := c.publishing ++ [c.bus.filter fun s => s.id ∈ ids] }
    | .serve i =>
      match c.publishing[i]? with
      | some subs => { c.serve subs with publishing := c.publishing.eraseIdx i }
      | none => c
    | .receive x =>
      if x ∈ c.running then
        if x.busSubID ∈ c.ready then
          { c with others := c.others ++ [[.deliver x.deliverSubj]] }
        else { c with backlog := Function.update c.backlog x.busSubID (c.backlog x.busSubID + 1) }
      else c

def Returned (c : Conn) : Prop := c.leaving = true ∧ c.readerOps = []

end Conn

end MonsterMQ.Nats
