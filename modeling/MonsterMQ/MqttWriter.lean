import Mathlib.Data.List.Basic
import MonsterMQ.StateRuns

/-!
# The writer of a connection

`WriteLoop` of `internal/mqtt/writer.go` as a machine of atomic steps, interleaved with callers that queue
control packets, publishers that push live publishes and a stop of the client.
-/

namespace MonsterMQ.Mqtt

inductive PacketKind where
  | connack
  | publish
  | other
  deriving DecidableEq, Repr

/-- An entry of the control queue: its packet, if any, whether someone waits for it to be
flushed, and whether the client is stopped after it. -/
structure WriteItem where
  pk : Option PacketKind
  flushed : Bool
  closeAfter : Bool
  deriving DecidableEq, Repr

/-- The item the writer works on: an entry of the control queue or a live publish. -/
inductive Taken where
  | control (id : ℕ) (it : WriteItem)
  | live (id : ℕ) (after : ℕ)
  deriving DecidableEq, Repr

/-- A packet in the order it was encoded: of a control item, live, or a deferred message sent in
the place of one that was too large. -/
inductive Sent where
  | control (id : ℕ) (kind : PacketKind)
  | live (id : ℕ) (after : ℕ)
  | claimed
  deriving DecidableEq, Repr

/-- Where the writer is: in the select of `WriteLoop`, in `next` called from there or after the
`n`th packet of a batch (before its first look at the control queue, or with a live publish in
hand before its second), about to start a batch, at a packet of it, at its end, or returned. -/
inductive WriterAt where
  | select
  | poll (batch : Option ℕ)
  | repoll (batch : Option ℕ) (id after : ℕ)
  | start (t : Taken)
  | handle (t : Taken) (n : ℕ)
  | finish
  | returned
  deriving DecidableEq, Repr

inductive Encoding where
  | encoded
  | skipped
  | replaced
  | fatal
  deriving DecidableEq, Repr

def controlQueueSize : ℕ := 256
def maxBatchPackets : ℕ := 256

/-- The state of the two queues and of the writer. `accepted` lists the items of all completed
`enqueueControl` calls, `dropped` the packets that the encoder left out, and `closed` the items whose
`flushed` channel has been closed. -/
structure ConnWriter where
  control : List (ℕ × WriteItem)
  accepted : List WriteItem
  outbound : List (ℕ × ℕ)
  pushed : ℕ
  outboundMax : ℕ
  place : WriterAt
  connackSent : Bool
  failed : Bool
  stopped : Bool
  buf : List Sent
  wire : List Sent
  dropped : List Sent
  waiters : List ℕ
  closed : List ℕ
  deriving DecidableEq, Repr

namespace ConnWriter

def new (outboundMax : ℕ) : ConnWriter :=
  ⟨[], [], [], 0, outboundMax, .select, false, false, false, [], [], [], [], []⟩

/-- A send on the control channel completes; it blocks while the channel is full. -/
@[grind =] def enqueueControl (w : ConnWriter) (it : WriteItem) : ConnWriter :=
  if w.control.length < controlQueueSize then
    { w with control := w.control ++ [(w.accepted.length, it)], accepted := w.accepted ++ [it] }
  else w

/-- `outboundQueue.push`: a full queue drops the publish. -/
@[grind =] def push (w : ConnWriter) : ConnWriter :=
  if w.outbound.length < w.outboundMax then
    { w with outbound := w.outbound ++ [(w.pushed, w.accepted.length)], pushed := w.pushed + 1 }
  else w

def stop (w : ConnWriter) : ConnWriter := { w with stopped := true }

@[grind =] def releaseWaiters (w : ConnWriter) : ConnWriter :=
  { w with closed := w.closed ++ w.waiters, waiters := [] }

/-- `flush`; with `some k` the write fails after `k` packets. -/
@[grind =] def flush (w : ConnWriter) (fails : Option ℕ) : ConnWriter :=
  let w :=
    if !w.buf.isEmpty && !w.failed then
      match fails with
      | none => { w with wire := w.wire ++ w.buf }
      | some k => { w with wire := w.wire ++ w.buf.take k, failed := true, stopped := true }
    else w
  { w with buf := [] }.releaseWaiters

@[grind =] def encode (w : ConnWriter) (sent : Sent) (kind : PacketKind) : Encoding → ConnWriter
  | .encoded => { w with buf := w.buf ++ [sent], connackSent := w.connackSent || kind = .connack }
  | .skipped => w
  | .replaced => if kind = .publish then { w with buf := w.buf ++ [.claimed] } else w
  | .fatal =>
    if kind = .publish then w
    else { w with failed := true, stopped := true }

/-- The buffer holds the packet, or it is noted as dropped. -/
@[grind =] def encodeTaken (w : ConnWriter) (e : Encoding) : Taken → ConnWriter
  | .live id after =>
    let w := w.encode (.live id after) .publish e
    if e = .encoded then w else { w with dropped := w.dropped ++ [.live id after] }
  | .control id it =>
    match it.pk with
    | none => w
    | some kind =>
      let w := w.encode (.control id kind) kind e
      if e = .encoded then w else { w with dropped := w.dropped ++ [.control id kind] }

@[grind =] def takesFlushed : Taken → List ℕ
  | .live _ _ => []
  | .control id it => if it.flushed then [id] else []

def takesClose : Taken → Bool
  | .live _ _ => false
  | .control _ it => it.closeAfter

@[grind =] def discard (w : ConnWriter) (t : Taken) : ConnWriter :=
  { w with closed := w.closed ++ takesFlushed t, place := .select }

/-- Where the loop of `writeBatch` goes on after a packet. -/
def afterPacket (w : ConnWriter) (n : ℕ) : ConnWriter :=
  { w with place := if n + 1 ≥ maxBatchPackets then .finish else .poll (some n) }

/-- One round of the loop of `writeBatch`. `full` says that the buffer has reached its limit. -/
@[grind =]
def handleItem (w : ConnWriter) (t : Taken) (n : ℕ) (e : Encoding) (full : Bool) (fails : Option ℕ) : ConnWriter :=
  let w := w.encodeTaken e t
  let w := { w with waiters := w.waiters ++ takesFlushed t }
  if takesClose t then
    { w.flush fails with failed := true, stopped := true, place := .select }
  else if w.failed then { w.releaseWaiters with place := .select }
  else if !(takesFlushed t).isEmpty || full then (w.flush fails).afterPacket n
  else w.afterPacket n

@[grind =] def got (w : ConnWriter) (t : Taken) : Option ℕ → ConnWriter
  | none => { w with place := .start t }
  | some n => { w with place := .handle t (n + 1) }

@[grind =] def nothing (w : ConnWriter) : Option ℕ → ConnWriter
  | none => { w with place := .select }
  | some _ => { w with place := .finish }

/-- The branch the select of `WriteLoop` takes, if ready. -/
inductive Branch where
  | control
  | outbound
  | done
  deriving DecidableEq, Repr

@[grind =]
def advance (w : ConnWriter) (b : Branch) (e : Encoding) (full : Bool) (fails : Option ℕ) : ConnWriter :=
  match w.place with
  | .select => match b with
    | .control => match w.control with
      | [] => w
      | (id, it) :: rest => { w with control := rest, place := .start (.control id it) }
    | .outbound => if w.connackSent then { w with place := .poll none } else w
    | .done => if w.stopped then { w.releaseWaiters with place := .returned } else w
  | .poll batch => match w.control with
    | (id, it) :: rest => { w with control := rest }.got (.control id it) batch
    | [] =>
      if !w.connackSent then w.nothing batch
      else match w.outbound with
        | [] => w.nothing batch
        | (id, after) :: rest => { w with outbound := rest, place := .repoll batch id after }
  | .repoll batch id after => match w.control with
    | (cid, it) :: rest =>
      -- a control packet arrived in the meantime: the publish goes back to the front
      { w with control := rest, outbound := (id, after) :: w.outbound }.got (.control cid it) batch
    | [] => w.got (.live id after) batch
  | .start t => if w.stopped || w.failed then w.discard t else { w with place := .handle t 0 }
  | .handle t n => w.handleItem t n e full fails
  | .finish => { w.flush fails with place := .select }
  | .returned => w

inductive Event where
  | enqueue (it : WriteItem)
  | push
  | stop
  | writer (b : Branch) (e : Encoding) (full : Bool) (fails : Option ℕ)
  deriving DecidableEq, Repr

@[grind =] def step (w : ConnWriter) : Event → ConnWriter
  | .enqueue it => w.enqueueControl it
  | .push => w.push
  | .stop => w.stop
  | .writer b e full fails => w.advance b e full fails

end ConnWriter

end MonsterMQ.Mqtt
