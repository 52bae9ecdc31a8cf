import MonsterMQ.MqttHandlers

/-!
# One connection

The `Inflight` of a connected client with everything that touches it, each operation as one step.
-/

namespace MonsterMQ.Mqtt

open LittleEndian FiniteMaps

inductive Phase where
  | awaitPuback
  | awaitPubrec
  | awaitPubcomp
  deriving DecidableEq, Repr

structure Outstanding where
  tag : ℕ
  id : UInt16
  phase : Phase
  written : Bool
  deriving DecidableEq

structure Queued where
  tag : ℕ
  pk : Packet
  deriving DecidableEq

structure Conn where
  inflight : Inflight
  packetID : ℕ
  closed : Bool
  sessionReleased : Bool
  queue : List Queued
  outstanding : List Outstanding
  nextTag : ℕ

structure DeliveryOptions where
  maximumInflight : ℕ
  maximumPacketID : ℕ
  maximumQos : UInt8
  maximumMessageExpiryInterval : ℤ
  storedQueuedMessages : Bool

@[grind =] def firstPhase (pk : Packet) : Phase := if pk.qos = 1 then .awaitPuback else .awaitPubrec

@[grind =] def Packet.acknowledged (pk : Packet) : Bool := pk.type = .publish && pk.qos > 0

/-- The entry of the answers still due for a packet that is queued now. -/
@[grind =] def Packet.due (pk : Packet) (tag : ℕ) : List Outstanding :=
  if pk.acknowledged then [⟨tag, pk.packetID, firstPhase pk, false⟩] else []

@[grind =] def Outstanding.answeredBy (id : UInt16) (phase : Phase) (o : Outstanding) : Bool :=
  o.id = id && o.phase = phase && o.written

namespace Conn

/-- `NextPacketID`: the next identifier that is not in the map, starting over once. -/
def nextPacketID (i : Inflight) (last max : ℕ) : Option ℕ :=
  (List.range' (last + 1) (max - last) ++ List.range' 1 last).find?
    (fun n => (i.get (UInt16.ofNat n)).isNone)

/-- Queues a packet for the writer. A PUBLISH with QoS 1 or 2 is outstanding from now on. -/
@[grind =] def enqueue (c : Conn) (pk : Packet) : Conn :=
  { c with
    queue := c.queue ++ [⟨c.nextTag, pk⟩]
    outstanding := c.outstanding ++ pk.due c.nextTag
    nextTag := c.nextTag + 1 }

/-- `WritePacket` discards the packet when the connection is closed. -/
@[grind =] def writePacket (c : Conn) (pk : Packet) : Conn := if c.closed then c else c.enqueue pk

def claimExpiry (maximumMessageExpiryInterval now : ℤ) (pk : Packet) : ℤ :=
  let expiry := minimum maximumMessageExpiryInterval pk.properties.messageExpiryInterval.toNat
  if expiry > 0 then (if pk.created ≤ 0 then now else pk.created) + expiry else 0

/-- `claimDeferred` takes the oldest message that waits for quota, if there is quota. -/
@[grind =] def claimDeferred (c : Conn) (maximumMessageExpiryInterval now : ℤ) : Conn × Option Packet :=
  if !c.inflight.hasDeferred then (c, none)
  else
    let (i, next) := c.inflight.claimNextImmediate (claimExpiry maximumMessageExpiryInterval now)
    ({ c with inflight := i }, next)

@[grind =] def writeNextDeferred (c : Conn) (maximumMessageExpiryInterval now : ℤ) : Conn :=
  match c.claimDeferred maximumMessageExpiryInterval now with
  | (c, some pk) => c.writePacket pk
  | (c, none) => c

/-- The end of `publishToClient`: the message enters the map and goes to the outbound queue,
or waits for quota. A message that does not fit the queue leaves the map again. -/
@[grind =]
def sendOutbound (c : Conn) (out : Packet) (pushed : Bool) (maximumMessageExpiryInterval now : ℤ) : Conn :=
  let (i, deferred) := c.inflight.setOutbound out
  let c := { c with inflight := i }
  if deferred then
    if c.closed then c else c.writeNextDeferred maximumMessageExpiryInterval now
  else if c.closed then c
  else if pushed then c.enqueue out
  else { c with inflight := (c.inflight.delete out.packetID).1.increaseSendQuota.1 }

/-- `publishToClient` for a message whose checks passed: `qos` is that of the subscription,
`replica` a peer's copy that is not kept for offline clients, `pushed` the answer of the
outbound queue. -/
@[grind =]
def publishToClient (o : DeliveryOptions) (c : Conn) (pk : Packet) (qos : UInt8) (replica pushed : Bool)
    (now : ℤ) : Conn :=
  let out : Packet := { pk with dup := false, qos := min (min pk.qos qos) o.maximumQos }
  if out.qos = 0 then
    if c.closed ∨ !pushed then c else c.enqueue { out with packetID := 0 }
  else if c.closed ∧ c.sessionReleased ∧ o.storedQueuedMessages then c
  else if replica ∧ c.closed then c
  else if c.inflight.len ≥ o.maximumInflight then c
  else match nextPacketID c.inflight c.packetID o.maximumPacketID with
    | none => c
    | some n =>
      { c with packetID := n }.sendOutbound { out with packetID := UInt16.ofNat n } pushed
        o.maximumMessageExpiryInterval now

/-- The message of the offline queue enters the map and is written. -/
@[grind =] def replayOutbound (c : Conn) (pk : Packet) : Conn :=
  let (i, added) := c.inflight.set pk
  let i := if added then i.decreaseSendQuota.1 else i
  if c.closed then { c with inflight := (i.delete pk.packetID).1.increaseSendQuota.1 }
  else { c with inflight := i }.enqueue pk

/-- One message of `QueueHook.OnSessionEstablished`. -/
@[grind =] def replay (o : DeliveryOptions) (c : Conn) (pk : Packet) : Conn :=
  match nextPacketID c.inflight c.packetID o.maximumPacketID with
  | none => c
  | some n => { c with packetID := n }.replayOutbound { pk with packetID := UInt16.ofNat n }

def answered (id : UInt16) (phase : Phase) (os : List Outstanding) : List Outstanding :=
  os.eraseP (Outstanding.answeredBy id phase)

/-- A PUBREC without an error moves the exchange on. -/
@[grind =] def received (id : UInt16) : List Outstanding → List Outstanding
  | [] => []
  | o :: os =>
    if o.answeredBy id .awaitPubrec then { o with phase := .awaitPubcomp } :: os
    else o :: received id os

@[grind =] def writes (events : List Event) : List Packet :=
  events.filterMap (fun e => match e with
    | .write pk => some pk
    | _ => none)

/-- The end of `processPacket`: the connection ends with an error, otherwise the next
deferred message is claimed. -/
@[grind =]
def finish (c : Conn) (h : Handled) (writable : Bool) (maximumMessageExpiryInterval now : ℤ) : Conn :=
  let c := { c with inflight := h.inflight }
  let c := if writable then (writes h.events).foldl enqueue c else c
  if h.err then { c with closed := true } else c.writeNextDeferred maximumMessageExpiryInterval now

inductive Step where
  | publish (o : DeliveryOptions) (pk : Packet) (qos : UInt8) (replica pushed : Bool) (now : ℤ)
  | replay (o : DeliveryOptions) (pk : Packet)
  | inPublish (b : Broker) (pk : Packet) (writable : Bool)
  | inPubrel (b : Broker) (pk : Packet) (writable : Bool)
  | inPuback (b : Broker) (pk : Packet)
  | inPubrec (b : Broker) (pk : Packet) (writable : Bool)
  | inPubcomp (b : Broker) (pk : Packet)
  | claim (maximumMessageExpiryInterval now : ℤ)
  | encode (k : ℕ) (oversize : Bool) (maximumMessageExpiryInterval now : ℤ)
  | resend (acl : Bytes → Bool)
  | clearExpired (now maximumExpiry : ℤ)
  | close
  | release

/-- The entry a dropped packet belongs to, as far as `dropOversize` can tell. -/
@[grind =] def matchesEntry (c : Conn) (pk : Packet) : Bool :=
  (c.inflight.get pk.packetID).any (fun pki =>
    pki.type = .publish && pki.created = pk.created && pki.topicName = pk.topicName)

@[grind =] def markWritten (tag : ℕ) (os : List Outstanding) : List Outstanding :=
  os.map (fun o => if o.tag = tag then { o with written := true } else o)

/-- The packet was discarded before it was written. -/
def unqueue (tag : ℕ) (os : List Outstanding) : List Outstanding := os.filter (fun o => o.tag ≠ tag)

@[grind =] def encodeNextDeferred (c : Conn) (maximumMessageExpiryInterval now : ℤ) : Conn :=
  match c.claimDeferred maximumMessageExpiryInterval now with
  | (c, some next) =>
    { c with
      queue := ⟨c.nextTag, next⟩ :: c.queue
      outstanding := c.outstanding ++ next.due c.nextTag
      nextTag := c.nextTag + 1 }
  | (c, none) => c

/-- `dropOversize`: the message leaves the map and returns its quota. -/
@[grind =] def dropOversize (c : Conn) (pk : Packet) (maximumMessageExpiryInterval now : ℤ) : Conn :=
  if c.matchesEntry pk then
    let (i, returned) := (c.inflight.delete pk.packetID).1.increaseSendQuota
    let c := { c with inflight := i }
    if returned then c.encodeNextDeferred maximumMessageExpiryInterval now else c
  else c

@[grind =] def encode (c : Conn) (k : ℕ) (oversize : Bool) (maximumMessageExpiryInterval now : ℤ) : Conn :=
  match c.queue[k]? with
  | none => c
  | some q =>
    let c := { c with queue := c.queue.eraseIdx k }
    if q.pk.acknowledged then
      if oversize then
        { c with outstanding := unqueue q.tag c.outstanding }.dropOversize q.pk
          maximumMessageExpiryInterval now
      else { c with outstanding := markWritten q.tag c.outstanding }
    else c

/-- `ResendInflightMessages` writes the packet: it is no PUBREC, and no PUBLISH that the client may
not read. -/
def resends (acl : Bytes → Bool) (pk : Packet) : Bool :=
  pk.type ≠ .pubrec && !(pk.type = .publish && !acl pk.topicName)

/-- One turn of the loop of `ResendInflightMessages`, with a write that succeeds. -/
@[grind =] def resendOne (acl : Bytes → Bool) (c : Conn) (pk : Packet) : Conn :=
  if pk.type = .pubrec then c
  else if pk.type = .publish ∧ !acl pk.topicName then { c with inflight := (c.inflight.delete pk.packetID).1 }
  else
    let c := c.enqueue (if pk.type = .publish then { pk with dup := true } else pk)
    if pk.type = .puback ∨ pk.type = .pubcomp then
      { c with inflight := (c.inflight.delete pk.packetID).1 }
    else c

/-- The loop ends when a write fails. -/
def resendLoop (acl : Bytes → Bool) : List Packet → Conn → Conn
  | [], c => c
  | pk :: pks, c => if c.closed && resends acl pk then c else resendLoop acl pks (resendOne acl c pk)

def resendInflightMessages (acl : Bytes → Bool) (c : Conn) : Conn := resendLoop acl c.inflight.getAll c

def expired (now maximumExpiry : ℤ) (pk : Packet) : Bool :=
  (pk.protocolVersion = 5 && pk.expiry > 0 && pk.expiry < now) ||
    (maximumExpiry > 0 && now - pk.created > maximumExpiry)

def clearExpiredInflights (now maximumExpiry : ℤ) (i : Inflight) : Inflight :=
  (i.getAll.filter (expired now maximumExpiry)).foldl (fun i pk => (i.delete pk.packetID).1) i

@[grind =] def step (c : Conn) : Step → Conn
  | .publish o pk qos replica pushed now => c.publishToClient o pk qos replica pushed now
  | .replay o pk => c.replay o pk
  | .inPublish b pk writable =>
    if c.closed then c
    else c.finish (b.processPublish c.inflight pk writable) writable b.maximumMessageExpiryInterval b.now
  | .inPubrel b pk writable =>
    if c.closed then c
    else c.finish (b.processPubrel c.inflight pk writable) writable b.maximumMessageExpiryInterval b.now
  | .inPuback b pk =>
    if c.closed then c
    else { c with outstanding := answered pk.packetID .awaitPuback c.outstanding }.finish
      (Broker.processPuback c.inflight pk) true b.maximumMessageExpiryInterval b.now
  | .inPubrec b pk writable =>
    if c.closed then c
    else { c with
      outstanding := if failed pk then answered pk.packetID .awaitPubrec c.outstanding
        else received pk.packetID c.outstanding }.finish
      (b.processPubrec c.inflight pk writable) writable b.maximumMessageExpiryInterval b.now
  | .inPubcomp b pk =>
    if c.closed then c
    else { c with outstanding := answered pk.packetID .awaitPubcomp c.outstanding }.finish
      (Broker.processPubcomp c.inflight pk) true b.maximumMessageExpiryInterval b.now
  | .claim maximumMessageExpiryInterval now => c.writeNextDeferred maximumMessageExpiryInterval now
  | .encode k oversize maximumMessageExpiryInterval now => c.encode k oversize maximumMessageExpiryInterval now
  | .resend acl => c.resendInflightMessages acl
  | .clearExpired now maximumExpiry =>
    { c with inflight := clearExpiredInflights now maximumExpiry c.inflight }
  | .close => { c with closed := true }
  | .release => if c.closed then { c with sessionReleased := true } else c

/-- A client without messages of an earlier connection. -/
def fresh (s r : ℤ) : Conn where
  inflight := (newInflights.resetReceiveQuota r).resetSendQuota s
  packetID := 0
  closed := false
  sessionReleased := false
  queue := []
  outstanding := []
  nextTag := 0

end Conn

end MonsterMQ.Mqtt
