import MonsterMQ.MqttInflight

/-!
# Handlers of inbound packets

`processPublish` to `processUnsubscribe` of `internal/mqtt/server.go`, as functions of the client's
`Inflight`. What a handler sends, publishes or reports to the hooks is the list of its events.
-/

namespace MonsterMQ.Mqtt

open LittleEndian FiniteMaps

inductive PublishVerdict where
  | accept
  | ignore
  | reject (code : Code)
  | fail

structure Subscription where
  filter : Bytes
  qos : UInt8
  noLocal : Bool
  deriving DecidableEq

/-- Options, hooks and topic index as one client's packet meets them. -/
structure Broker where
  maximumQos : UInt8
  maximumMessageExpiryInterval : ℤ
  noInheritedPropertiesOnAck : Bool
  obscureNotAuthorized : Bool
  protocolVersion : UInt8
  now : ℤ
  aliasTopic : Packet → Option Bytes
  isValidTopic : Bytes → Bool
  isValidFilter : Bytes → Bool
  isSharedFilter : Bytes → Bool
  onACLCheck : Bytes → Bool → Bool
  resolveVirtualPublish : Bytes → Except Code Bytes
  onPublish : Packet → PublishVerdict
  onSubscribeValidate : Subscription → Code
  subscribeIsNew : Subscription → Bool
  unsubscribeExisted : Bytes → Bool

inductive Event where
  | write (pk : Packet)
  | publish (pk : Packet) (ignored : Bool)
  | retain (pk : Packet) (ignored : Bool)
  | qosPublish (pk : Packet)
  | qosComplete (pk : Packet)
  | qosDropped (pk : Packet)
  | subscribe (sub : Subscription)
  | unsubscribe (filter : Bytes)
  | retained (sub : Subscription) (existed : Bool)
  | disconnect (code : Code)
  deriving DecidableEq

structure Handled where
  inflight : Inflight
  events : List Event
  err : Bool

/-- `minimum` of two intervals, zero meaning none. -/
def minimum (a b : ℤ) : ℤ := if a ≠ 0 then (if b ≠ 0 ∧ b < a then b else a) else b

@[grind =] def codeOf (pk : Packet) (codes : List UInt8) : Bool := codes.contains pk.reasonCode

@[grind =] def reasonCodeValid (pk : Packet) : Bool :=
  match pk.type with
  | .pubrec => codeOf pk [0x00, 0x10, 0x80, 0x83, 0x87, 0x90, 0x91, 0x97, 0x99]
  | .pubrel => codeOf pk [0x00, 0x92]
  | .pubcomp => codeOf pk [0x00, 0x92]
  | _ => true

/-- The answer reports a failure: the exchange ends. -/
@[grind =] def failed (pk : Packet) : Bool := pk.reasonCode ≥ errUnspecifiedError.code || !reasonCodeValid pk

namespace Broker

@[grind =]
def buildAck (b : Broker) (packetID : UInt16) (type : PacketType) (qos : UInt8) (properties : Properties)
    (reason : Code) : Packet :=
  let properties := if b.noInheritedPropertiesOnAck then Properties.none else properties
  let properties := if reason.code ≥ errUnspecifiedError.code then
      { properties with reasonString := reason.reason }
    else properties
  { type := type
    qos := qos
    dup := false
    retain := false
    packetID := packetID
    topicName := []
    payload := []
    reasonCode := reason.code
    reasonCodes := []
    properties := properties
    protocolVersion := 0
    created := b.now
    expiry := b.now + b.maximumMessageExpiryInterval }

@[grind =] def ackPublish (b : Broker) (pk : Packet) (reason : Code) : Packet :=
  b.buildAck pk.packetID (if pk.qos = 2 then .pubrec else .puback) 0 pk.properties reason

/-- Ends a PUBLISH that is not published: an acknowledgement with the reason for MQTT 5,
otherwise the connection. -/
@[grind =]
def refusePublish (b : Broker) (i : Inflight) (pk : Packet) (code : Code) (writable : Bool) : Handled :=
  if pk.qos = 0 then ⟨i, [], false⟩
  else if b.protocolVersion ≠ 5 then ⟨i, [.disconnect code], true⟩
  else ⟨i, [.write (b.ackPublish pk code)], !writable⟩

def stampPublish (b : Broker) (pk : Packet) : Packet :=
  let expiry := minimum b.maximumMessageExpiryInterval pk.properties.messageExpiryInterval.toNat
  { pk with created := b.now, expiry := if expiry > 0 then b.now + expiry else pk.expiry }

/-- The end of `processPublish`: stores the acknowledgement, sends it and publishes. The
second component is `quotaReserved`. -/
@[grind =]
def acceptPublish (b : Broker) (i : Inflight) (pk : Packet) (ignored writable : Bool) : Handled × Bool :=
  let retained := if pk.retain then [Event.retain pk ignored] else []
  if pk.qos = 0 then (⟨i, retained ++ [.publish pk ignored], false⟩, true)
  else
    let ack := b.ackPublish pk codeSuccess
    let (i, added) := i.set ack
    let events := retained ++ (if added then [Event.qosPublish ack] else []) ++ [.write ack]
    if !writable then (⟨i, events, true⟩, pk.qos ≠ 2)
    else if pk.qos = 1 then
      let (i, _) := i.delete ack.packetID
      let (i, _) := i.increaseReceiveQuota
      (⟨i, events ++ [.qosComplete ack, .publish pk ignored], false⟩, false)
    else (⟨i, events ++ [.publish pk ignored], false⟩, pk.qos ≠ 2)

@[grind =] def hookPublish (b : Broker) (i : Inflight) (pk : Packet) (writable : Bool) : Handled × Bool :=
  let pk := if pk.qos > b.maximumQos then { pk with qos := b.maximumQos } else pk
  match b.onPublish pk with
  | .accept => b.acceptPublish i pk false writable
  | .ignore => b.acceptPublish i pk true writable
  | .reject code => (b.refusePublish i pk code writable, true)
  | .fail => (⟨i, [], true⟩, true)

/-- The duplicate check of `processPublish` [MQTT-4.3.3-10] [MQTT-4.3.2-5]. -/
@[grind =] def checkDuplicate (b : Broker) (i : Inflight) (pk : Packet) (writable : Bool) : Handled × Bool :=
  if pk.qos > 0 then
    match i.get pk.packetID with
    | some pki =>
      if pki.type = .pubrec then
        (⟨i, [.write (b.buildAck pk.packetID .pubrec 0 pk.properties errPacketIdentifierInUse)], !writable⟩, true)
      else b.hookPublish (i.delete pk.packetID).1 pk writable
    | none => b.hookPublish i pk writable
  else b.hookPublish i pk writable

/-- `processPublish` behind the topic check and the receive quota. -/
@[grind =] def authorizePublish (b : Broker) (i : Inflight) (pk : Packet) (writable : Bool) : Handled × Bool :=
  if !b.onACLCheck pk.topicName true then (b.refusePublish i pk errNotAuthorized writable, true)
  else match b.resolveVirtualPublish pk.topicName with
    | .error code => (b.refusePublish i pk code writable, true)
    | .ok topic => b.checkDuplicate i (b.stampPublish { pk with topicName := topic }) writable

@[grind =] def processPublish (b : Broker) (i : Inflight) (pk : Packet) (writable : Bool) : Handled :=
  if b.aliasTopic pk = some [] then ⟨i, [.disconnect errTopicAliasInvalid], true⟩
  else
    let pk := { pk with topicName := (b.aliasTopic pk).getD pk.topicName }
    if !b.isValidTopic pk.topicName then ⟨i, [], false⟩
    else if pk.qos = 0 then (b.authorizePublish i pk writable).1
    else
      let (i, ok) := i.decreaseReceiveQuota
      if !ok then ⟨i, [.disconnect errReceiveMaximum], true⟩
      else
        let (h, reserved) := b.authorizePublish i pk writable
        if reserved then { h with inflight := h.inflight.increaseReceiveQuota.1 } else h

@[grind =] def processPuback (i : Inflight) (pk : Packet) : Handled :=
  match i.get pk.packetID with
  | none => ⟨i, [], false⟩
  | some pki =>
    if pki.type ≠ .publish ∨ pki.qos ≠ 1 ∨ pki.expiry < 0 then ⟨i, [], false⟩
    else ⟨(i.delete pk.packetID).1.increaseSendQuota.1, [.qosComplete pk], false⟩

@[grind =] def processPubrec (b : Broker) (i : Inflight) (pk : Packet) (writable : Bool) : Handled :=
  let notFound := b.buildAck pk.packetID .pubrel 1 pk.properties errPacketIdentifierNotFound
  match i.get pk.packetID with
  | none => ⟨i, [.write notFound], !writable⟩
  | some pki =>
    if pki.type ≠ .publish ∨ pki.qos ≠ 2 ∨ pki.expiry < 0 then ⟨i, [.write notFound], !writable⟩
    else if failed pk then
      ⟨(i.delete pk.packetID).1.increaseSendQuota.1, [.qosDropped pk], false⟩
    else
      let ack := b.buildAck pk.packetID .pubrel 1 pk.properties codeSuccess
      ⟨i.put ack, [.write ack], !writable⟩

@[grind =] def processPubrel (b : Broker) (i : Inflight) (pk : Packet) (writable : Bool) : Handled :=
  let notFound := b.buildAck pk.packetID .pubcomp 0 pk.properties errPacketIdentifierNotFound
  match i.get pk.packetID with
  | none => ⟨i, [.write notFound], !writable⟩
  | some pki =>
    if pki.type ≠ .pubrec then ⟨i, [.write notFound], !writable⟩
    else if failed pk then
      ⟨(i.delete pk.packetID).1.increaseReceiveQuota.1, [.qosDropped pk], false⟩
    else
      let ack := b.buildAck pk.packetID .pubcomp 0 pk.properties codeSuccess
      let i := i.put ack
      if !writable then ⟨i, [.write ack], true⟩
      else ⟨(i.delete pk.packetID).1.increaseReceiveQuota.1, [.write ack, .qosComplete pk], false⟩

@[grind =] def processPubcomp (i : Inflight) (pk : Packet) : Handled :=
  match i.get pk.packetID with
  | none => ⟨i, [], false⟩
  | some pki =>
    if pki.type ≠ .pubrel then ⟨i, [], false⟩
    else ⟨(i.delete pk.packetID).1.increaseSendQuota.1, [.qosComplete pk], false⟩

structure FilterPacket where
  packetID : UInt16
  filters : List Subscription
  user : List (Bytes × Bytes)

def identifierCode (i : Inflight) (id : UInt16) : Code :=
  if (i.get id).isSome then errPacketIdentifierInUse else codeSuccess

def subscribeFilter (b : Broker) (sub : Subscription) : UInt8 × Bool :=
  let (rc, done) :=
    if !b.isValidFilter sub.filter then (0x8F, false)
    else if sub.noLocal && b.isSharedFilter sub.filter then (0x82, false)
    else if !b.onACLCheck sub.filter false then
      ((if b.obscureNotAuthorized then 0x80 else 0x87), false)
    else if (b.onSubscribeValidate sub).code ≠ codeSuccess.code then ((b.onSubscribeValidate sub).code, false)
    else (min sub.qos b.maximumQos, true)
  (if rc > 2 && b.protocolVersion < 5 then 0x80 else rc, done)

def filtersAck (type : PacketType) (pk : FilterPacket) (code : Code) (reasonCodes : List UInt8) : Packet where
  type := type
  qos := 0
  dup := false
  retain := false
  packetID := pk.packetID
  topicName := []
  payload := []
  reasonCode := 0
  reasonCodes := reasonCodes
  properties := ⟨if code.code ≥ errUnspecifiedError.code then code.reason else "", pk.user, 0⟩
  protocolVersion := 0
  created := 0
  expiry := 0

def processSubscribe (b : Broker) (i : Inflight) (pk : FilterPacket) (writable : Bool) : Handled :=
  let code := identifierCode i pk.packetID
  if code ≠ codeSuccess then
    ⟨i, [.write (filtersAck .suback pk code (pk.filters.map (fun _ => code.code)))], !writable⟩
  else
    let results := pk.filters.map (fun sub => (sub, b.subscribeFilter sub))
    let subscribed := (results.filter (fun r => r.2.2)).map (fun r => Event.subscribe r.1)
    let ack := filtersAck .suback pk code (results.map (fun r => r.2.1))
    let retained := (results.filter (fun r => r.2.1 < errUnspecifiedError.code)).map
      (fun r => Event.retained r.1 (r.2.2 && !b.subscribeIsNew r.1))
    ⟨i, subscribed ++ [.write ack] ++ (if writable then retained else []), !writable⟩

def processUnsubscribe (b : Broker) (i : Inflight) (pk : FilterPacket) (writable : Bool) : Handled :=
  let code := identifierCode i pk.packetID
  if code ≠ codeSuccess then
    ⟨i, [.write (filtersAck .unsuback pk code (pk.filters.map (fun _ => code.code)))], !writable⟩
  else
    let codes := pk.filters.map (fun sub =>
      if b.unsubscribeExisted sub.filter then codeSuccess.code else codeNoSubscriptionExisted.code)
    ⟨i, pk.filters.map (fun sub => Event.unsubscribe sub.filter) ++
      [.write (filtersAck .unsuback pk code codes)], !writable⟩

end Broker

end MonsterMQ.Mqtt
