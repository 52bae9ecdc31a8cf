import MonsterMQ.PacketProperties

/-!
# The decoders of MQTT packets

The packet record and, for each packet type, the function that fills it from the body of
a frame.
-/

namespace MonsterMQ.Packets

open LittleEndian CheckedReads

structure FixedHeader where
  remaining : ℕ := 0
  type : PacketType := .reserved
  qos : UInt8 := 0
  dup : Bool := false
  retain : Bool := false
  deriving DecidableEq, Repr

/-- What a client or the server lets the encoder write. -/
structure Mods where
  maxSize : UInt32 := 0
  disallowProblemInfo : Bool := false
  allowResponseInfo : Bool := false
  deriving DecidableEq, Repr

structure ConnectParams where
  willProperties : Properties := {}
  password : Bytes := []
  username : Bytes := []
  protocolName : Bytes := []
  willPayload : Bytes := []
  clientIdentifier : Bytes := []
  willTopic : Bytes := []
  keepalive : UInt16 := 0
  passwordFlag : Bool := false
  usernameFlag : Bool := false
  willQos : UInt8 := 0
  willFlag : Bool := false
  willRetain : Bool := false
  clean : Bool := false
  deriving DecidableEq, Repr

structure Subscription where
  filter : Bytes
  identifier : ℕ := 0
  retainHandling : UInt8 := 0
  qos : UInt8 := 0
  retainAsPublished : Bool := false
  noLocal : Bool := false
  deriving DecidableEq, Repr

structure Packet where
  connect : ConnectParams := {}
  properties : Properties := {}
  payload : Bytes := []
  reasonCodes : Bytes := []
  filters : List Subscription := []
  topicName : Bytes := []
  fixedHeader : FixedHeader := {}
  mods : Mods := {}
  packetID : UInt16 := 0
  protocolVersion : UInt8 := 0
  sessionPresent : Bool := false
  reasonCode : UInt8 := 0
  reservedBit : UInt8 := 0
  deriving DecidableEq, Repr

/-- The properties that begin at an offset, and the offset after them. -/
@[grind =] def decodePropertiesAt (p : Properties) (pkt : PacketType) (f : DecodeError → DecodeError)
    (buf : Bytes) (offset : ℕ) : Decoded (Properties × ℕ) := do
  let rest ← sliceFrom buf offset
  let (p, n) ← report f (p.decode pkt rest)
  return (p, offset + n)

/-- The error of a malformed property section, in the words of the packet decoders. -/
def inProperties (e : DecodeError) : DecodeError := .wrapped e .malformedProperties

def bit (b i : UInt8) : Bool := (1 : UInt8) &&& (b >>> i) > 0

@[grind =] def ConnectParams.decodeFlags (c : ConnectParams) (flags : UInt8) : ConnectParams :=
  { c with
    clean := bit flags 1
    willFlag := bit flags 2
    willQos := (3 : UInt8) &&& (flags >>> 3)
    willRetain := bit flags 5
    passwordFlag := bit flags 6
    usernameFlag := bit flags 7 }

@[grind =] def ConnectParams.decodeWill (c : ConnectParams) (version : UInt8) (buf : Bytes)
    (offset : ℕ) : Decoded (ConnectParams × ℕ) :=
  if c.willFlag then do
    let (willProperties, offset) ←
      (if version = 5 then
        decodePropertiesAt c.willProperties .willProperties (fun _ => .malformedWillProperties)
          buf offset
      else pure (c.willProperties, offset))
    let (willTopic, offset) ← report (fun _ => .malformedWillTopic) (decodeString buf offset)
    let (willPayload, offset) ← report (fun _ => .malformedWillPayload) (decodeBytes buf offset)
    return ({ c with willProperties, willTopic, willPayload }, offset)
  else return (c, offset)

@[grind =] def ConnectParams.decodeUsername (c : ConnectParams) (buf : Bytes) (offset : ℕ) :
    Decoded (ConnectParams × ℕ) :=
  if c.usernameFlag then
    if offset ≥ buf.length then fail .protocolViolationFlagNoUsername
    else store (fun username => { c with username })
      (report (fun _ => .malformedUsername) (decodeBytes buf offset))
  else return (c, offset)

@[grind =] def ConnectParams.decodePassword (c : ConnectParams) (buf : Bytes) (offset : ℕ) :
    Decoded (ConnectParams × ℕ) :=
  if c.passwordFlag then
    if offset ≥ buf.length then fail .protocolViolationFlagNoPassword
    else store (fun password => { c with password })
      (report (fun _ => .malformedPassword) (decodeBytes buf offset))
  else return (c, offset)

def Packet.connectDecode (pk : Packet) (buf : Bytes) : Decoded Packet := do
  let (protocolName, offset) ← report (fun _ => .malformedProtocolName) (decodeBytes buf 0)
  let (protocolVersion, offset) ←
    report (fun _ => .malformedProtocolVersion) (decodeByte buf offset)
  let (flags, offset) ← report (fun _ => .malformedFlags) (decodeByte buf offset)
  let (keepalive, offset) ← report (fun _ => .malformedKeepalive) (decodeUint16 buf offset)
  let (properties, offset) ←
    (if protocolVersion = 5 then
      decodePropertiesAt pk.properties pk.fixedHeader.type inProperties buf offset
    else pure (pk.properties, offset))
  let (clientIdentifier, offset) ←
    report (fun _ => .clientIdentifierNotValid) (decodeString buf offset)
  let connect := { pk.connect with protocolName, keepalive, clientIdentifier }
  let (connect, offset) ← (connect.decodeFlags flags).decodeWill protocolVersion buf offset
  let (connect, offset) ← connect.decodeUsername buf offset
  let (connect, _) ← connect.decodePassword buf offset
  return { pk with connect, protocolVersion, properties, reservedBit := 1 &&& flags }

def Packet.connackDecode (pk : Packet) (buf : Bytes) : Decoded Packet := do
  let (sessionPresent, offset) ←
    report (.wrapped · .malformedSessionPresent) (decodeByteBool buf 0)
  let (reasonCode, offset) ← report (.wrapped · .malformedReasonCode) (decodeByte buf offset)
  let (properties, _) ←
    (if pk.protocolVersion = 5 then
      decodePropertiesAt pk.properties pk.fixedHeader.type inProperties buf offset
    else pure (pk.properties, offset))
  return { pk with sessionPresent, reasonCode, properties }

@[grind =] def Packet.disconnectDecode (pk : Packet) (buf : Bytes) : Decoded Packet :=
  if pk.protocolVersion = 5 ∧ pk.fixedHeader.remaining > 0 then do
    let (reasonCode, offset) ← report (.wrapped · .malformedReasonCode) (decodeByte buf 0)
    let (properties, _) ←
      (if pk.fixedHeader.remaining > 1 then
        decodePropertiesAt pk.properties pk.fixedHeader.type inProperties buf offset
      else pure (pk.properties, offset))
    return { pk with reasonCode, properties }
  else return pk

def Packet.pingreqDecode (pk : Packet) (_ : Bytes) : Decoded Packet := return pk

def Packet.pingrespDecode (pk : Packet) (_ : Bytes) : Decoded Packet := return pk

@[grind =] def noPropertiesAt (buf : Bytes) (offset : ℕ) : Decoded Bool :=
  if offset < buf.length then do
    let b ← index buf offset
    return b = 0
  else return false

@[grind =] def Packet.decodePublishProperties (pk : Packet) (buf : Bytes) (offset : ℕ) :
    Decoded (Properties × ℕ) :=
  if pk.protocolVersion = 5 then do
    let none ← noPropertiesAt buf offset
    if none then pure (pk.properties, offset + 1)
    else decodePropertiesAt pk.properties pk.fixedHeader.type inProperties buf offset
  else pure (pk.properties, offset)

def Packet.publishDecode (pk : Packet) (buf : Bytes) : Decoded Packet := do
  let (topicName, offset) ← report (.wrapped · .malformedTopic) (decodeString buf 0)
  let (packetID, offset) ←
    (if pk.fixedHeader.qos > 0 then
      report (.wrapped · .malformedPacketID) (decodeUint16 buf offset)
    else pure (pk.packetID, offset))
  let (properties, offset) ← pk.decodePublishProperties buf offset
  let payload ← sliceFrom buf offset
  return { pk with topicName, packetID, properties, payload }

def Packet.decodePubAckRelRecComp (pk : Packet) (buf : Bytes) : Decoded Packet := do
  let (packetID, offset) ← report (.wrapped · .malformedPacketID) (decodeUint16 buf 0)
  if pk.protocolVersion = 5 ∧ pk.fixedHeader.remaining > 2 then do
    let (reasonCode, offset) ← report (.wrapped · .malformedReasonCode) (decodeByte buf offset)
    if pk.fixedHeader.remaining > 3 then do
      let none ← noPropertiesAt buf offset
      if none then return { pk with packetID, reasonCode }
      else do
        let (properties, _) ←
          decodePropertiesAt pk.properties pk.fixedHeader.type inProperties buf offset
        return { pk with packetID, reasonCode, properties }
    else return { pk with packetID, reasonCode }
  else return { pk with packetID }

def Packet.pubackDecode (pk : Packet) (buf : Bytes) : Decoded Packet :=
  pk.decodePubAckRelRecComp buf

def Packet.pubcompDecode (pk : Packet) (buf : Bytes) : Decoded Packet :=
  pk.decodePubAckRelRecComp buf

def Packet.pubrecDecode (pk : Packet) (buf : Bytes) : Decoded Packet :=
  pk.decodePubAckRelRecComp buf

def Packet.pubrelDecode (pk : Packet) (buf : Bytes) : Decoded Packet :=
  pk.decodePubAckRelRecComp buf

def Packet.subackDecode (pk : Packet) (buf : Bytes) : Decoded Packet := do
  let (packetID, offset) ← report (.wrapped · .malformedPacketID) (decodeUint16 buf 0)
  let (properties, offset) ←
    (if pk.protocolVersion = 5 then
      decodePropertiesAt pk.properties pk.fixedHeader.type inProperties buf offset
    else pure (pk.properties, offset))
  let reasonCodes ← sliceFrom buf offset
  return { pk with packetID, properties, reasonCodes }

def Subscription.decodeOptions (s : Subscription) (b : UInt8) : Subscription :=
  { s with
    qos := b &&& 3
    noLocal := bit b 2
    retainAsPublished := bit b 3
    retainHandling := (3 : UInt8) &&& (b >>> 4) }

@[grind =] def Subscription.ofOption (version : UInt8) (identifiers : List ℕ) (filter : Bytes)
    (option : UInt8) : Subscription :=
  { (if version = 5 then Subscription.decodeOptions { filter := filter } option
      else { filter := filter, qos := option } : Subscription) with
    identifier := identifiers.head?.getD 0 }

def decodeSubscription (version : UInt8) (identifiers : List ℕ) (buf : Bytes)
    (filters : List Subscription) (offset : ℕ) : Decoded (List Subscription × ℕ) := do
  let (filter, offset) ← report (fun _ => .malformedTopic) (decodeString buf offset)
  let (option, offset) ← report (fun _ => .malformedQos) (decodeByte buf offset)
  if version = 5 ∧ (option &&& 0xC0 ≠ 0 ∨ (option >>> 4) &&& 3 = 3) then
    fail .malformedSubscriptionOptions
  else if (Subscription.ofOption version identifiers filter option).qos > 2 then
    fail .protocolViolationQosOutOfRange
  else return (filters ++ [Subscription.ofOption version identifiers filter option], offset)

def Packet.subscribeDecode (pk : Packet) (buf : Bytes) : Decoded Packet := do
  let (packetID, offset) ← report (fun _ => .malformedPacketID) (decodeUint16 buf 0)
  let (properties, offset) ←
    (if pk.protocolVersion = 5 then
      decodePropertiesAt pk.properties pk.fixedHeader.type inProperties buf offset
    else pure (pk.properties, offset))
  let filters ← readWhile buf.length
    (decodeSubscription pk.protocolVersion properties.subscriptionIdentifier buf) buf.length []
    offset
  return { pk with packetID, properties, filters }

def Packet.unsubackDecode (pk : Packet) (buf : Bytes) : Decoded Packet := do
  let (packetID, offset) ← report (.wrapped · .malformedPacketID) (decodeUint16 buf 0)
  if pk.protocolVersion = 5 then do
    let (properties, offset) ←
      decodePropertiesAt pk.properties pk.fixedHeader.type inProperties buf offset
    let reasonCodes ← sliceFrom buf offset
    return { pk with packetID, properties, reasonCodes }
  else return { pk with packetID }

def decodeFilter (buf : Bytes) (filters : List Subscription) (offset : ℕ) : Decoded (List Subscription × ℕ) :=
  store (fun filter => filters ++ [{ filter := filter }])
    (report (.wrapped · .malformedTopic) (decodeString buf offset))

def Packet.unsubscribeDecode (pk : Packet) (buf : Bytes) : Decoded Packet := do
  let (packetID, offset) ← report (.wrapped · .malformedPacketID) (decodeUint16 buf 0)
  let (properties, offset) ←
    (if pk.protocolVersion = 5 then
      decodePropertiesAt pk.properties pk.fixedHeader.type inProperties buf offset
    else pure (pk.properties, offset))
  let filters ← readWhile buf.length (decodeFilter buf) buf.length [] offset
  return { pk with packetID, properties, filters }

@[grind =] def Packet.authDecode (pk : Packet) (buf : Bytes) : Decoded Packet :=
  if buf.length = 0 then return { pk with reasonCode := 0 }
  else do
    let (reasonCode, offset) ← report (.wrapped · .malformedReasonCode) (decodeByte buf 0)
    let (properties, _) ←
      (if offset < buf.length then
        decodePropertiesAt pk.properties pk.fixedHeader.type inProperties buf offset
      else pure (pk.properties, offset))
    return { pk with reasonCode, properties }

/-- The packet types a fixed header can announce and a decoder exists for. -/
inductive FrameType
  | connect | connack | publish | puback | pubrec | pubrel | pubcomp | subscribe | suback
  | unsubscribe | unsuback | pingreq | pingresp | disconnect | auth
  deriving DecidableEq, Repr

def FrameType.toPacketType : FrameType → PacketType
  | .connect => .connect
  | .connack => .connack
  | .publish => .publish
  | .puback => .puback
  | .pubrec => .pubrec
  | .pubrel => .pubrel
  | .pubcomp => .pubcomp
  | .subscribe => .subscribe
  | .suback => .suback
  | .unsubscribe => .unsubscribe
  | .unsuback => .unsuback
  | .pingreq => .pingreq
  | .pingresp => .pingresp
  | .disconnect => .disconnect
  | .auth => .auth

def Packet.decodeAs (t : FrameType) (pk : Packet) (buf : Bytes) : Decoded Packet :=
  match t with
  | .connect => pk.connectDecode buf
  | .connack => pk.connackDecode buf
  | .publish => pk.publishDecode buf
  | .puback => pk.pubackDecode buf
  | .pubrec => pk.pubrecDecode buf
  | .pubrel => pk.pubrelDecode buf
  | .pubcomp => pk.pubcompDecode buf
  | .subscribe => pk.subscribeDecode buf
  | .suback => pk.subackDecode buf
  | .unsubscribe => pk.unsubscribeDecode buf
  | .unsuback => pk.unsubackDecode buf
  | .pingreq => pk.pingreqDecode buf
  | .pingresp => pk.pingrespDecode buf
  | .disconnect => pk.disconnectDecode buf
  | .auth => pk.authDecode buf

/-- The packet `ReadPacket` hands to a decoder: only the header and the version are set. -/
def newPacket (fixedHeader : FixedHeader) (protocolVersion : UInt8) : Packet :=
  { fixedHeader, protocolVersion }

/-- `ReadPacket`: the body of a frame, as long as the fixed header announces, decoded into a
new packet. -/
def readPacket (t : FrameType) (version qos : UInt8) (dup retain : Bool) (buf : Bytes) : Decoded Packet :=
  Packet.decodeAs t
    (newPacket { remaining := buf.length, type := t.toPacketType, qos, dup, retain } version) buf

end MonsterMQ.Packets
