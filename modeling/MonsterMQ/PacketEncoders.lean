import MonsterMQ.PacketDecoders

/-!
# The encoders of MQTT packets

The property encoder and, for each packet type, the function that writes a frame.
-/

namespace MonsterMQ.Packets

open LittleEndian CheckedReads

/-- `mods.MaxSize == 0 || uint32(n+size+1) < mods.MaxSize`. -/
@[grind =] def Mods.fits (mods : Mods) (n size : ℕ) : Bool :=
  mods.maxSize == 0 || UInt32.ofNat (n + size + 1) < mods.maxSize

@[grind =] def Properties.identifierBytes (p : Properties) : Bytes :=
  p.subscriptionIdentifier.flatMap fun v =>
    if v > 0 then PropertyKey.subscriptionIdentifier.toByte :: encodeLength v else []

@[grind =] def UserProperty.encode (u : UserProperty) : Bytes :=
  PropertyKey.user.toByte :: (encodeString u.key ++ encodeString u.val)

def Properties.userBytes (p : Properties) : Bytes := p.user.flatMap UserProperty.encode

/-- The condition under which the encoder writes a property that the packet type allows. -/
@[grind =] def Properties.written (p : Properties) (mods : Mods) (n : ℕ) : PropertyKey → Bool
  | .payloadFormat => p.payloadFormatFlag
  | .messageExpiryInterval => p.messageExpiryInterval > 0
  | .contentType => p.contentType != []
  | .responseTopic =>
    mods.allowResponseInfo && p.responseTopic != [] && !containsWildcard p.responseTopic
  | .correlationData => mods.allowResponseInfo && p.correlationData != []
  | .subscriptionIdentifier => !p.subscriptionIdentifier.isEmpty
  | .sessionExpiryInterval => p.sessionExpiryIntervalFlag
  | .assignedClientID => p.assignedClientID != []
  | .serverKeepAlive => p.serverKeepAliveFlag
  | .authenticationMethod => p.authenticationMethod != []
  | .authenticationData => p.authenticationData != []
  | .requestProblemInfo => p.requestProblemInfoFlag
  | .willDelayInterval => p.willDelayInterval > 0
  | .requestResponseInfo => p.requestResponseInfo > 0
  | .responseInfo => mods.allowResponseInfo && p.responseInfo != []
  | .serverReference => p.serverReference != []
  | .reasonString =>
    !mods.disallowProblemInfo && p.reasonString != [] &&
      mods.fits n (encodeString p.reasonString).length
  | .receiveMaximum => p.receiveMaximum > 0
  | .topicAliasMaximum => p.topicAliasMaximum > 0
  | .topicAlias => p.topicAliasFlag && p.topicAlias > 0
  | .maximumQos => p.maximumQosFlag && p.maximumQos < 2
  | .retainAvailable => p.retainAvailableFlag
  | .user => !mods.disallowProblemInfo && mods.fits n p.userBytes.length
  | .maximumPacketSize => p.maximumPacketSize > 0
  | .wildcardSubAvailable => p.wildcardSubAvailableFlag
  | .subIDAvailable => p.subIDAvailableFlag
  | .sharedSubAvailable => p.sharedSubAvailableFlag

@[grind =] def Properties.valueBytes (p : Properties) : PropertyKey → Bytes
  | .payloadFormat => [p.payloadFormat]
  | .messageExpiryInterval => encodeUint32 p.messageExpiryInterval
  | .contentType => encodeString p.contentType
  | .responseTopic => encodeString p.responseTopic
  | .correlationData => encodeBytes p.correlationData
  | .sessionExpiryInterval => encodeUint32 p.sessionExpiryInterval
  | .assignedClientID => encodeString p.assignedClientID
  | .serverKeepAlive => encodeUint16 p.serverKeepAlive
  | .authenticationMethod => encodeString p.authenticationMethod
  | .authenticationData => encodeBytes p.authenticationData
  | .requestProblemInfo => [p.requestProblemInfo]
  | .willDelayInterval => encodeUint32 p.willDelayInterval
  | .requestResponseInfo => [p.requestResponseInfo]
  | .responseInfo => encodeString p.responseInfo
  | .serverReference => encodeString p.serverReference
  | .reasonString => encodeString p.reasonString
  | .receiveMaximum => encodeUint16 p.receiveMaximum
  | .topicAliasMaximum => encodeUint16 p.topicAliasMaximum
  | .topicAlias => encodeUint16 p.topicAlias
  | .maximumQos => [p.maximumQos]
  | .retainAvailable => [p.retainAvailable]
  | .maximumPacketSize => encodeUint32 p.maximumPacketSize
  | .wildcardSubAvailable => [p.wildcardSubAvailable]
  | .subIDAvailable => [p.subIDAvailable]
  | .sharedSubAvailable => [p.sharedSubAvailable]
  | .subscriptionIdentifier => []
  | .user => []

/-- What the encoder writes for one property: nothing, the property with its identifier, or
for the repeatable ones each value with the identifier. -/
@[grind =] def Properties.encodeProperty (p : Properties) (pkt : PacketType) (mods : Mods) (n : ℕ)
    (k : PropertyKey) : Bytes :=
  if canEncode pkt k && p.written mods n k then
    match k with
    | .subscriptionIdentifier => p.identifierBytes
    | .user => p.userBytes
    | k => k.toByte :: p.valueBytes k
  else []

@[grind =] def propertyOrder : List PropertyKey :=
  [.payloadFormat, .messageExpiryInterval, .contentType, .responseTopic, .correlationData,
    .subscriptionIdentifier, .sessionExpiryInterval, .assignedClientID, .serverKeepAlive,
    .authenticationMethod, .authenticationData, .requestProblemInfo, .willDelayInterval,
    .requestResponseInfo, .responseInfo, .serverReference, .reasonString, .receiveMaximum,
    .topicAliasMaximum, .topicAlias, .maximumQos, .retainAvailable, .user, .maximumPacketSize,
    .wildcardSubAvailable, .subIDAvailable, .sharedSubAvailable]

/-- The properties of a packet, in its own order, without their length. -/
def Properties.encodeAll (p : Properties) (pkt : PacketType) (mods : Mods) (n : ℕ) : Bytes :=
  propertyOrder.flatMap (p.encodeProperty pkt mods n)

@[grind =] def Properties.encode (p : Properties) (pkt : PacketType) (mods : Mods) (n : ℕ) : Bytes :=
  encodeLength (p.encodeAll pkt mods n).length ++ p.encodeAll pkt mods n

@[grind =] def Properties.hasPublishProperties (p : Properties) : Bool :=
  p.payloadFormatFlag || p.messageExpiryInterval > 0 || p.contentType != [] ||
    p.responseTopic != [] || p.correlationData != [] || !p.subscriptionIdentifier.isEmpty ||
    (p.topicAliasFlag && p.topicAlias > 0) || !p.user.isEmpty

inductive EncodeError
  | protocolViolationNoPacketID
  deriving DecidableEq, Repr

abbrev Encoded := Except EncodeError Bytes

def FixedHeader.flagByte (fh : FixedHeader) : UInt8 :=
  fh.type.toByte <<< 4 ||| encodeBool fh.dup <<< 3 ||| fh.qos <<< 1 ||| encodeBool fh.retain

@[grind =] def FixedHeader.encode (fh : FixedHeader) : Bytes := fh.flagByte :: encodeLength fh.remaining

@[grind =] def Packet.frame (pk : Packet) (body : Bytes) : Bytes :=
  { pk.fixedHeader with remaining := body.length }.encode ++ body

@[grind =] def Packet.encodeProperties (pk : Packet) (n : ℕ) : Bytes :=
  if pk.protocolVersion = 5 then pk.properties.encode pk.fixedHeader.type pk.mods n else []

def ConnectParams.flagByte (c : ConnectParams) : UInt8 :=
  encodeBool c.clean <<< 1 ||| encodeBool c.willFlag <<< 2 ||| c.willQos <<< 3 |||
    encodeBool c.willRetain <<< 5 ||| encodeBool c.passwordFlag <<< 6 |||
    encodeBool c.usernameFlag <<< 7

def Packet.encodeWill (pk : Packet) : Bytes :=
  if pk.connect.willFlag then
    (if pk.protocolVersion = 5 then
      pk.connect.willProperties.encode .willProperties pk.mods 0 else []) ++
      encodeString pk.connect.willTopic ++ encodeBytes pk.connect.willPayload
  else []

def Packet.connectBody (pk : Packet) : Bytes :=
  encodeBytes pk.connect.protocolName ++ [pk.protocolVersion, pk.connect.flagByte] ++
    encodeUint16 pk.connect.keepalive ++ pk.encodeProperties 0 ++
    encodeString pk.connect.clientIdentifier ++ pk.encodeWill ++
    (if pk.connect.usernameFlag then encodeBytes pk.connect.username else []) ++
    (if pk.connect.passwordFlag then encodeBytes pk.connect.password else [])

def Packet.connectEncode (pk : Packet) : Encoded := .ok (pk.frame pk.connectBody)

def Packet.connackEncode (pk : Packet) : Encoded :=
  .ok (pk.frame ([encodeBool pk.sessionPresent, pk.reasonCode] ++ pk.encodeProperties 4))

def Packet.disconnectEncode (pk : Packet) : Encoded :=
  .ok (pk.frame (if pk.protocolVersion = 5 then pk.reasonCode :: pk.encodeProperties 1 else []))

def Packet.pingreqEncode (pk : Packet) : Encoded := .ok pk.fixedHeader.encode

def Packet.pingrespEncode (pk : Packet) : Encoded := .ok pk.fixedHeader.encode

@[grind =] def Packet.publishStart (pk : Packet) : Bytes :=
  encodeString pk.topicName ++ if pk.fixedHeader.qos > 0 then encodeUint16 pk.packetID else []

def Packet.publishEncode (pk : Packet) : Encoded :=
  if pk.fixedHeader.qos > 0 ∧ pk.packetID = 0 then .error .protocolViolationNoPacketID
  else if pk.protocolVersion ≠ 5 ∨ !pk.properties.hasPublishProperties then
    .ok (pk.frame (pk.publishStart ++ (if pk.protocolVersion = 5 then [0] else []) ++ pk.payload))
  else
    .ok (pk.frame (pk.publishStart ++
      pk.properties.encode pk.fixedHeader.type pk.mods
        (pk.publishStart.length + pk.payload.length) ++ pk.payload))

/-- The reason code and the properties of an acknowledgement that is not cut short. -/
def Packet.ackTail (pk : Packet) : Bytes :=
  (if pk.reasonCode ≥ 0x80 ∨ (pk.encodeProperties 2).length > 1 then [pk.reasonCode] else []) ++
    (if (pk.encodeProperties 2).length > 1 then pk.encodeProperties 2 else [])

def Packet.encodePubAckRelRecComp (pk : Packet) : Encoded :=
  if pk.protocolVersion ≠ 5 ∨
      (pk.reasonCode < 0x80 ∧ pk.properties.reasonString = [] ∧ pk.properties.user.length = 0) then
    .ok (pk.frame (encodeUint16 pk.packetID))
  else .ok (pk.frame (encodeUint16 pk.packetID ++ pk.ackTail))

def Packet.pubackEncode (pk : Packet) : Encoded := pk.encodePubAckRelRecComp

def Packet.pubcompEncode (pk : Packet) : Encoded := pk.encodePubAckRelRecComp

def Packet.pubrecEncode (pk : Packet) : Encoded := pk.encodePubAckRelRecComp

def Packet.pubrelEncode (pk : Packet) : Encoded := pk.encodePubAckRelRecComp

def Packet.subackEncode (pk : Packet) : Encoded :=
  .ok (pk.frame (encodeUint16 pk.packetID ++ pk.encodeProperties (2 + pk.reasonCodes.length) ++
    pk.reasonCodes))

def Subscription.encodeOptions (s : Subscription) : UInt8 :=
  s.qos ||| encodeBool s.noLocal <<< 2 ||| encodeBool s.retainAsPublished <<< 3 |||
    s.retainHandling <<< 4

@[grind =] def Subscription.encode (version : UInt8) (s : Subscription) : Bytes :=
  encodeString s.filter ++ [if version = 5 then s.encodeOptions else s.qos]

def Packet.subscribeEncode (pk : Packet) : Encoded :=
  if pk.packetID = 0 then .error .protocolViolationNoPacketID
  else
    let xb := pk.filters.flatMap (Subscription.encode pk.protocolVersion)
    .ok (pk.frame (encodeUint16 pk.packetID ++ pk.encodeProperties (2 + xb.length) ++ xb))

def Packet.unsubackEncode (pk : Packet) : Encoded :=
  .ok (pk.frame (encodeUint16 pk.packetID ++
    if pk.protocolVersion = 5 then pk.encodeProperties 2 ++ pk.reasonCodes else []))

def Packet.unsubscribeEncode (pk : Packet) : Encoded :=
  if pk.packetID = 0 then .error .protocolViolationNoPacketID
  else
    let xb := pk.filters.flatMap fun s => encodeString s.filter
    .ok (pk.frame (encodeUint16 pk.packetID ++ pk.encodeProperties (2 + xb.length) ++ xb))

def Packet.authEncode (pk : Packet) : Encoded :=
  .ok (pk.frame (pk.reasonCode :: pk.properties.encode pk.fixedHeader.type pk.mods 1))

def Packet.encodeAs (t : FrameType) (pk : Packet) : Encoded :=
  match t with
  | .connect => pk.connectEncode
  | .connack => pk.connackEncode
  | .publish => pk.publishEncode
  | .puback => pk.pubackEncode
  | .pubrec => pk.pubrecEncode
  | .pubrel => pk.pubrelEncode
  | .pubcomp => pk.pubcompEncode
  | .subscribe => pk.subscribeEncode
  | .suback => pk.subackEncode
  | .unsubscribe => pk.unsubscribeEncode
  | .unsuback => pk.unsubackEncode
  | .pingreq => pk.pingreqEncode
  | .pingresp => pk.pingrespEncode
  | .disconnect => pk.disconnectEncode
  | .auth => pk.authEncode

def FrameType.ofNibble : UInt8 → Option FrameType
  | 1 => some .connect
  | 2 => some .connack
  | 3 => some .publish
  | 4 => some .puback
  | 5 => some .pubrec
  | 6 => some .pubrel
  | 7 => some .pubcomp
  | 8 => some .subscribe
  | 9 => some .suback
  | 10 => some .unsubscribe
  | 11 => some .unsuback
  | 12 => some .pingreq
  | 13 => some .pingresp
  | 14 => some .disconnect
  | 15 => some .auth
  | _ => none

/-- `FixedHeader.Decode`: the packet type and the flags of the first byte. -/
def FixedHeader.decode (hb : UInt8) : Decoded (FrameType × FixedHeader) :=
  match FrameType.ofNibble (hb >>> 4) with
  | none =>
    if bit hb 0 || bit hb 1 || bit hb 2 || bit hb 3 then fail .malformedFlags
    else fail .invalidPacketType
  | some .publish =>
    if bit hb 1 && bit hb 2 then fail .protocolViolationQosOutOfRange
    else
      let fh : FixedHeader :=
        { type := .publish, dup := bit hb 3, qos := (hb >>> 1) &&& 3, retain := bit hb 0 }
      if fh.qos = 0 ∧ fh.dup then fail .protocolViolationDupNoQos else return (.publish, fh)
  | some t =>
    if t = .pubrel ∨ t = .subscribe ∨ t = .unsubscribe then
      if bit hb 0 || !bit hb 1 || bit hb 2 || bit hb 3 then fail .malformedFlags
      else return (t, { type := t.toPacketType, qos := (hb >>> 1) &&& 3 })
    else if bit hb 0 || bit hb 1 || bit hb 2 || bit hb 3 then fail .malformedFlags
    else return (t, { type := t.toPacketType })

/-- `ReadFixedHeader` and `ReadPacket`: the packet at the head of the bytes received, and the
bytes after it. -/
def readFrame (version : UInt8) (received : Bytes) : Decoded (Packet × Bytes) :=
  match received with
  | [] => fail .eof
  | hb :: rest => do
    let (t, fh) ← FixedHeader.decode hb
    let (n, bu) ← decodeLength rest
    if (rest.drop bu).length < n then fail .eof
    else do
      let body ← slice (rest.drop bu) 0 n
      let pk ← (newPacket { fh with remaining := n } version).decodeAs t body
      return (pk, (rest.drop bu).drop n)

end MonsterMQ.Packets
