import MonsterMQ.PacketCodec

/-!
# MQTT properties

The property table, the record of properties of a packet and its decoder.
-/

namespace MonsterMQ.Packets

open LittleEndian CheckedReads

inductive PacketType
  | reserved
  | connect
  | connack
  | publish
  | puback
  | pubrec
  | pubrel
  | pubcomp
  | subscribe
  | suback
  | unsubscribe
  | unsuback
  | pingreq
  | pingresp
  | disconnect
  | auth
  | willProperties
  deriving DecidableEq, Repr

def PacketType.toByte : PacketType → UInt8
  | .reserved => 0
  | .connect => 1
  | .connack => 2
  | .publish => 3
  | .puback => 4
  | .pubrec => 5
  | .pubrel => 6
  | .pubcomp => 7
  | .subscribe => 8
  | .suback => 9
  | .unsubscribe => 10
  | .unsuback => 11
  | .pingreq => 12
  | .pingresp => 13
  | .disconnect => 14
  | .auth => 15
  | .willProperties => 99

inductive PropertyKey
  | payloadFormat
  | messageExpiryInterval
  | contentType
  | responseTopic
  | correlationData
  | subscriptionIdentifier
  | sessionExpiryInterval
  | assignedClientID
  | serverKeepAlive
  | authenticationMethod
  | authenticationData
  | requestProblemInfo
  | willDelayInterval
  | requestResponseInfo
  | responseInfo
  | serverReference
  | reasonString
  | receiveMaximum
  | topicAliasMaximum
  | topicAlias
  | maximumQos
  | retainAvailable
  | user
  | maximumPacketSize
  | wildcardSubAvailable
  | subIDAvailable
  | sharedSubAvailable
  deriving DecidableEq, Repr

def PropertyKey.toByte : PropertyKey → UInt8
  | .payloadFormat => 1
  | .messageExpiryInterval => 2
  | .contentType => 3
  | .responseTopic => 8
  | .correlationData => 9
  | .subscriptionIdentifier => 11
  | .sessionExpiryInterval => 17
  | .assignedClientID => 18
  | .serverKeepAlive => 19
  | .authenticationMethod => 21
  | .authenticationData => 22
  | .requestProblemInfo => 23
  | .willDelayInterval => 24
  | .requestResponseInfo => 25
  | .responseInfo => 26
  | .serverReference => 28
  | .reasonString => 31
  | .receiveMaximum => 33
  | .topicAliasMaximum => 34
  | .topicAlias => 35
  | .maximumQos => 36
  | .retainAvailable => 37
  | .user => 38
  | .maximumPacketSize => 39
  | .wildcardSubAvailable => 40
  | .subIDAvailable => 41
  | .sharedSubAvailable => 42

def PropertyKey.ofByte : UInt8 → Option PropertyKey
  | 1 => some .payloadFormat
  | 2 => some .messageExpiryInterval
  | 3 => some .contentType
  | 8 => some .responseTopic
  | 9 => some .correlationData
  | 11 => some .subscriptionIdentifier
  | 17 => some .sessionExpiryInterval
  | 18 => some .assignedClientID
  | 19 => some .serverKeepAlive
  | 21 => some .authenticationMethod
  | 22 => some .authenticationData
  | 23 => some .requestProblemInfo
  | 24 => some .willDelayInterval
  | 25 => some .requestResponseInfo
  | 26 => some .responseInfo
  | 28 => some .serverReference
  | 31 => some .reasonString
  | 33 => some .receiveMaximum
  | 34 => some .topicAliasMaximum
  | 35 => some .topicAlias
  | 36 => some .maximumQos
  | 37 => some .retainAvailable
  | 38 => some .user
  | 39 => some .maximumPacketSize
  | 40 => some .wildcardSubAvailable
  | 41 => some .subIDAvailable
  | 42 => some .sharedSubAvailable
  | _ => none

def validPacketProperties : PropertyKey → List PacketType
  | .payloadFormat => [.publish, .willProperties]
  | .messageExpiryInterval => [.publish, .willProperties]
  | .contentType => [.publish, .willProperties]
  | .responseTopic => [.publish, .willProperties]
  | .correlationData => [.publish, .willProperties]
  | .subscriptionIdentifier => [.publish, .subscribe]
  | .sessionExpiryInterval => [.connect, .connack, .disconnect]
  | .assignedClientID => [.connack]
  | .serverKeepAlive => [.connack]
  | .authenticationMethod => [.connect, .connack, .auth]
  | .authenticationData => [.connect, .connack, .auth]
  | .requestProblemInfo => [.connect]
  | .willDelayInterval => [.willProperties]
  | .requestResponseInfo => [.connect]
  | .responseInfo => [.connack]
  | .serverReference => [.connack, .disconnect]
  | .reasonString => [
      .connack, .puback, .pubrec, .pubrel, .pubcomp, .suback, .unsuback, .disconnect, .auth]
  | .receiveMaximum => [.connect, .connack]
  | .topicAliasMaximum => [.connect, .connack]
  | .topicAlias => [.publish]
  | .maximumQos => [.connack]
  | .retainAvailable => [.connack]
  | .user => [
      .connect, .connack, .publish, .puback, .pubrec, .pubrel, .pubcomp, .subscribe, .suback,
      .unsubscribe, .unsuback, .disconnect, .auth, .willProperties]
  | .maximumPacketSize => [.connect, .connack]
  | .wildcardSubAvailable => [.connack]
  | .subIDAvailable => [.connack]
  | .sharedSubAvailable => [.connack]

def canEncode (pkt : PacketType) (k : PropertyKey) : Bool :=
  (validPacketProperties k).contains pkt

structure UserProperty where
  key : Bytes
  val : Bytes
  deriving DecidableEq, Repr

/-- The properties of a packet. A flag tells a value of zero from an absent property. -/
structure Properties where
  correlationData : Bytes := []
  subscriptionIdentifier : List ℕ := []
  authenticationData : Bytes := []
  user : List UserProperty := []
  contentType : Bytes := []
  responseTopic : Bytes := []
  assignedClientID : Bytes := []
  authenticationMethod : Bytes := []
  responseInfo : Bytes := []
  serverReference : Bytes := []
  reasonString : Bytes := []
  messageExpiryInterval : UInt32 := 0
  sessionExpiryInterval : UInt32 := 0
  willDelayInterval : UInt32 := 0
  maximumPacketSize : UInt32 := 0
  serverKeepAlive : UInt16 := 0
  receiveMaximum : UInt16 := 0
  topicAliasMaximum : UInt16 := 0
  topicAlias : UInt16 := 0
  payloadFormat : UInt8 := 0
  payloadFormatFlag : Bool := false
  sessionExpiryIntervalFlag : Bool := false
  serverKeepAliveFlag : Bool := false
  requestProblemInfo : UInt8 := 0
  requestProblemInfoFlag : Bool := false
  requestResponseInfo : UInt8 := 0
  topicAliasFlag : Bool := false
  maximumQos : UInt8 := 0
  maximumQosFlag : Bool := false
  retainAvailable : UInt8 := 0
  retainAvailableFlag : Bool := false
  wildcardSubAvailable : UInt8 := 0
  wildcardSubAvailableFlag : Bool := false
  subIDAvailable : UInt8 := 0
  subIDAvailableFlag : Bool := false
  sharedSubAvailable : UInt8 := 0
  sharedSubAvailableFlag : Bool := false
  deriving DecidableEq, Repr

def store {α β : Type} (f : α → β) (r : Decoded (α × ℕ)) : Decoded (β × ℕ) := do
  let (v, offset) ← r
  return (f v, offset)

@[grind =] def Properties.decodeValue (p : Properties) (bt : Bytes) (offset : ℕ) :
    PropertyKey → Decoded (Properties × ℕ)
  | .payloadFormat =>
    store (fun v => { p with payloadFormat := v, payloadFormatFlag := true })
      (decodeByte bt offset)
  | .messageExpiryInterval =>
    store (fun v => { p with messageExpiryInterval := v }) (decodeUint32 bt offset)
  | .contentType =>
    store (fun v => { p with contentType := v }) (decodeString bt offset)
  | .responseTopic =>
    store (fun v => { p with responseTopic := v }) (decodeString bt offset)
  | .correlationData =>
    store (fun v => { p with correlationData := v }) (decodeBytes bt offset)
  | .subscriptionIdentifier => do
    let b ← sliceFrom bt offset
    let (n, bu) ← decodeLength b
    return ({ p with subscriptionIdentifier := p.subscriptionIdentifier ++ [n] }, offset + bu)
  | .sessionExpiryInterval =>
    store (fun v => { p with sessionExpiryInterval := v, sessionExpiryIntervalFlag := true })
      (decodeUint32 bt offset)
  | .assignedClientID =>
    store (fun v => { p with assignedClientID := v }) (decodeString bt offset)
  | .serverKeepAlive =>
    store (fun v => { p with serverKeepAlive := v, serverKeepAliveFlag := true })
      (decodeUint16 bt offset)
  | .authenticationMethod =>
    store (fun v => { p with authenticationMethod := v }) (decodeString bt offset)
  | .authenticationData =>
    store (fun v => { p with authenticationData := v }) (decodeBytes bt offset)
  | .requestProblemInfo =>
    store (fun v => { p with requestProblemInfo := v, requestProblemInfoFlag := true })
      (decodeByte bt offset)
  | .willDelayInterval =>
    store (fun v => { p with willDelayInterval := v }) (decodeUint32 bt offset)
  | .requestResponseInfo =>
    store (fun v => { p with requestResponseInfo := v }) (decodeByte bt offset)
  | .responseInfo =>
    store (fun v => { p with responseInfo := v }) (decodeString bt offset)
  | .serverReference =>
    store (fun v => { p with serverReference := v }) (decodeString bt offset)
  | .reasonString =>
    store (fun v => { p with reasonString := v }) (decodeString bt offset)
  | .receiveMaximum =>
    store (fun v => { p with receiveMaximum := v }) (decodeUint16 bt offset)
  | .topicAliasMaximum =>
    store (fun v => { p with topicAliasMaximum := v }) (decodeUint16 bt offset)
  | .topicAlias =>
    store (fun v => { p with topicAlias := v, topicAliasFlag := true })
      (decodeUint16 bt offset)
  | .maximumQos =>
    store (fun v => { p with maximumQos := v, maximumQosFlag := true })
      (decodeByte bt offset)
  | .retainAvailable =>
    store (fun v => { p with retainAvailable := v, retainAvailableFlag := true })
      (decodeByte bt offset)
  | .user => do
    let (k, offset) ← decodeString bt offset
    let (v, offset) ← decodeString bt offset
    return ({ p with user := p.user ++ [⟨k, v⟩] }, offset)
  | .maximumPacketSize =>
    store (fun v => { p with maximumPacketSize := v }) (decodeUint32 bt offset)
  | .wildcardSubAvailable =>
    store (fun v => { p with wildcardSubAvailable := v, wildcardSubAvailableFlag := true })
      (decodeByte bt offset)
  | .subIDAvailable =>
    store (fun v => { p with subIDAvailable := v, subIDAvailableFlag := true })
      (decodeByte bt offset)
  | .sharedSubAvailable =>
    store (fun v => { p with sharedSubAvailable := v, sharedSubAvailableFlag := true })
      (decodeByte bt offset)

def containsWildcard (s : Bytes) : Bool := s.contains 0x2B || s.contains 0x23

/-- `validateValue`: the value just decoded is outside the range the specification gives. -/
def Properties.invalidValue (p : Properties) : PropertyKey → Bool
  | .payloadFormat => p.payloadFormat > 1
  | .requestProblemInfo => p.requestProblemInfo > 1
  | .requestResponseInfo => p.requestResponseInfo > 1
  | .receiveMaximum => p.receiveMaximum == 0
  | .maximumPacketSize => p.maximumPacketSize == 0
  | .subscriptionIdentifier => p.subscriptionIdentifier.getLast? == some 0
  | .responseTopic => containsWildcard p.responseTopic
  | _ => false

/-- Only User Properties, and Subscription Identifiers in a PUBLISH, may appear again. -/
@[grind =] def mayRepeat (pkt : PacketType) (k : PropertyKey) : Bool :=
  k == .user || (k == .subscriptionIdentifier && pkt == .publish)

def decodeProperty (pkt : PacketType) (bt : Bytes) (s : Properties × List PropertyKey)
    (offset : ℕ) : Decoded ((Properties × List PropertyKey) × ℕ) := do
  let (k, offset) ← decodeByte bt offset
  match PropertyKey.ofByte k with
  | none => fail (.unsupportedProperty k pkt.toByte)
  | some key =>
    if !(validPacketProperties key).contains pkt then fail (.unsupportedProperty k pkt.toByte)
    else if s.2.contains key && !mayRepeat pkt key then fail (.duplicateProperty k)
    else do
      let (p, offset) ← s.1.decodeValue bt offset key
      if p.invalidValue key then fail (.invalidPropertyValue k)
      else return ((p, key :: s.2), offset)

@[grind =] def Properties.decode (p : Properties) (pkt : PacketType) (b : Bytes) :
    Decoded (Properties × ℕ) := do
  let (n, bu) ← decodeLength b
  if n = 0 then return (p, n + bu)
  else if n > (b.drop bu).length then fail .malformedProperties
  else do
    let bt ← slice (b.drop bu) 0 n
    let s ← readWhile n (decodeProperty pkt bt) n (p, []) 0
    return (s.1, n + bu)

end MonsterMQ.Packets
