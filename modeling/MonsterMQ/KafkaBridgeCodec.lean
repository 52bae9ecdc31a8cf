import MonsterMQ.AuthAcl

/-!
# The codec of the Kafka bridge

`codec.go` of `internal/bridge/kafkaclient`: `EncodeWire` and `DecodeWire` in the layout of Core's
`BrokerMessageCodec`, and the conversions from and to the messages of the broker.
-/

namespace MonsterMQ.KafkaBridge

open LittleEndian

structure UserProperty where
  key : Bytes
  value : Bytes
  deriving DecidableEq, Repr

structure PeerForward where
  sourceNode : Bytes
  clientID : Bytes
  username : Option Bytes
  timeNs : Int64
  epoch : Int64
  offset : Int64
  dup : Bool
  will : Bool
  snapshot : Bool
  deriving DecidableEq

/-- Pointers and slices that may be nil are options; a time is its number of milliseconds. -/
structure WireMessage where
  messageUUID : Bytes
  messageID : Int32
  topicName : Bytes
  payload : Option Bytes
  qoS : ℤ
  isRetain : Bool
  isDup : Bool
  isQueued : Bool
  clientID : Bytes
  time : Int64
  originNode : Option Bytes
  senderID : Option Bytes
  messageExpiryInterval : Option Int64
  payloadFormatIndicator : Option Int32
  contentType : Option Bytes
  responseTopic : Option Bytes
  correlationData : Option Bytes
  userProperties : Option (List UserProperty)
  hasUserProperties : Bool
  isWill : Bool
  username : Option Bytes
  peerSource : Option Bytes
  peer : Option PeerForward
  deriving DecidableEq

def trailerMagic : Int32 := 0x504C0001

def boolBit (b : Bool) : UInt8 := if b then 1 else 0

def putI32 (v : Int32) : Bytes := (put 4 v.toUInt32.toNat).reverse

def putI64 (v : Int64) : Bytes := (put 8 v.toUInt64.toNat).reverse

def putBytes (b : Bytes) : Bytes := putI32 (Int32.ofNat b.length) ++ b

def putNstr : Option Bytes → Bytes
  | none => putI32 (-1)
  | some s => putBytes s

def statusOf (m : WireMessage) : UInt8 :=
  (m.qoS % 4).toNat.toUInt8 <<< 3 ||| boolBit m.isDup <<< 2 ||| boolBit m.isRetain <<< 1 ||| boolBit m.isQueued

def encodeHead (m : WireMessage) : Bytes :=
  putBytes m.messageUUID ++ (putI32 m.messageID ++ ([statusOf m] ++ (putBytes m.topicName ++ (putBytes m.clientID ++
    (putI64 m.time ++ (putBytes (m.payload.getD []) ++ putNstr m.originNode))))))

def putProperties (ps : List UserProperty) : Bytes := ps.flatMap fun p => putBytes p.key ++ putBytes p.value

def peerFlags (p : PeerForward) : UInt8 := boolBit p.dup <<< 2 ||| boolBit p.will <<< 1 ||| boolBit p.snapshot

def putPeer : Option PeerForward → Bytes
  | none => [0]
  | some p => [1] ++ (putBytes p.sourceNode ++ (putBytes p.clientID ++ (putNstr p.username ++ (putI64 p.timeNs ++
      (putI64 p.epoch ++ (putI64 p.offset ++ [peerFlags p]))))))

def putUserProperties (m : WireMessage) : Bytes :=
  if m.hasUserProperties = false ∧ m.userProperties = none then putI32 (-1)
  else putI32 (Int32.ofNat (m.userProperties.getD []).length) ++ putProperties (m.userProperties.getD [])

def encodeTrailer (m : WireMessage) : Bytes :=
  putNstr m.senderID ++ (putI64 (m.messageExpiryInterval.getD (-1)) ++ (putI32 (m.payloadFormatIndicator.getD (-1)) ++
    (putNstr m.contentType ++ (putNstr m.responseTopic ++ (putNstr m.correlationData ++ (putUserProperties m ++
      ([boolBit m.isWill] ++ (putNstr m.username ++ (putNstr m.peerSource ++ putPeer m.peer)))))))))

def encodeWire (m : WireMessage) : Bytes := encodeHead m ++ (putI32 trailerMagic ++ encodeTrailer m)

inductive CodecError where
  /-- `codec: truncated message at offset %d` -/
  | truncated (pos : ℕ)
  /-- `codec: invalid user property count %d` -/
  | userPropertyCount (n : Int32)
  deriving DecidableEq

/-- The rest of the buffer; `allocated` counts the bytes of the copies and slices it has made. -/
structure WireReader where
  rest : Bytes
  pos : ℕ
  err : Option CodecError
  allocated : ℕ

abbrev Wire (α : Type) := WireReader → α × WireReader

def andThen {α β : Type} (f : Wire α) (g : α → Wire β) : Wire β := fun r => g (f r).1 (f r).2

def ret {α : Type} (a : α) : Wire α := fun r => (a, r)

def takeN (n : ℤ) : Wire (Option Bytes) := fun r =>
  if r.err ≠ none then (none, r)
  else if n < 0 ∨ (r.rest.length : ℤ) < n then (none, { r with err := some (.truncated r.pos) })
  else (some (r.rest.take n.toNat), { r with rest := r.rest.drop n.toNat, pos := r.pos + n.toNat })

def getByte : Wire UInt8 := andThen (takeN 1) fun b => ret ((b.bind List.head?).getD 0)

def getI32 : Wire Int32 := andThen (takeN 4) fun b => ret (b.elim 0 fun b => (UInt32.ofNat (get b.reverse)).toInt32)

def getI64 : Wire Int64 := andThen (takeN 8) fun b => ret (b.elim 0 fun b => (UInt64.ofNat (get b.reverse)).toInt64)

def allocate (n : ℕ) : Wire Unit := fun r => ((), { r with allocated := r.allocated + n })

def raw (n : ℤ) : Wire (Option Bytes) :=
  andThen (takeN n) fun b => andThen (allocate (b.getD []).length) fun _ => ret b

def getBytes : Wire (Option Bytes) := andThen getI32 fun n => raw n.toInt

/-- The conversion to a string copies once more. -/
def toStr (b : Option Bytes) : Wire Bytes := andThen (allocate (b.getD []).length) fun _ => ret (b.getD [])

def getStr : Wire Bytes := andThen getBytes toStr

def hasErr : Wire Bool := fun r => (r.err.isSome, r)

def getNstr : Wire (Option Bytes) :=
  andThen getI32 fun n => andThen hasErr fun e =>
    if n = -1 ∨ e then ret none else andThen (raw n.toInt) fun b => andThen (toStr b) fun s => ret (some s)

def getCorrelation : Wire (Option Bytes) := andThen getI32 fun n => if n = -1 then ret none else raw n.toInt

def getProperties : ℕ → Wire (List UserProperty)
  | 0 => ret []
  | n + 1 => andThen hasErr fun e =>
      if e then ret []
      else andThen getStr fun k => andThen getStr fun v => andThen (getProperties n) fun ps => ret (⟨k, v⟩ :: ps)

/-- What the user properties are: absent, or too many, or a list. -/
inductive Properties where
  | absent
  | invalid (n : Int32)
  | present (ps : List UserProperty)

def getUserProperties : Wire Properties :=
  andThen getI32 fun n =>
    if n = -1 then ret .absent
    else fun r =>
      if n.toInt < 0 ∨ n.toInt > r.rest.length then (.invalid n, r)
      else andThen (allocate (32 * n.toInt.toNat)) (fun _ => andThen (getProperties n.toInt.toNat) fun ps =>
        ret (.present ps)) r

def getPeer : Wire (Option PeerForward) :=
  andThen getByte fun has =>
    if has = 1 then
      andThen getStr fun sourceNode => andThen getStr fun clientID => andThen getNstr fun username =>
      andThen getI64 fun timeNs => andThen getI64 fun epoch => andThen getI64 fun offset =>
      andThen getByte fun flags => ret (some ⟨sourceNode, clientID, username, timeNs, epoch, offset,
        flags &&& 4 ≠ 0, flags &&& 2 ≠ 0, flags &&& 1 ≠ 0⟩)
    else ret none

def decodeHead : Wire WireMessage :=
  andThen getStr fun messageUUID => andThen getI32 fun messageID => andThen getByte fun status =>
  andThen getStr fun topicName => andThen getStr fun clientID => andThen getI64 fun time =>
  andThen getBytes fun payload => andThen getNstr fun originNode => ret
    { messageUUID, messageID, topicName, payload
      qoS := (status >>> 3 &&& 3).toNat
      isRetain := status >>> 1 &&& 1 = 1
      isDup := status >>> 2 &&& 1 = 1
      isQueued := status &&& 1 = 1
      clientID, time, originNode
      senderID := none
      messageExpiryInterval := none
      payloadFormatIndicator := none
      contentType := none
      responseTopic := none
      correlationData := none
      userProperties := none
      hasUserProperties := false
      isWill := false
      username := none
      peerSource := none
      peer := none }

def decodeEnd (m : WireMessage) : Wire WireMessage :=
  andThen getByte fun will => andThen getNstr fun username => andThen getNstr fun peerSource =>
  andThen getPeer fun peer => ret { m with
    isWill := will = 1
    username, peerSource, peer }

/-- The trailer from the user properties on; a wrong number of them ends it. -/
def decodeRest (m : WireMessage) : Properties → Wire (Except CodecError WireMessage)
  | .invalid n => ret (.error (.userPropertyCount n))
  | .absent => andThen (decodeEnd m) fun m => ret (.ok m)
  | .present ps => andThen (decodeEnd { m with
      userProperties := some ps
      hasUserProperties := true }) fun m => ret (.ok m)

def decodeTrailer (m : WireMessage) : Wire (Except CodecError WireMessage) :=
  andThen getNstr fun senderID => andThen getI64 fun expiry => andThen getI32 fun format =>
  andThen getNstr fun contentType => andThen getNstr fun responseTopic =>
  andThen getCorrelation fun correlationData => andThen getUserProperties (decodeRest { m with
    senderID
    messageExpiryInterval := if expiry = -1 then none else some expiry
    payloadFormatIndicator := if format = -1 then none else some format
    contentType, responseTopic, correlationData })

def atTrailer (r : WireReader) : Prop :=
  4 ≤ r.rest.length ∧ UInt32.ofNat (get (r.rest.take 4).reverse) = trailerMagic.toUInt32
deriving Decidable

/-- An error of the reader is returned in the place of the result. -/
def checkErr (p : Except CodecError WireMessage × WireReader) : Except CodecError WireMessage × WireReader :=
  match p.1, p.2.err with
  | .error e, _ => (.error e, p.2)
  | .ok _, some e => (.error e, p.2)
  | .ok m, none => (.ok m, p.2)

def runDecode (b : Bytes) : Except CodecError WireMessage × WireReader :=
  let (m, r) := decodeHead ⟨b, 0, none, 0⟩
  match r.err with
  | some e => (.error e, r)
  | none =>
    if atTrailer r then
      checkErr (decodeTrailer m { r with rest := r.rest.drop 4, pos := r.pos + 4 })
    else (.ok m, r)

def decodeWire (b : Bytes) : Except CodecError WireMessage := (runDecode b).1

structure BrokerMessage where
  messageUUID : Bytes
  messageID : UInt16
  topicName : Bytes
  payload : Option Bytes
  qoS : UInt8
  isRetain : Bool
  isDup : Bool
  isQueued : Bool
  clientID : Bytes
  username : Bytes
  time : Int64
  payloadFormatIndicator : Option UInt8
  messageExpiryInterval : Option UInt32
  contentType : Bytes
  responseTopic : Bytes
  correlationData : Option Bytes
  userProperties : Option (List UserProperty)
  deriving DecidableEq

/-- The value of a key is replaced where it stands, or put at the end. -/
def putProperty (out : List UserProperty) (p : UserProperty) : List UserProperty :=
  if out.any fun q => q.key = p.key then
    out.map fun q => if q.key = p.key then { q with value := p.value } else q
  else out ++ [p]

def userPropertyMap : Option (List UserProperty) → Option (List UserProperty)
  | none => none
  | some ps => if ps.length < 2 then some ps else some (ps.foldl putProperty [])

def nonEmpty (s : Bytes) : Option Bytes := if s = [] then none else some s

/-- `WireFromBroker`, with the identifier and the time that it takes if the message has none. -/
def wireFromBroker (newUUID : Bytes) (now : Int64) (isZero : Bool) (msg : BrokerMessage) : WireMessage where
  messageUUID := if msg.messageUUID = [] then newUUID else msg.messageUUID
  messageID := Int32.ofNat msg.messageID.toNat
  topicName := msg.topicName
  payload := msg.payload
  qoS := msg.qoS.toNat
  isRetain := msg.isRetain
  isDup := msg.isDup
  isQueued := msg.isQueued
  clientID := msg.clientID
  time := if isZero then now else msg.time
  originNode := none
  senderID := some msg.clientID
  messageExpiryInterval := msg.messageExpiryInterval.map fun v => Int64.ofNat v.toNat
  payloadFormatIndicator := msg.payloadFormatIndicator.map fun v => Int32.ofNat v.toNat
  contentType := nonEmpty msg.contentType
  responseTopic := nonEmpty msg.responseTopic
  correlationData := msg.correlationData
  userProperties := userPropertyMap msg.userProperties
  hasUserProperties := false
  isWill := false
  username := nonEmpty msg.username
  peerSource := none
  peer := none

def clampQoS (q : ℤ) : UInt8 := if q < 0 ∨ q > 2 then 0 else q.toNat.toUInt8

def WireMessage.toBroker (w : WireMessage) : BrokerMessage where
  messageUUID := w.messageUUID
  messageID := if 0 ≤ w.messageID.toInt ∧ w.messageID.toInt ≤ 65535 then w.messageID.toInt.toNat.toUInt16 else 0
  topicName := w.topicName
  payload := w.payload
  qoS := clampQoS w.qoS
  isRetain := w.isRetain
  isDup := w.isDup
  isQueued := w.isQueued
  clientID := w.clientID
  username := []
  time := w.time
  payloadFormatIndicator := w.payloadFormatIndicator.bind fun v =>
    if 0 ≤ v.toInt ∧ v.toInt ≤ 255 then some v.toInt.toNat.toUInt8 else none
  messageExpiryInterval := w.messageExpiryInterval.bind fun v =>
    if 0 ≤ v.toInt ∧ v.toInt ≤ 4294967295 then some v.toInt.toNat.toUInt32 else none
  contentType := w.contentType.getD []
  responseTopic := w.responseTopic.getD []
  correlationData := w.correlationData
  userProperties := w.userProperties

end MonsterMQ.KafkaBridge
