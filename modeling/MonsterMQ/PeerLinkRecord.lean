import MonsterMQ.Utf8

/-!
# PeerLink records

The record format of `internal/peerlink/wire/record.go`: a header of 44 bytes with eight lengths in it, then
topic, client id, username, properties and payload.
-/

namespace MonsterMQ.PeerLink

open LittleEndian

def recordVersion : UInt8 := 1
@[grind =] def recordHeaderLen : ℕ := 44
def tombstoneLen : ℕ := recordHeaderLen
@[grind =] def tlvHeaderLen : ℕ := 5
def maxStringLen : ℕ := 65535
@[grind =] def maxUint32 : ℕ := 2 ^ 32 - 1
def maxInt : ℕ := 2 ^ 63 - 1

def flagQoSMask : UInt16 := 0x0003
def flagPayloadFormat : UInt16 := 0x0080
def flagSkipped : UInt16 := 0x0200

@[grind =] def propContentType : UInt8 := 0x03
def propResponseTopic : UInt8 := 0x08
@[grind =] def propCorrelationData : UInt8 := 0x09
def propUserProperty : UInt8 := 0x26

/-- The per-record content errors of `DecodeRecord`. -/
inductive MalformedError where
  | recordTruncated
  | headerShort
  | version
  | hdrLen
  | invariant
  | qos
  | topic
  | clientID
  | username
  | tlv
  | propString
  | propLen
  | userProp
  deriving DecidableEq, Repr

structure UserProperty where
  key : Bytes
  val : Bytes
  deriving DecidableEq, Repr

structure Record where
  flags : UInt16
  publishWallNs : Int64
  captureMonoMs : UInt64
  expirySec : UInt32
  payloadFormat : UInt8
  topic : Bytes
  clientID : Bytes
  username : Bytes
  contentType : Bytes
  responseTopic : Bytes
  correlationData : Bytes
  user : List UserProperty
  payload : Bytes

def validTopicBytes (b : Bytes) : Bool :=
  b.length ≠ 0 && b.length ≤ maxStringLen &&
    b.all (fun c => c ≠ 0 && c ≠ '+'.toUInt8 && c ≠ '#'.toUInt8) && Utf8.valid b

def validStringBytes (b : Bytes) : Bool :=
  b.length ≤ maxStringLen && b.all (fun c => c ≠ 0) && Utf8.valid b

/-- `ValidTopic` and `ValidString` apply the same rules to a string. -/
@[grind =] def validTopic (s : Bytes) : Bool := validTopicBytes s

@[grind =] def validString (s : Bytes) : Bool := validStringBytes s

@[grind =] def Record.validContent (r : Record) : Bool :=
  validTopic r.topic && validString r.clientID && validStringBytes r.username &&
    validString r.contentType && validString r.responseTopic &&
    r.correlationData.length ≤ maxStringLen &&
    r.user.all (fun u => validString u.key && validString u.val)

/-- The bytes of one property, absent when the value is empty. -/
@[grind =] def tlvSize (l : ℕ) : ℕ := if l > 0 then tlvHeaderLen + l else 0

/-- `propsSize`, `none` when a value does not fit. -/
def propsSize (r : Record) : Option ℕ :=
  if r.contentType.length > maxStringLen then none
  else if r.responseTopic.length > maxStringLen then none
  else if r.correlationData.length > maxStringLen then none
  else if r.user.any (fun u => u.key.length > maxStringLen || u.val.length > maxStringLen) then none
  else
    let n := tlvSize r.contentType.length + tlvSize r.responseTopic.length +
      tlvSize r.correlationData.length +
      (r.user.map (fun u => tlvHeaderLen + 2 + u.key.length + u.val.length)).sum
    if n ≤ maxUint32 then some n else none

@[grind =] def recordSize (r : Record) : ℕ :=
  if r.topic.length > maxStringLen || r.clientID.length > maxStringLen ||
      r.username.length > maxStringLen then 0
  else match propsSize r with
    | none => 0
    | some props =>
      let total := recordHeaderLen + r.topic.length + r.clientID.length + r.username.length + props +
        r.payload.length
      if total - 4 > maxUint32 || total > maxInt then 0 else total

@[grind =] def putTLV (id : UInt8) (v : Bytes) : Bytes :=
  if v.length = 0 then [] else id :: put32 (UInt32.ofNat v.length) ++ v

@[grind =] def putUserProperty (u : UserProperty) : Bytes :=
  propUserProperty :: put32 (UInt32.ofNat (2 + u.key.length + u.val.length)) ++
    put16 (UInt16.ofNat u.key.length) ++ u.key ++ u.val

@[grind =] def putProps (r : Record) : Bytes :=
  putTLV propContentType r.contentType ++ putTLV propResponseTopic r.responseTopic ++
    putTLV propCorrelationData r.correlationData ++ r.user.flatMap putUserProperty

@[grind =] def encodeRecord (r : Record) : Bytes :=
  let props := (propsSize r).getD 0
  let size := recordHeaderLen + r.topic.length + r.clientID.length + r.username.length + props +
    r.payload.length
  put32 (UInt32.ofNat (size - 4)) ++ [recordVersion, UInt8.ofNat recordHeaderLen] ++ put16 r.flags ++
    put64 r.publishWallNs.toUInt64 ++ put64 r.captureMonoMs ++ put32 r.expirySec ++
    [r.payloadFormat, 0] ++ put16 (UInt16.ofNat r.topic.length) ++
    put16 (UInt16.ofNat r.clientID.length) ++ put16 (UInt16.ofNat r.username.length) ++
    put32 (UInt32.ofNat props) ++ put32 (UInt32.ofNat r.payload.length) ++
    r.topic ++ r.clientID ++ r.username ++ (if props > 0 then putProps r else []) ++ r.payload

@[grind =] def appendRecord (r : Record) : Bytes := if recordSize r = 0 then [] else encodeRecord r

/-- `PutTombstone`: the flags of `orig` plus `FlagSkipped`, its times, expiry and payload
format, and no variable part. -/
def putTombstone (orig : Bytes) : Bytes :=
  let flags := if orig.length ≥ recordHeaderLen then flagSkipped ||| get16 (orig.drop 6) else flagSkipped
  let times := if orig.length ≥ recordHeaderLen then (orig.drop 8).take 21 else List.replicate 21 0
  put32 (UInt32.ofNat (tombstoneLen - 4)) ++ [recordVersion, UInt8.ofNat recordHeaderLen] ++
    put16 flags ++ times ++ List.replicate 15 0

@[grind =] def propNext (b : Bytes) : Option (UInt8 × Bytes × Bytes) :=
  match b with
  | [] => none
  | id :: rest =>
    if b.length < tlvHeaderLen then none
    else
      let l := (get32 rest).toNat
      if tlvHeaderLen + l > b.length then none
      else some (id, (b.drop tlvHeaderLen).take l, b.drop (tlvHeaderLen + l))

theorem propNext_length {b val rest : Bytes} {id : UInt8} (h : propNext b = some (id, val, rest)) :
    rest.length < b.length := by
  unfold propNext at h
  split at h
  · cases h
  · split at h
    · cases h
    · simp only at h
      split at h
      · cases h
      · cases h
        simp only [List.length_drop, List.length_cons, tlvHeaderLen]
        omega

@[grind =] def splitUserProperty (val : Bytes) : Option (Bytes × Bytes) :=
  if val.length < 2 then none
  else
    let k := (get16 val).toNat
    if 2 + k > val.length then none
    else some ((val.drop 2).take k, val.drop (2 + k))

@[grind =] def checkProp (id : UInt8) (val : Bytes) : Option (Option MalformedError) :=
  if id = propContentType ∨ id = propResponseTopic then
    some (if val.length > maxStringLen then some .propLen
      else if !validStringBytes val then some .propString else none)
  else if id = propCorrelationData then
    some (if val.length > maxStringLen then some .propLen else none)
  else if id = propUserProperty then
    some (match splitUserProperty val with
      | none => some .userProp
      | some (k, uv) =>
        if uv.length > maxStringLen then some .propLen
        else if !validStringBytes k || !validStringBytes uv then some .propString
        else none)
  else none

@[grind =] def validateLoop (unknown : ℕ) (b : Bytes) : ℕ × Option MalformedError :=
  if b.length = 0 then (unknown, none)
  else match _hnext : propNext b with
    | none => (unknown, some .tlv)
    | some (id, val, rest) =>
      match checkProp id val with
      | none => validateLoop (unknown + 1) rest
      | some (some e) => (unknown, some e)
      | some none => validateLoop unknown rest
termination_by b.length
decreasing_by
  all_goals exact propNext_length _hnext

def validateProps (block : Bytes) : ℕ × Option MalformedError := validateLoop 0 block

structure Properties where
  messageExpiryInterval : UInt32
  payloadFormat : UInt8
  payloadFormatFlag : Bool
  contentType : Bytes
  responseTopic : Bytes
  correlationData : Bytes
  user : List UserProperty
  deriving DecidableEq, Repr

@[grind =] def Properties.zero : Properties := ⟨0, 0, false, [], [], [], []⟩

@[grind =] def Properties.put (p : Properties) (id : UInt8) (val : Bytes) : Properties :=
  if id = propContentType then { p with contentType := val }
  else if id = propResponseTopic then { p with responseTopic := val }
  else if id = propCorrelationData then { p with correlationData := val }
  else if id = propUserProperty then
    match splitUserProperty val with
    | some (k, uv) => { p with user := p.user ++ [⟨k, uv⟩] }
    | none => p
  else p

@[grind =] def Properties.collect (p : Properties) (b : Bytes) : Properties :=
  match _hnext : propNext b with
  | none => p
  | some (id, val, rest) => Properties.collect (p.put id val) rest
termination_by b.length
decreasing_by exact propNext_length _hnext

structure RecordView where
  frame : Bytes
  version : UInt8
  hdrLen : UInt8
  flags : UInt16
  publishWallNs : Int64
  captureMonoMs : UInt64
  expirySec : UInt32
  payloadFormat : UInt8
  topic : Bytes
  clientID : Bytes
  username : Bytes
  props : Bytes
  payload : Bytes
  unknownProps : ℕ

namespace RecordView

def zero : RecordView := ⟨[], 0, 0, 0, 0, 0, 0, 0, [], [], [], [], [], 0⟩

def hasPayloadFormat (v : RecordView) : Bool := v.flags &&& flagPayloadFormat ≠ 0

@[grind =] def properties (v : RecordView) (p : Properties) : Properties :=
  let p := { p with messageExpiryInterval := v.expirySec }
  let p := if v.hasPayloadFormat then
    { p with payloadFormat := v.payloadFormat, payloadFormatFlag := true } else p
  p.collect v.props

def record (v : RecordView) : Record :=
  let p := v.properties Properties.zero
  { flags := v.flags
    publishWallNs := v.publishWallNs
    captureMonoMs := v.captureMonoMs
    expirySec := v.expirySec
    payloadFormat := v.payloadFormat
    topic := v.topic
    clientID := v.clientID
    username := v.username
    contentType := p.contentType
    responseTopic := p.responseTopic
    correlationData := p.correlationData
    user := p.user
    payload := v.payload }

end RecordView

@[grind =] def decodeHeader (b : Bytes) : RecordView :=
  { RecordView.zero with
    frame := b
    version := b.getD 4 0
    hdrLen := b.getD 5 0
    flags := get16 (b.drop 6)
    publishWallNs := (get64 (b.drop 8)).toInt64
    captureMonoMs := get64 (b.drop 16)
    expirySec := get32 (b.drop 24)
    payloadFormat := b.getD 28 0 }

/-- The content checks of `DecodeRecord`, which a tombstone bypasses. -/
@[grind =] def checkContent (v : RecordView) : RecordView × Option MalformedError :=
  if v.flags &&& flagQoSMask = 3 then (v, some .qos)
  else if v.flags &&& flagSkipped ≠ 0 then (v, none)
  else if !validTopicBytes v.topic then (v, some .topic)
  else if !validStringBytes v.clientID then (v, some .clientID)
  else if !validStringBytes v.username then (v, some .username)
  else
    let (unknown, err) := validateProps v.props
    ({ v with unknownProps := unknown }, err)

/-- `DecodeRecord`. On an error the fields decoded so far stay set. -/
@[grind =] def decodeRecord (frame : Bytes) : RecordView × Option MalformedError :=
  if frame.length < 4 then (RecordView.zero, some .recordTruncated)
  else
    let n := 4 + (get32 frame).toNat
    if n > frame.length then (RecordView.zero, some .recordTruncated)
    else
      let b := frame.take n
      if b.length < recordHeaderLen then ({ RecordView.zero with frame := b }, some .headerShort)
      else
        let v := decodeHeader b
        if v.version ≠ recordVersion then (v, some .version)
        else
          let hdr := v.hdrLen.toNat
          if hdr < recordHeaderLen then (v, some .hdrLen)
          else
            let tl := (get16 (b.drop 30)).toNat
            let cl := (get16 (b.drop 32)).toNat
            let ul := (get16 (b.drop 34)).toNat
            let pr := (get32 (b.drop 36)).toNat
            let pl := (get32 (b.drop 40)).toNat
            if hdr + tl + cl + ul + pr + pl ≠ n then
              if hdr > n then (v, some .hdrLen) else (v, some .invariant)
            else
              checkContent
                { v with
                  topic := (b.drop hdr).take tl
                  clientID := (b.drop (hdr + tl)).take cl
                  username := (b.drop (hdr + tl + cl)).take ul
                  props := (b.drop (hdr + tl + cl + ul)).take pr
                  payload := b.drop (hdr + tl + cl + ul + pr) }

end MonsterMQ.PeerLink
