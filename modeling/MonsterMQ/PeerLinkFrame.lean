import MonsterMQ.PeerLinkRecord

/-!
# PeerLink frames

The frames of `internal/peerlink/wire/frame.go`: eleven bodies behind a length and a
type byte, their encoders and decoders, the reader that delimits them, and the batch
prefix that the serve path writes apart from the records.
-/

namespace MonsterMQ.PeerLink

open LittleEndian

@[grind =] def frameHeaderLen : ℕ := 5
def batchHeaderLen : ℕ := 68
def batchPrefixLen : ℕ := frameHeaderLen + batchHeaderLen
@[grind =] def batchCRCCovered : ℕ := batchHeaderLen - 4
def minRecordFrame : ℕ := 4
@[grind =] def interestEntryOverhead : ℕ := 7
def readChunk : ℕ := 65536

abbrev FrameType := UInt8

def frameServerHello : FrameType := 0x01
def frameHello : FrameType := 0x02
def frameHelloOK : FrameType := 0x03
def frameGoAway : FrameType := 0x04
def frameFetch : FrameType := 0x10
def frameBatch : FrameType := 0x11
def frameCommit : FrameType := 0x12
def framePing : FrameType := 0x13
def framePong : FrameType := 0x14
def frameInterestSnapshot : FrameType := 0x20
def frameInterestDelta : FrameType := 0x21

def batchFlagCRC : UInt16 := 0x0004
def batchFlagSparse : UInt16 := 0x0040

inductive FrameError where
  | eof
  | unexpectedEOF
  | frameTooLarge
  | frameEmpty
  | shortFrame
  | unknownFrame
  | batchRecords
  | batchCountRange
  | batchSparse
  | interestCount
  deriving DecidableEq, Repr

def runeStart (b : UInt8) : Bool := b &&& 0xC0 ≠ 0x80

/-- The loop of `truncUTF8`: back to the start of a rune. -/
def truncAt (s : Bytes) : ℕ → ℕ
  | 0 => 0
  | i + 1 => if runeStart (s.getD (i + 1) 0) then i + 1 else truncAt s i

@[grind =] def truncUTF8 (s : Bytes) (max : ℕ) : Bytes :=
  if s.length ≤ max then s else s.take (truncAt s max)

@[grind =] def appendStr8 (s : Bytes) : Bytes :=
  let s := truncUTF8 s 0xff
  UInt8.ofNat s.length :: s

@[grind =] def appendStr16 (s : Bytes) : Bytes :=
  let s := truncUTF8 s 0xffff
  put16 (UInt16.ofNat s.length) ++ s

structure Bytes32 where
  bytes : Bytes
  length_eq : bytes.length = 32
  deriving DecidableEq

def Bytes32.zero : Bytes32 := ⟨List.replicate 32 0, List.length_replicate⟩

/-- The rest of a body; a read past its end sets `short` and yields zero values. -/
structure Dec where
  b : Bytes
  short : Bool
  deriving DecidableEq

namespace Dec

def take (d : Dec) (n : ℕ) : Option Bytes × Dec :=
  if d.short || d.b.length < n then (none, { d with short := true })
  else (some (d.b.take n), { d with b := d.b.drop n })

def read {α : Type} (n : ℕ) (f : Bytes → α) (zero : α) (d : Dec) : α × Dec :=
  match d.take n with
  | (some v, d) => (f v, d)
  | (none, d) => (zero, d)

def u8 (d : Dec) : UInt8 × Dec := d.read 1 (fun v => v.headD 0) 0
def u16 (d : Dec) : UInt16 × Dec := d.read 2 get16 0
def u32 (d : Dec) : UInt32 × Dec := d.read 4 get32 0
def u64 (d : Dec) : UInt64 × Dec := d.read 8 get64 0

def arr32 (d : Dec) : Bytes32 × Dec :=
  d.read 32 (fun v => if h : v.length = 32 then ⟨v, h⟩ else Bytes32.zero) Bytes32.zero

def str8 (d : Dec) : Bytes × Dec :=
  let (n, d) := d.u8
  d.read n.toNat id []

def str16 (d : Dec) : Bytes × Dec :=
  let (n, d) := d.u16
  d.read n.toNat id []

/-- A body that ends before the pair comes from an older peer. -/
def brokerInfo (d : Dec) : (Bytes × Bytes) × Dec :=
  if d.short || d.b.length = 0 then (([], []), d)
  else
    let (typ, d) := d.str8
    let (version, d) := d.str8
    ((typ, version), d)

def result {α : Type} (d : Dec) (m : α) : Except FrameError α :=
  if d.short then .error .shortFrame else .ok m

end Dec

structure ServerHello where
  versionMajor : UInt16
  versionMinor : UInt16
  capabilities : UInt64
  authModes : UInt8
  nonceS : Bytes32
  deriving DecidableEq

@[grind =] def ServerHello.body (m : ServerHello) : Bytes :=
  put16 m.versionMajor ++ put16 m.versionMinor ++ put64 m.capabilities ++ [m.authModes] ++ m.nonceS.bytes

@[grind =] def ServerHello.decode (body : Bytes) : Except FrameError ServerHello :=
  let d : Dec := ⟨body, false⟩
  let (versionMajor, d) := d.u16
  let (versionMinor, d) := d.u16
  let (capabilities, d) := d.u64
  let (authModes, d) := d.u8
  let (nonceS, d) := d.arr32
  d.result ⟨versionMajor, versionMinor, capabilities, authModes, nonceS⟩

structure Hello where
  flags : UInt16
  capabilities : UInt64
  instanceID : UInt64
  lastEpoch : UInt64
  resumeOffset : UInt64
  lastSeenLeo : UInt64
  maxRecordBytes : UInt32
  retainedClass : UInt8
  nonceC : Bytes32
  mac : Bytes32
  consumerNodeID : Bytes
  expectedSourceNodeID : Bytes
  topicRoot : Bytes
  oaSystem : Bytes
  brokerType : Bytes
  brokerVersion : Bytes
  deriving DecidableEq

@[grind =] def Hello.body (m : Hello) : Bytes :=
  put16 m.flags ++ put64 m.capabilities ++ put64 m.instanceID ++ put64 m.lastEpoch ++
    put64 m.resumeOffset ++ put64 m.lastSeenLeo ++ put32 m.maxRecordBytes ++ [m.retainedClass] ++
    m.nonceC.bytes ++ m.mac.bytes ++ appendStr8 m.consumerNodeID ++
    appendStr8 m.expectedSourceNodeID ++ appendStr16 m.topicRoot ++ appendStr8 m.oaSystem ++
    appendStr8 m.brokerType ++ appendStr8 m.brokerVersion

@[grind =] def Hello.decode (body : Bytes) : Except FrameError Hello :=
  let d : Dec := ⟨body, false⟩
  let (flags, d) := d.u16
  let (capabilities, d) := d.u64
  let (instanceID, d) := d.u64
  let (lastEpoch, d) := d.u64
  let (resumeOffset, d) := d.u64
  let (lastSeenLeo, d) := d.u64
  let (maxRecordBytes, d) := d.u32
  let (retainedClass, d) := d.u8
  let (nonceC, d) := d.arr32
  let (mac, d) := d.arr32
  let (consumerNodeID, d) := d.str8
  let (expectedSourceNodeID, d) := d.str8
  let (topicRoot, d) := d.str16
  let (oaSystem, d) := d.str8
  let ((brokerType, brokerVersion), d) := d.brokerInfo
  d.result ⟨flags, capabilities, instanceID, lastEpoch, resumeOffset, lastSeenLeo, maxRecordBytes,
    retainedClass, nonceC, mac, consumerNodeID, expectedSourceNodeID, topicRoot, oaSystem, brokerType,
    brokerVersion⟩

structure HelloOK where
  flags : UInt16
  capabilities : UInt64
  epoch : UInt64
  resumeAt : UInt64
  logStart : UInt64
  leo : UInt64
  committed : UInt64
  lostOnResume : UInt64
  wallNowMs : Int64
  monoNowMs : UInt64
  maxRecordBytes : UInt32
  retainedClass : UInt8
  macS : Bytes32
  sourceNodeID : Bytes
  topicRoot : Bytes
  oaSystem : Bytes
  brokerType : Bytes
  brokerVersion : Bytes
  deriving DecidableEq

@[grind =] def HelloOK.body (m : HelloOK) : Bytes :=
  put16 m.flags ++ put64 m.capabilities ++ put64 m.epoch ++ put64 m.resumeAt ++ put64 m.logStart ++
    put64 m.leo ++ put64 m.committed ++ put64 m.lostOnResume ++ put64 m.wallNowMs.toUInt64 ++
    put64 m.monoNowMs ++ put32 m.maxRecordBytes ++ [m.retainedClass] ++ m.macS.bytes ++
    appendStr8 m.sourceNodeID ++ appendStr16 m.topicRoot ++ appendStr8 m.oaSystem ++
    appendStr8 m.brokerType ++ appendStr8 m.brokerVersion

@[grind =] def HelloOK.decode (body : Bytes) : Except FrameError HelloOK :=
  let d : Dec := ⟨body, false⟩
  let (flags, d) := d.u16
  let (capabilities, d) := d.u64
  let (epoch, d) := d.u64
  let (resumeAt, d) := d.u64
  let (logStart, d) := d.u64
  let (leo, d) := d.u64
  let (committed, d) := d.u64
  let (lostOnResume, d) := d.u64
  let (wallNowMs, d) := d.u64
  let (monoNowMs, d) := d.u64
  let (maxRecordBytes, d) := d.u32
  let (retainedClass, d) := d.u8
  let (macS, d) := d.arr32
  let (sourceNodeID, d) := d.str8
  let (topicRoot, d) := d.str16
  let (oaSystem, d) := d.str8
  let ((brokerType, brokerVersion), d) := d.brokerInfo
  d.result ⟨flags, capabilities, epoch, resumeAt, logStart, leo, committed, lostOnResume,
    wallNowMs.toInt64, monoNowMs, maxRecordBytes, retainedClass, macS, sourceNodeID, topicRoot, oaSystem,
    brokerType, brokerVersion⟩

structure GoAway where
  code : UInt16
  reason : Bytes
  deriving DecidableEq

@[grind =] def GoAway.body (m : GoAway) : Bytes := put16 m.code ++ appendStr16 m.reason

@[grind =] def GoAway.decode (body : Bytes) : Except FrameError GoAway :=
  let d : Dec := ⟨body, false⟩
  let (code, d) := d.u16
  let (reason, d) := d.str16
  d.result ⟨code, reason⟩

structure Fetch where
  fetchID : UInt32
  flags : UInt16
  lingerMs : UInt16
  offset : UInt64
  commit : UInt64
  maxRecords : UInt32
  maxBytes : UInt32
  minRecords : UInt32
  maxWaitMs : UInt32
  deriving DecidableEq

@[grind =] def Fetch.body (m : Fetch) : Bytes :=
  put32 m.fetchID ++ put16 m.flags ++ put16 m.lingerMs ++ put64 m.offset ++ put64 m.commit ++
    put32 m.maxRecords ++ put32 m.maxBytes ++ put32 m.minRecords ++ put32 m.maxWaitMs

@[grind =] def Fetch.decode (body : Bytes) : Except FrameError Fetch :=
  let d : Dec := ⟨body, false⟩
  let (fetchID, d) := d.u32
  let (flags, d) := d.u16
  let (lingerMs, d) := d.u16
  let (offset, d) := d.u64
  let (commit, d) := d.u64
  let (maxRecords, d) := d.u32
  let (maxBytes, d) := d.u32
  let (minRecords, d) := d.u32
  let (maxWaitMs, d) := d.u32
  d.result ⟨fetchID, flags, lingerMs, offset, commit, maxRecords, maxBytes, minRecords, maxWaitMs⟩

def decodeWord (body : Bytes) : Except FrameError UInt64 :=
  let d : Dec := ⟨body, false⟩
  let (word, d) := d.u64
  d.result word

structure BatchHeader where
  fetchID : UInt32
  flags : UInt16
  reserved : UInt16
  baseOffset : UInt64
  count : UInt32
  recordsBytes : UInt32
  logStart : UInt64
  leo : UInt64
  lost : UInt64
  sourceMonoMs : UInt64
  sourceWallMs : Int64
  crc32c : UInt32
  deriving DecidableEq

namespace BatchHeader

@[grind =] def putCovered (h : BatchHeader) : Bytes :=
  put32 h.fetchID ++ put16 h.flags ++ put16 h.reserved ++ put64 h.baseOffset ++ put32 h.count ++
    put32 h.recordsBytes ++ put64 h.logStart ++ put64 h.leo ++ put64 h.lost ++ put64 h.sourceMonoMs ++
    put64 h.sourceWallMs.toUInt64

@[grind =] def put (h : BatchHeader) : Bytes := h.putCovered ++ put32 h.crc32c

def parse (b : Bytes) : BatchHeader where
  fetchID := get32 b
  flags := get16 (b.drop 4)
  reserved := get16 (b.drop 6)
  baseOffset := get64 (b.drop 8)
  count := get32 (b.drop 16)
  recordsBytes := get32 (b.drop 20)
  logStart := get64 (b.drop 24)
  leo := get64 (b.drop 32)
  lost := get64 (b.drop 40)
  sourceMonoMs := get64 (b.drop 48)
  sourceWallMs := (get64 (b.drop 56)).toInt64
  crc32c := get32 (b.drop 64)

def isSparse (h : BatchHeader) : Bool := h.flags &&& batchFlagSparse ≠ 0

end BatchHeader

def sparseTableLen (count : ℕ) : ℕ := 4 + 4 * count

def BatchHeader.sparseLen (h : BatchHeader) : UInt32 :=
  if h.isSparse then UInt32.ofNat (sparseTableLen h.count.toNat) else 0

/-- `EncodeBatchPrefix`: the sum of the lengths is taken in 32 bits. -/
@[grind =] def encodeBatchPrefix (h : BatchHeader) : Bytes :=
  put32 (UInt32.ofNat (1 + batchHeaderLen) + h.sparseLen + h.recordsBytes) ++ [frameBatch] ++ h.put

@[grind =] def appendSparseTable (span : UInt32) (deltas : List UInt32) : Bytes :=
  put32 span ++ deltas.flatMap put32

def crcShift (crc : UInt32) : ℕ → UInt32
  | 0 => crc
  | n + 1 => crcShift (if crc &&& 1 = 1 then (crc >>> 1) ^^^ 0x82f63b78 else crc >>> 1) n

def crcStep (crc : UInt32) (b : UInt8) : UInt32 :=
  crcShift ((crc ^^^ b.toUInt32) &&& 0xff) 8 ^^^ (crc >>> 8)

@[grind =] def crcUpdate (crc : UInt32) (p : Bytes) : UInt32 := ~~~ (p.foldl crcStep (~~~ crc))

def batchCRC (encoded sparse : Bytes) (records : List Bytes) : UInt32 :=
  let crc := crcUpdate 0 ((encoded.drop frameHeaderLen).take batchCRCCovered)
  let crc := crcUpdate crc sparse
  records.foldl crcUpdate crc

def setBatchCRC (encoded sparse : Bytes) (records : List Bytes) : Bytes :=
  encoded.take (batchPrefixLen - 4) ++ put32 (batchCRC encoded sparse records)

/-- BATCH. `sparse` is the raw table, `raw` the received header bytes. -/
structure BatchFrame where
  header : BatchHeader
  records : Bytes
  sparse : Option Bytes
  raw : Option Bytes
  deriving DecidableEq

namespace BatchFrame

@[grind =] def body (m : BatchFrame) : Bytes := m.header.put ++ m.sparse.getD [] ++ m.records

@[grind =] def span (m : BatchFrame) : UInt32 :=
  match m.sparse with
  | none => m.header.count
  | some table => get32 table

def delta (m : BatchFrame) (i : ℕ) : UInt32 :=
  match m.sparse with
  | none => UInt32.ofNat i
  | some table => get32 (table.drop (4 + 4 * i))

def checkDeltas (m : BatchFrame) (prev : ℤ) (i : ℕ) : ℕ → Bool
  | 0 => true
  | n + 1 =>
    let d := ((m.delta i).toNat : ℤ)
    if d ≤ prev ∨ d ≥ (m.span.toNat : ℤ) then false else checkDeltas m d (i + 1) n

def checkSparse (m : BatchFrame) : Except FrameError BatchFrame :=
  if m.span = 0 ∨ m.span < m.header.count then .error .batchSparse
  else if m.checkDeltas (-1) 0 m.header.count.toNat then .ok m
  else .error .batchSparse

def decode (body : Bytes) : Except FrameError BatchFrame :=
  if body.length < batchHeaderLen then .error .shortFrame
  else
    let header := BatchHeader.parse body
    let tableEnd := batchHeaderLen + sparseTableLen header.count.toNat
    if header.isSparse && tableEnd > body.length then .error .batchSparse
    else
      let sparse := if header.isSparse then
        some ((body.drop batchHeaderLen).take (sparseTableLen header.count.toNat)) else none
      let start := if header.isSparse then tableEnd else batchHeaderLen
      let last := start + header.recordsBytes.toNat
      if last > body.length then .error .batchRecords
      else
        let m : BatchFrame :=
          ⟨header, (body.drop start).take header.recordsBytes.toNat, sparse,
            some (body.take batchHeaderLen)⟩
        if header.count.toNat * minRecordFrame > header.recordsBytes.toNat then .error .batchCountRange
        else if sparse.isSome then m.checkSparse else .ok m

def computeCRC (m : BatchFrame) : UInt32 :=
  let hb := m.raw.getD m.header.put
  let crc := crcUpdate 0 (hb.take batchCRCCovered)
  let crc := crcUpdate crc (m.sparse.getD [])
  crcUpdate crc m.records

def crcValid (m : BatchFrame) : Bool :=
  m.header.flags &&& batchFlagCRC = 0 || m.computeCRC = m.header.crc32c

end BatchFrame

structure InterestEntry where
  cls : UInt8
  expirySec : UInt32
  filter : Bytes
  deriving DecidableEq, Repr

@[grind =]
def InterestEntry.bytes (e : InterestEntry) : Bytes := [e.cls] ++ put32 e.expirySec ++ appendStr16 e.filter

def appendInterestEntries (es : List InterestEntry) : Bytes :=
  put32 (UInt32.ofNat es.length) ++ es.flatMap InterestEntry.bytes

def interestLoop (d : Dec) : ℕ → Except FrameError (List InterestEntry × Dec)
  | 0 => .ok ([], d)
  | n + 1 =>
    let (cls, d) := d.u8
    let (expirySec, d) := d.u32
    let (filter, d) := d.str16
    if d.short then .error .interestCount
    else match interestLoop d n with
      | .error e => .error e
      | .ok (es, d) => .ok (⟨cls, expirySec, filter⟩ :: es, d)

def decodeInterestEntries (d : Dec) : Except FrameError (List InterestEntry) :=
  let (n, d) := d.u32
  if d.short then .error .shortFrame
  else if n.toNat * interestEntryOverhead > d.b.length then .error .interestCount
  else match interestLoop d n.toNat with
    | .error e => .error e
    | .ok (es, d) => if d.b.length ≠ 0 then .error .interestCount else .ok es

structure InterestSnapshot where
  generation : UInt32
  flags : UInt8
  entries : List InterestEntry
  deriving DecidableEq

@[grind =] def InterestSnapshot.body (m : InterestSnapshot) : Bytes :=
  put32 m.generation ++ [m.flags] ++ appendInterestEntries m.entries

@[grind =] def InterestSnapshot.decode (body : Bytes) : Except FrameError InterestSnapshot :=
  let d : Dec := ⟨body, false⟩
  let (generation, d) := d.u32
  let (flags, d) := d.u8
  (decodeInterestEntries d).map (fun es => ⟨generation, flags, es⟩)

structure InterestDelta where
  generation : UInt32
  entries : List InterestEntry
  deriving DecidableEq

@[grind =] def InterestDelta.body (m : InterestDelta) : Bytes :=
  put32 m.generation ++ appendInterestEntries m.entries

@[grind =] def InterestDelta.decode (body : Bytes) : Except FrameError InterestDelta :=
  let d : Dec := ⟨body, false⟩
  let (generation, d) := d.u32
  (decodeInterestEntries d).map (fun es => ⟨generation, es⟩)

inductive Frame where
  | serverHello (m : ServerHello)
  | hello (m : Hello)
  | helloOK (m : HelloOK)
  | goAway (m : GoAway)
  | fetch (m : Fetch)
  | batch (m : BatchFrame)
  | commit (word : UInt64)
  | ping (token : UInt64)
  | pong (token : UInt64)
  | interestSnapshot (m : InterestSnapshot)
  | interestDelta (m : InterestDelta)
  deriving DecidableEq

namespace Frame

@[grind =] def type : Frame → FrameType
  | .serverHello _ => frameServerHello
  | .hello _ => frameHello
  | .helloOK _ => frameHelloOK
  | .goAway _ => frameGoAway
  | .fetch _ => frameFetch
  | .batch _ => frameBatch
  | .commit _ => frameCommit
  | .ping _ => framePing
  | .pong _ => framePong
  | .interestSnapshot _ => frameInterestSnapshot
  | .interestDelta _ => frameInterestDelta

@[grind =] def body : Frame → Bytes
  | .serverHello m => m.body
  | .hello m => m.body
  | .helloOK m => m.body
  | .goAway m => m.body
  | .fetch m => m.body
  | .batch m => m.body
  | .commit word => put64 word
  | .ping token => put64 token
  | .pong token => put64 token
  | .interestSnapshot m => m.body
  | .interestDelta m => m.body

end Frame

@[grind =] def wrapFrame (t : FrameType) (body : Bytes) : Bytes :=
  put32 (UInt32.ofNat (1 + body.length)) ++ [t] ++ body

@[grind =] def appendFrame (f : Frame) : Bytes := wrapFrame f.type f.body

def decodeFrame (t : FrameType) (body : Bytes) : Except FrameError Frame :=
  if t = frameServerHello then (ServerHello.decode body).map .serverHello
  else if t = frameHello then (Hello.decode body).map .hello
  else if t = frameHelloOK then (HelloOK.decode body).map .helloOK
  else if t = frameGoAway then (GoAway.decode body).map .goAway
  else if t = frameFetch then (Fetch.decode body).map .fetch
  else if t = frameBatch then (BatchFrame.decode body).map .batch
  else if t = frameCommit then (decodeWord body).map .commit
  else if t = framePing then (decodeWord body).map .ping
  else if t = framePong then (decodeWord body).map .pong
  else if t = frameInterestSnapshot then (InterestSnapshot.decode body).map .interestSnapshot
  else if t = frameInterestDelta then (InterestDelta.decode body).map .interestDelta
  else .error .unknownFrame

def readHeader (max : UInt32) (stream : Bytes) : Except FrameError (FrameType × ℕ × Bytes) :=
  if stream.length = 0 then .error .eof
  else if stream.length < frameHeaderLen then .error .unexpectedEOF
  else
    let n := get32 stream
    if n = 0 then .error .frameEmpty
    else if n > max then .error .frameTooLarge
    else .ok (stream.getD 4 0, n.toNat - 1, stream.drop frameHeaderLen)

def readBody (n : ℕ) (stream : Bytes) : Except FrameError (Bytes × Bytes) :=
  if _h : n = 0 then .ok ([], stream)
  else
    let c := min n readChunk
    if stream.length < c then .error .unexpectedEOF
    else match readBody (n - c) (stream.drop c) with
      | .error e => .error e
      | .ok (rest, stream') => .ok (stream.take c ++ rest, stream')
termination_by n
decreasing_by
  simp only [readChunk]
  omega

def readFrame (max : UInt32) (stream : Bytes) : Except FrameError (FrameType × Bytes × Bytes) :=
  match readHeader max stream with
  | .error e => .error e
  | .ok (t, n, stream) =>
    match readBody n stream with
    | .error e => .error e
    | .ok (body, stream) => .ok (t, body, stream)

def readFrames (max : UInt32) : ℕ → Bytes → Except FrameError (List Frame × Bytes)
  | 0, stream => .ok ([], stream)
  | n + 1, stream =>
    match readFrame max stream with
    | .error e => .error e
    | .ok (t, body, stream) =>
      match decodeFrame t body with
      | .error e => .error e
      | .ok f =>
        match readFrames max n stream with
        | .error e => .error e
        | .ok (fs, stream) => .ok (f :: fs, stream)

end MonsterMQ.PeerLink
