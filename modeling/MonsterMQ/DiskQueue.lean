import MonsterMQ.ByteFiles

/-!
# The disk queue

`internal/queue/disk.go`: messages in a circular file of fixed size, behind a header with the read and the
write position.
-/

namespace MonsterMQ.Queue

open LittleEndian ByteFiles

/-- `encoding/json` for messages, as far as a text keeps them. -/
structure Codec (Msg : Type) where
  marshal : Msg → Option Bytes
  unmarshal : Bytes → Option Msg
  unmarshal_marshal : ∀ m data, marshal m = some data → unmarshal data = some m
  marshal_ne_nil : ∀ m data, marshal m = some data → data ≠ []

def diskHeaderSize : ℕ := 8

def diskBytesPerMessage : ℕ := 2048

structure DiskQueue (Msg : Type) where
  file : Bytes
  fileSize : ℕ
  blockSize : ℕ
  readPos : ℕ
  writePos : ℕ
  queueFull : Bool
  outputBlock : List Msg
  deriving DecidableEq, Repr

namespace DiskQueue

variable {Msg : Type} (codec : Codec Msg)

def writeUint32At (q : DiskQueue Msg) (offset value : ℕ) : DiskQueue Msg :=
  { q with file := writeAt q.file offset (putUint32 value) }

def readUint32At (file : Bytes) (offset : ℕ) : Option ℕ :=
  if offset + 4 ≤ file.length then some (getUint32 (readAt file offset 4)) else none

def writeReadPosition (q : DiskQueue Msg) : DiskQueue Msg := q.writeUint32At 0 q.readPos

def writeWritePosition (q : DiskQueue Msg) : DiskQueue Msg := q.writeUint32At 4 q.writePos

def writeHeader (q : DiskQueue Msg) : DiskQueue Msg := q.writeReadPosition.writeWritePosition

def readHeader (q : DiskQueue Msg) : DiskQueue Msg :=
  let readPos := getUint32 (readAt q.file 0 4)
  let writePos := getUint32 (readAt q.file 4 4)
  if readPos < diskHeaderSize ∨ readPos ≥ q.fileSize ∨ writePos < diskHeaderSize ∨
      writePos ≥ q.fileSize then
    writeHeader { q with readPos := diskHeaderSize, writePos := diskHeaderSize }
  else
    { q with readPos := readPos, writePos := writePos }

def truncate (file : Bytes) (size : ℕ) : Bytes :=
  file.take size ++ List.replicate (size - file.length) 0

/-- `NewDiskQueue` on a file with this content; a file that does not exist is empty. -/
def newDiskQueue (file : Bytes) (queueSize blockSize : ℤ) : DiskQueue Msg :=
  let queueSize := if queueSize ≤ 0 then 5000 else queueSize.toNat
  let blockSize := if blockSize ≤ 0 ∨ blockSize > queueSize then min 100 queueSize
    else blockSize.toNat
  let q : DiskQueue Msg := {
    file := file
    fileSize := queueSize * diskBytesPerMessage
    blockSize := blockSize
    readPos := diskHeaderSize
    writePos := diskHeaderSize
    queueFull := false
    outputBlock := [] }
  if file.length ≠ q.fileSize then writeHeader { q with file := truncate file q.fileSize }
  else readHeader q

/-- `sizeLocked`, an estimate from the positions. -/
def size (q : DiskQueue Msg) : ℕ :=
  if q.readPos ≤ q.writePos then (q.writePos - q.readPos) / diskBytesPerMessage
  else (q.fileSize - diskHeaderSize - (q.readPos - q.writePos)) / diskBytesPerMessage

/-- The marker and the step back to the start, when a record of this size does not fit. -/
def wrap (q : DiskQueue Msg) (dataSize : ℕ) : DiskQueue Msg :=
  if q.writePos + dataSize > q.fileSize then
    { q.writeUint32At q.writePos 0 with writePos := diskHeaderSize }
  else q

def writeRecord (q : DiskQueue Msg) (data : Bytes) : DiskQueue Msg :=
  let q := q.writeUint32At q.writePos data.length
  let q := { q with file := writeAt q.file (q.writePos + 4) data }
  let q := { q with writePos := q.writePos + (data.length + 4) }
  q.writeWritePosition

def enqueue (q : DiskQueue Msg) (m : Msg) : Bool × DiskQueue Msg :=
  match codec.marshal m with
  | none => (false, q)
  | some data =>
    let dataSize := data.length + 4
    if dataSize > q.fileSize - diskHeaderSize then (false, q)
    else
      let q := q.wrap dataSize
      if q.writePos < q.readPos ∧ q.writePos + dataSize ≥ q.readPos then (false, q)
      else if q.writePos = q.readPos ∧ q.size > 0 then (false, q)
      else (true, q.writeRecord data)

/-- `Add`, and whether the message was accepted. -/
def add (q : DiskQueue Msg) (m : Msg) : Bool × DiskQueue Msg :=
  let (ok, q) := q.enqueue codec m
  (ok, { q with queueFull := !ok })

inductive DequeueError where
  | empty
  | unexpectedEOF
  | invalidJSON
  deriving DecidableEq, Repr

/-- The record at the read position, of the size that was read there. -/
def take (q : DiskQueue Msg) (dataSize : ℕ) : Except DequeueError Msg × DiskQueue Msg :=
  let found := readAt q.file (q.readPos + 4) dataSize
  -- the rest of the buffer stays zero when the file ends before
  match codec.unmarshal (found ++ List.replicate (dataSize - found.length) 0) with
  | none => (.error .invalidJSON, q)
  | some m => (.ok m, { q with readPos := q.readPos + dataSize + 4 })

@[grind =] def dequeue (q : DiskQueue Msg) : Except DequeueError Msg × DiskQueue Msg :=
  if q.readPos = q.writePos then (.error .empty, q)
  else match readUint32At q.file q.readPos with
    | none => (.error .unexpectedEOF, q)
    | some dataSize =>
      if dataSize = 0 then
        let q := { q with readPos := diskHeaderSize }
        if q.writePos = diskHeaderSize then (.error .empty, q)
        else match readUint32At q.file q.readPos with
          | none => (.error .unexpectedEOF, q)
          | some dataSize => q.take codec dataSize
      else q.take codec dataSize

/-- The loop of `PollBlock` after its first message. -/
def pollMore : ℕ → DiskQueue Msg → DiskQueue Msg
  | 0, q => q
  | n + 1, q =>
    match q.dequeue codec with
    | (.ok m, q) => pollMore n { q with outputBlock := q.outputBlock ++ [m] }
    | (.error _, q) => q

def pollFrom (q : DiskQueue Msg) (m : Msg) : DiskQueue Msg :=
  pollMore codec (q.blockSize - 1) { q with outputBlock := q.outputBlock ++ [m] }

/-- `PollBlock`: the block that it hands out is the output block after it. An empty queue is tried
again after a while. -/
def pollBlock (q : DiskQueue Msg) : DiskQueue Msg :=
  if q.outputBlock ≠ [] then q
  else match q.dequeue codec with
    | (.ok m, q) => q.pollFrom codec m
    | (.error .empty, q) =>
      match q.dequeue codec with
      | (.ok m, q) => q.pollFrom codec m
      | (.error _, q) => q
    | (.error _, q) => q

def pollCommit (q : DiskQueue Msg) : DiskQueue Msg :=
  { q with outputBlock := [] }.writeReadPosition

end DiskQueue

end MonsterMQ.Queue
