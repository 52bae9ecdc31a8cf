import MonsterMQ.CheckedReads
import MonsterMQ.KafkaWire

/-!
# Record sets

`DecodeRecords` of `internal/kafka/wire/records.go` reads the record set of a produce request: batches of
the second version, or a set of legacy messages that may hold a compressed set.
-/

namespace MonsterMQ.Kafka

open LittleEndian CheckedReads

structure Record where
  key : Option Bytes
  value : Bytes
  deriving DecidableEq, Repr

inductive RecordError where
  | unexpectedMagic (magic : UInt8)
  | unsupportedCodec (codec : ℕ)
  | gzip
  | record (i : ℕ) (e : ReadError)
  | message (e : ReadError)
  | nested
  deriving DecidableEq, Repr

abbrev DecodedSet := Read RecordError (List Record)

@[grind =] def maxDecompressed : ℕ := 64 * 2 ^ 20

@[grind =] def uint (b : Bytes) : ℕ := get b.reverse

@[grind =] def addRecord (out : List Record) (key val : Option Bytes) : List Record :=
  if (val.getD []).length > 0 then out ++ [⟨key, val.getD []⟩] else out

/-- The fields of a record of a batch; a key of length zero is no null key. -/
def decodeRecord (rec : Bytes) : Option Bytes × Option Bytes × Option ReadError :=
  let rr := Reader.new rec
  let (_, rr) := rr.int8
  let (_, rr) := rr.varlong
  let (_, rr) := rr.varint
  let (kl, rr) := rr.varint
  let (key, rr) := if kl ≥ 0 then
      let (key, rr) := rr.raw kl
      (some (key.getD []), rr)
    else (none, rr)
  let (vl, rr) := rr.varint
  let (val, rr) := if vl ≥ 0 then rr.raw vl else (none, rr)
  (key, val, rr.err)

/-- The loop over the records of a batch, for at most `count` more. -/
@[grind =] def decodeBody : ℕ → ℕ → Reader → List Record → DecodedSet
  | 0, _, _, out => .ok out
  | count + 1, i, r, out =>
    if r.remaining > 0 then
      let (n, r) := r.varint
      let (rec, r) := r.raw n
      if r.err.isSome ∨ n ≤ 0 then fail (.record i .short)
      else
        let (key, val, err) := decodeRecord (rec.getD [])
        match err with
        | some e => fail (.record i e)
        | none => decodeBody count (i + 1) r (addRecord out key val)
    else .ok out

section Decompression

variable (inflate : Bytes → Option Bytes)

/-- `inflate` is what `compress/gzip` reads until the end of its stream. -/
@[grind =] def gunzip (p : Bytes) : Read RecordError Bytes :=
  match inflate p with
  | none => fail .gzip
  | some out => if out.length > maxDecompressed then fail .gzip else .ok out

@[grind =] def decompress (codec : ℕ) (body : Bytes) : Read RecordError Bytes :=
  if codec = 0 then .ok body
  else if codec = 1 then gunzip inflate body
  else fail (.unsupportedCodec codec)

@[grind =] def decodeBatches : ℕ → Bytes → List Record → DecodedSet
  | 0, _, _ => .error .diverges
  | fuel + 1, set, out =>
    if set.length ≥ 61 then do
      let batchLen := signed 32 (uint (← slice set 8 12))
      if batchLen < 49 ∨ 12 + batchLen > set.length then return out
      let batch ← slice set 12 (12 + batchLen.toNat)
      let set ← sliceFrom set (12 + batchLen.toNat)
      let magic ← index batch 4
      if magic ≠ 2 then fail (.unexpectedMagic magic)
      let attrs ← slice batch 9 11
      let count ← slice batch 45 49
      let body ← decompress inflate (uint attrs % 8) (← sliceFrom batch 49)
      let out ← decodeBody (signed 32 (uint count)).toNat 0 (Reader.new body) out
      decodeBatches fuel set out
    else return out

/-- The loop over the messages of a legacy set; `wrapped` reads a compressed set inside. -/
@[grind =]
def decodeMessages (wrapped : Bytes → List Record → DecodedSet) : ℕ → Reader → List Record → DecodedSet
  | 0, _, _ => .error .diverges
  | fuel + 1, r, out =>
    if r.remaining ≥ 12 then do
      let (_, r) := r.int64
      let (size, r) := r.int32
      if size ≤ 0 ∨ size > r.remaining then return out
      let (m, r) := r.raw size
      let m := Reader.new (m.getD [])
      let (_, m) := m.int32
      let (magic, m) := m.int8
      let (attrs, m) := m.int8
      let m := if magic = 1 then m.int64.2 else m
      let (key, m) := m.bytes
      let (val, m) := m.bytes
      match m.err with
      | some e => fail (.message e)
      | none =>
        if attrs % 4 = 0 then decodeMessages wrapped fuel r (addRecord out key val)
        else if attrs % 4 = 1 then do
          let out ← wrapped (val.getD []) out
          decodeMessages wrapped fuel r out
        else fail (.unsupportedCodec (attrs % 4).toNat)
    else return out

def decodeInner (set : Bytes) (out : List Record) : DecodedSet :=
  decodeMessages (fun _ _ => fail .nested) (set.length + 1) (Reader.new set) out

def decodeLegacy (set : Bytes) (out : List Record) : DecodedSet :=
  decodeMessages (fun val out => do decodeInner (← gunzip inflate val) out)
    (set.length + 1) (Reader.new set) out

@[grind =] def decodeRecords (set : Bytes) : DecodedSet :=
  if set.length ≥ 17 ∧ set[16]? = some 2 then decodeBatches inflate (set.length + 1) set []
  else decodeLegacy inflate set []

end Decompression

structure MessageV0 where
  offset : ℤ
  key : Option Bytes
  value : Option Bytes
  deriving DecidableEq, Repr

def checksumIEEE (p : Bytes) : ℕ :=
  let shift (crc : ℕ) : ℕ := if crc % 2 = 1 then (crc / 2) ^^^ 0xEDB88320 else crc / 2
  (p.foldl (fun crc b => shift (shift (shift (shift (shift (shift (shift (shift
    (crc ^^^ b.toNat))))))))) 0xFFFFFFFF) ^^^ 0xFFFFFFFF

@[grind =] def encodeMessageV0 (e : MessageV0) : Bytes :=
  let body := putInt 1 0 ++ putInt 1 0 ++ putBytes32 e.key ++ putBytes32 e.value
  putInt 8 e.offset ++ putInt 4 (4 + body.length) ++ putInt 4 (checksumIEEE body) ++ body

def encodeMessageSetV0 (entries : List MessageV0) : Bytes := entries.flatMap encodeMessageV0

end MonsterMQ.Kafka
