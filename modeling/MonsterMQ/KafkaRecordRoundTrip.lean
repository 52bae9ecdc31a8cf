import MonsterMQ.KafkaRecordFrames

/-!
# Standard encodings of record sets

Batches of the second version and legacy messages as clients write them. What the decoder ignores is
arbitrary: offsets, timestamps, checksums, flags and headers.
-/

namespace MonsterMQ.Kafka

open LittleEndian CheckedReads List

namespace Reader

private theorem int_putInt_snd (w : ℕ) (v : ℤ) (t : Bytes) :
    ∃ x, (Reader.mk (putInt w v ++ t) none).int w = (x, ⟨t, none⟩) :=
  ⟨_, int_append (putInt_length w v) t⟩

end Reader

structure BatchRecord where
  attributes : ℤ
  timestampDelta : ℤ
  offsetDelta : ℤ
  key : Option Bytes
  value : Option Bytes
  headers : Bytes
  deriving DecidableEq, Repr

@[grind =] def putVarBytes : Option Bytes → Bytes
  | none => putVarlong (-1)
  | some p => putVarlong p.length ++ p

@[grind =] def encodeFields (r : BatchRecord) : Bytes :=
  putInt 1 r.attributes ++ (putVarlong r.timestampDelta ++ (putVarlong r.offsetDelta ++
    (putVarBytes r.key ++ (putVarBytes r.value ++ r.headers))))

@[grind =] def encodeRecord (r : BatchRecord) : Bytes := putVarlong (encodeFields r).length ++ encodeFields r

structure BatchRecord.Fits (r : BatchRecord) : Prop where
  timestamp : -2 ^ 63 ≤ r.timestampDelta ∧ r.timestampDelta < 2 ^ 63
  offset : -2 ^ 31 ≤ r.offsetDelta ∧ r.offsetDelta < 2 ^ 31
  size : (encodeFields r).length < 2 ^ 31

theorem varBytes_length {p : Option Bytes} {s : Bytes} (h : s ∈ p) : s.length ≤ (putVarBytes p).length := by
  cases h
  rw [putVarBytes, length_append]
  omega

theorem BatchRecord.Fits.key {r : BatchRecord} (h : r.Fits) : ∀ s ∈ r.key, s.length < 2 ^ 31 := by
  intro s hs
  have hlen := varBytes_length hs
  have hsize := h.size
  simp only [encodeFields, length_append] at hsize
  omega

theorem BatchRecord.Fits.value {r : BatchRecord} (h : r.Fits) : ∀ s ∈ r.value, s.length < 2 ^ 31 := by
  intro s hs
  have hlen := varBytes_length hs
  have hsize := h.size
  simp only [encodeFields, length_append] at hsize
  omega

theorem raw_putVarBytes {p : Option Bytes} (h : ∀ s ∈ p, s.length < 2 ^ 31) (t : Bytes) :
    ∃ n r, (Reader.mk (putVarBytes p ++ t) none).varint = (n, r) ∧
      ((p = none ∧ n = -1 ∧ r = ⟨t, none⟩) ∨ ∃ s, p = some s ∧ n ≥ 0 ∧ r.raw n = (some s, ⟨t, none⟩)) := by
  cases p with
  | none => exact ⟨-1, ⟨t, none⟩, Reader.varint_putVarlong (by decide) t, .inl ⟨rfl, rfl, rfl⟩⟩
  | some s =>
    have hs := h s rfl
    refine ⟨s.length, ⟨s ++ t, none⟩, ?_, .inr ⟨s, rfl, by omega, Reader.take_append s t⟩⟩
    rw [putVarBytes, append_assoc]
    exact Reader.varint_putVarlong ⟨by omega, by omega⟩ _

theorem decodeRecord_encodeFields {r : BatchRecord} (h : r.Fits) :
    decodeRecord (encodeFields r) = (r.key, r.value, none) := by
  obtain ⟨x, hattr⟩ := Reader.int_putInt_snd 1 r.attributes (putVarlong r.timestampDelta ++
    (putVarlong r.offsetDelta ++ (putVarBytes r.key ++ (putVarBytes r.value ++ r.headers))))
  obtain ⟨kl, rk, hkl, hkey⟩ := raw_putVarBytes h.key (putVarBytes r.value ++ r.headers)
  obtain ⟨vl, rv, hvl, hvalue⟩ := raw_putVarBytes h.value r.headers
  rw [decodeRecord, Reader.new, encodeFields, Reader.int8, hattr]
  dsimp only
  rw [Reader.varlong_putVarlong h.timestamp]
  dsimp only
  rw [Reader.varint_putVarlong h.offset]
  dsimp only
  rw [hkl]
  dsimp only
  rcases hkey with ⟨hk, rfl, rfl⟩ | ⟨s, hk, hpos, hraw⟩
  · rw [if_neg (by decide)]
    dsimp only
    rw [hvl]
    dsimp only
    rcases hvalue with ⟨hv, rfl, rfl⟩ | ⟨s, hv, hpos, hraw⟩
    · rw [if_neg (by decide), hk, hv]
    · rw [if_pos hpos, hraw, hk, hv]
  · rw [if_pos hpos, hraw]
    dsimp only
    rw [hvl]
    dsimp only
    rcases hvalue with ⟨hv, rfl, rfl⟩ | ⟨s', hv, hpos', hraw'⟩
    · rw [if_neg (by decide), hk, hv]
      rfl
    · rw [if_pos hpos', hraw', hk, hv]
      rfl

theorem encodeFields_pos (r : BatchRecord) : 0 < (encodeFields r).length := by
  rw [encodeFields, length_append, putInt_length]
  omega

def keptRecords (records : List BatchRecord) : List Record := records.flatMap fun r => keep r.key r.value

theorem decodeBody_record {fields rest : Bytes} {key value : Option Bytes} (hpos : 0 < fields.length)
    (hsize : fields.length < 2 ^ 31) (hfields : decodeRecord fields = (key, value, none)) (count i : ℕ)
    (out : List Record) : decodeBody (count + 1) i ⟨putVarlong fields.length ++ (fields ++ rest), none⟩ out =
      decodeBody count (i + 1) ⟨rest, none⟩ (addRecord out key value) := by
  have hmore : (Reader.mk (putVarlong fields.length ++ (fields ++ rest)) none).remaining > 0 := by
    rw [Reader.remaining, length_append, length_append]
    omega
  have hfew : ¬ ((none : Option ReadError).isSome = true ∨ (fields.length : ℤ) ≤ 0) := by
    rintro (hnone | hle)
    · cases hnone
    · omega
  have hlen : (Reader.mk (putVarlong fields.length ++ (fields ++ rest)) none).varint =
      ((fields.length : ℤ), ⟨fields ++ rest, none⟩) :=
    Reader.varint_putVarlong ⟨by omega, by omega⟩ _
  have hraw : (Reader.mk (fields ++ rest) none).raw fields.length = (some fields, ⟨rest, none⟩) :=
    Reader.take_append fields rest
  rw [decodeBody, if_pos hmore, hlen]
  dsimp only
  rw [hraw]
  dsimp only
  rw [if_neg hfew, Option.getD_some]
  rw [hfields]

private theorem decodeBody_encode {records : List BatchRecord} (h : ∀ r ∈ records, r.Fits) (i : ℕ)
    (out : List Record) : decodeBody records.length i ⟨records.flatMap encodeRecord, none⟩ out =
      .ok (out ++ keptRecords records) := by
  induction records generalizing i out with
  | nil =>
    rw [keptRecords, flatMap_nil, flatMap_nil, append_nil]
    rfl
  | cons r records ih =>
    have hr := h r mem_cons_self
    rw [length_cons, flatMap_cons, encodeRecord, append_assoc,
      decodeBody_record (encodeFields_pos r) hr.size (decodeRecord_encodeFields hr),
      ih (fun r' hr' => h r' (mem_cons_of_mem _ hr')), addRecord_eq, keptRecords, keptRecords,
      flatMap_cons, append_assoc]

private theorem length_le_flatMap_encodeRecord (records : List BatchRecord) :
    records.length ≤ (records.flatMap encodeRecord).length := by
  induction records with
  | nil => exact Nat.le_refl 0
  | cons r records ih =>
    have hpos := encodeFields_pos r
    rw [flatMap_cons, length_append, encodeRecord, length_append, length_cons]
    omega

structure Batch where
  baseOffset : ℤ
  partitionLeaderEpoch : ℤ
  crc : ℤ
  flags : ℕ
  lastOffsetDelta : ℤ
  baseTimestamp : ℤ
  maxTimestamp : ℤ
  producerId : ℤ
  producerEpoch : ℤ
  baseSequence : ℤ
  records : List BatchRecord
  gzip : Option Bytes
  deriving DecidableEq, Repr

@[grind =] def Batch.body (b : Batch) : Bytes := b.records.flatMap encodeRecord

@[grind =] def Batch.payload (b : Batch) : Bytes := b.gzip.getD b.body

@[grind =] def Batch.codec (b : Batch) : ℕ := if b.gzip.isSome then 1 else 0

/-- The fields after the length and before the records. -/
@[grind =] def Batch.header (b : Batch) : Bytes :=
  putInt 4 b.partitionLeaderEpoch ++ (2 :: (putInt 4 b.crc ++ (putInt 2 (8 * b.flags + b.codec) ++
    (putInt 4 b.lastOffsetDelta ++ (putInt 8 b.baseTimestamp ++ (putInt 8 b.maxTimestamp ++
      (putInt 8 b.producerId ++ (putInt 2 b.producerEpoch ++ (putInt 4 b.baseSequence ++
        putInt 4 b.records.length)))))))))

@[grind =] def encodeBatch (b : Batch) : Bytes := encodeFrame b.baseOffset (b.header ++ b.payload)

/-- The sizes that a batch can have; a GZIP stream gives the records and stays below the limit. -/
structure Batch.Fits (inflate : Bytes → Option Bytes) (b : Batch) : Prop where
  records : ∀ r ∈ b.records, r.Fits
  size : 49 + b.payload.length < 2 ^ 31
  gzip : ∀ z ∈ b.gzip, inflate z = some b.body ∧ b.body.length ≤ maxDecompressed

theorem Batch.header_length (b : Batch) : b.header.length = 49 := by
  simp only [header, length_append, length_cons, putInt_length]

theorem uint_flags (flags codec : ℕ) (h : codec < 8) : uint (putInt 2 (8 * flags + codec)) % 8 = codec := by
  rw [uint, get_putInt]
  omega

section Batch

variable {inflate : Bytes → Option Bytes} {b : Batch}

theorem Batch.magic_get (b : Batch) : (b.header ++ b.payload)[4]? = some 2 := by
  rw [header, append_assoc, List.getElem?_append_right (by rw [putInt_length]), putInt_length]
  rfl

theorem Batch.attrs_slice (b : Batch) :
    (((b.header ++ b.payload).take 11).drop 9) = putInt 2 (8 * b.flags + b.codec) := by
  have h : At (b.header ++ b.payload) 9 (putInt 2 (8 * b.flags + b.codec) ++
      (putInt 4 b.lastOffsetDelta ++ (putInt 8 b.baseTimestamp ++ (putInt 8 b.maxTimestamp ++
        (putInt 8 b.producerId ++ (putInt 2 b.producerEpoch ++ (putInt 4 b.baseSequence ++
          putInt 4 b.records.length)))))) ++ b.payload) :=
    ⟨putInt 4 b.partitionLeaderEpoch ++ (2 :: putInt 4 b.crc), by
      simp only [header, append_assoc, cons_append], by
      simp only [length_append, length_cons, putInt_length]⟩
  rw [drop_take, h.drop_eq, append_assoc]
  exact take_left' (putInt_length 2 _)

theorem Batch.count_slice (b : Batch) :
    (((b.header ++ b.payload).take 49).drop 45) = putInt 4 b.records.length := by
  have h : At (b.header ++ b.payload) 45 (putInt 4 b.records.length ++ b.payload) :=
    ⟨putInt 4 b.partitionLeaderEpoch ++ (2 :: (putInt 4 b.crc ++ (putInt 2 (8 * b.flags + b.codec) ++
      (putInt 4 b.lastOffsetDelta ++ (putInt 8 b.baseTimestamp ++ (putInt 8 b.maxTimestamp ++
        (putInt 8 b.producerId ++ (putInt 2 b.producerEpoch ++ putInt 4 b.baseSequence)))))))), by
      simp only [header, append_assoc, cons_append], by
      simp only [length_append, length_cons, putInt_length]⟩
  rw [drop_take, h.drop_eq]
  exact take_left' (putInt_length 4 _)

theorem decodeBatch_header (hcount : b.records.length < 2 ^ 31) (out : List Record) :
    decodeBatch inflate (b.header ++ b.payload) out =
      (decompress inflate b.codec b.payload >>= fun body =>
        decodeBody b.records.length 0 (Reader.new body) out) := by
  have hlen : 49 ≤ (b.header ++ b.payload).length := by
    rw [length_append, b.header_length]
    omega
  have hcodec : b.codec < 8 := by
    rw [Batch.codec]
    split
    · decide
    · decide
  have hpayload : (b.header ++ b.payload).drop 49 = b.payload := drop_left' b.header_length
  have hcount' : signed 32 (uint (putInt 4 b.records.length)) = b.records.length := by
    rw [uint, get_putInt]
    exact signed_putInt (w := 4) (by decide) ⟨by omega, by omega⟩
  rw [decodeBatch_fields hlen b.magic_get, b.attrs_slice, b.count_slice, uint_flags _ _ hcodec, hpayload,
    hcount', Int.toNat_natCast]

theorem decompress_payload (h : b.Fits inflate) : decompress inflate b.codec b.payload = .ok b.body := by
  rw [decompress, Batch.codec, Batch.payload]
  cases hz : b.gzip with
  | none =>
    rw [if_pos (if_neg (by decide))]
    rfl
  | some z =>
    obtain ⟨hbody, hsize⟩ := h.gzip z hz
    rw [Option.isSome_some, if_neg (by decide), if_pos (if_pos rfl), Option.getD_some, gunzip, hbody]
    exact if_neg (Nat.not_lt.mpr hsize)

theorem Batch.Fits.count (h : b.Fits inflate) : b.records.length < 2 ^ 31 := by
  have hle := length_le_flatMap_encodeRecord b.records
  cases hz : b.gzip with
  | none =>
    have hsize := h.size
    rw [Batch.payload, hz, Option.getD_none, Batch.body] at hsize
    omega
  | some z =>
    have hmax := (h.gzip z hz).2
    rw [maxDecompressed, Batch.body] at hmax
    omega

theorem decodeBatch_encode (h : b.Fits inflate) (out : List Record) :
    decodeBatch inflate (b.header ++ b.payload) out = .ok (out ++ keptRecords b.records) := by
  rw [decodeBatch_header h.count, decompress_payload h]
  exact decodeBody_encode h.records 0 out

end Batch

structure LegacyMessage where
  offset : ℤ
  crc : ℤ
  isV1 : Bool
  flags : ℤ
  timestamp : ℤ
  key : Option Bytes
  value : Option Bytes
  deriving DecidableEq, Repr

@[grind =] def LegacyMessage.body (codec : ℤ) (m : LegacyMessage) : Bytes :=
  putInt 4 m.crc ++ (putInt 1 (if m.isV1 then 1 else 0) ++ (putInt 1 (4 * m.flags + codec) ++
    ((if m.isV1 then putInt 8 m.timestamp else []) ++ (putBytes32 m.key ++ putBytes32 m.value))))

@[grind =] def LegacyMessage.Fits (codec : ℤ) (m : LegacyMessage) : Prop := (m.body codec).length < 2 ^ 31

@[grind =] def encodeMessage (codec : ℤ) (m : LegacyMessage) : Bytes := encodeFrame m.offset (m.body codec)

theorem bytes32_length {p : Option Bytes} {s : Bytes} (h : s ∈ p) : s.length ≤ (putBytes32 p).length := by
  cases h
  rw [putBytes32, length_append]
  omega

variable {m : LegacyMessage}

theorem LegacyMessage.Fits.key {codec : ℤ} (h : m.Fits codec) : ∀ s ∈ m.key, s.length < 2 ^ 31 := by
  intro s hs
  have hlen := bytes32_length hs
  simp only [Fits, LegacyMessage.body, length_append] at h
  omega

theorem LegacyMessage.Fits.value {codec : ℤ} (h : m.Fits codec) : ∀ s ∈ m.value, s.length < 2 ^ 31 := by
  intro s hs
  have hlen := bytes32_length hs
  simp only [Fits, LegacyMessage.body, length_append] at h
  omega

private theorem signed_flags (flags codec : ℤ) (h : 0 ≤ codec ∧ codec < 4) :
    signed 8 (get (putInt 1 (4 * flags + codec)).reverse) % 4 = codec := by
  rw [get_putInt, signed]
  split
  · omega
  · omega

theorem messageFields_body {codec : ℤ} (h : m.Fits codec)
    (hcodec : 0 ≤ codec ∧ codec < 4) : ∃ magic attrs, attrs % 4 = codec ∧
      messageFields (m.body codec) = ⟨magic, attrs, m.key, m.value, none⟩ := by
  have hvalue := Reader.bytes_putBytes32 h.value []
  have hkey := Reader.bytes_putBytes32 h.key (putBytes32 m.value)
  rw [append_nil] at hvalue
  refine ⟨if m.isV1 then 1 else 0, signed 8 (get (putInt 1 (4 * m.flags + codec)).reverse),
    signed_flags m.flags codec hcodec, ?_⟩
  rw [messageFields, LegacyMessage.body, Reader.new, Reader.int32, Reader.int_append (putInt_length 4 _)]
  dsimp only
  rw [Reader.int8, Reader.int_putInt (by decide) (by cases m.isV1 <;> decide)]
  dsimp only
  rw [Reader.int8, Reader.int_append (putInt_length 1 _)]
  dsimp only
  cases m.isV1 with
  | true =>
    rw [if_pos (by decide), if_pos rfl, if_pos rfl, Reader.int64, Reader.int_append (putInt_length 8 _)]
    dsimp only
    rw [hkey]
    dsimp only
    rw [hvalue]
  | false =>
    rw [if_neg (by decide), if_neg (by decide), if_neg (by decide), nil_append, hkey]
    dsimp only
    rw [hvalue]

theorem decodeMessage_plain {wrapped : Bytes → List Record → DecodedSet} (h : m.Fits 0) (out : List Record) :
    decodeMessage wrapped (m.body 0) out = .ok (out ++ keep m.key m.value) := by
  obtain ⟨magic, attrs, hattrs, hfields⟩ := messageFields_body h (by decide)
  rw [decodeMessage, hfields, decodeFields]
  dsimp only
  rw [if_pos hattrs, addRecord_eq]

theorem decodeMessage_wrapped {wrapped : Bytes → List Record → DecodedSet}
    (h : m.Fits 1) (out : List Record) :
    decodeMessage wrapped (m.body 1) out = wrapped (m.value.getD []) out := by
  obtain ⟨magic, attrs, hattrs, hfields⟩ := messageFields_body h (by decide)
  rw [decodeMessage, hfields, decodeFields]
  dsimp only
  rw [if_neg (by omega), if_pos hattrs]

/-- A message of a set, plain or with the GZIP stream of other messages for its value. -/
structure LegacyEntry where
  message : LegacyMessage
  inner : Option (List LegacyMessage)
  deriving DecidableEq, Repr

def LegacyEntry.codec (e : LegacyEntry) : ℤ := if e.inner.isSome then 1 else 0

def LegacyEntry.records (e : LegacyEntry) : List Record :=
  match e.inner with
  | none => keep e.message.key e.message.value
  | some ms => ms.flatMap fun m => keep m.key m.value

@[grind =] def encodeEntry (e : LegacyEntry) : Bytes := encodeMessage e.codec e.message

structure LegacyEntry.Fits (inflate : Bytes → Option Bytes) (e : LegacyEntry) : Prop where
  size : e.message.Fits e.codec
  inner : ∀ ms ∈ e.inner, (∀ m ∈ ms, m.Fits 0) ∧
    inflate (e.message.value.getD []) = some (ms.flatMap (encodeMessage 0)) ∧
      (ms.flatMap (encodeMessage 0)).length ≤ maxDecompressed

def Incomplete (tail : Bytes) : Prop :=
  ∃ offset body, body.length < 2 ^ 31 ∧ tail <+: encodeFrame offset body ∧
    tail.length < (encodeFrame offset body).length

theorem not_complete_of_incomplete {tail : Bytes} (h : Incomplete tail) (min : ℕ) : ¬ Complete min tail := by
  obtain ⟨offset, body, hsize, ⟨rest, hrest⟩, hlt⟩ := h
  intro hcomplete
  have hlen := hcomplete.1
  have hframe : frameSize tail = body.length := by
    have htake : (tail ++ rest).take 12 = tail.take 12 := take_append_of_le_length (by omega)
    have hfull : frameSize (encodeFrame offset body ++ []) = body.length := frameSize_encode hsize []
    rw [append_nil, frameSize, ← hrest, htake] at hfull
    exact hfull
  have hmax := hcomplete.2.2
  rw [encodeFrame_length] at hlt
  omega

theorem incomplete_nil : Incomplete [] :=
  ⟨0, [], by decide, nil_prefix, by rw [encodeFrame_length]; decide⟩

theorem foldl_append_eq {α β : Type} (f : β → List α) (l : List β) (out : List α) :
    l.foldl (fun out b => out ++ f b) out = out ++ l.flatMap f := by
  induction l generalizing out with
  | nil => rw [foldl_nil, flatMap_nil, append_nil]
  | cons b l ih => rw [foldl_cons, ih, flatMap_cons, append_assoc]

theorem length_le_flatMap_frames {β : Type} (offset : β → ℤ) (body : β → Bytes) (l : List β) :
    l.length ≤ (l.flatMap fun b => encodeFrame (offset b) (body b)).length := by
  induction l with
  | nil => exact Nat.le_refl 0
  | cons b l ih =>
    rw [flatMap_cons, length_append, encodeFrame_length, length_cons]
    omega

end MonsterMQ.Kafka
