import MonsterMQ.KafkaRecordRoundTrip

/-!
# The record codec

`DecodeRecords` of every standard encoding gives back the records that have a value, in order, as long as no
GZIP stream gives more than `maxDecompressed` bytes.
-/

namespace MonsterMQ.Kafka

open LittleEndian CheckedReads List

variable {inflate : Bytes → Option Bytes}

theorem decodeBatches_encode {batches : List Batch} (h : ∀ b ∈ batches, b.Fits inflate) {tail : Bytes}
    (htail : ¬ Complete 49 tail) {fuel : ℕ} (hfuel : batches.length < fuel) (out : List Record) :
    decodeBatches inflate fuel (batches.flatMap encodeBatch ++ tail) out =
      .ok (out ++ batches.flatMap fun b => keptRecords b.records) := by
  have hmin : ∀ b ∈ batches, 49 ≤ (b.header ++ b.payload).length := by
    intro b _
    rw [length_append, b.header_length]
    omega
  have hsize : ∀ b ∈ batches, (b.header ++ b.payload).length < 2 ^ 31 := by
    intro b hb
    rw [length_append, b.header_length]
    exact (h b hb).size
  rw [decodeBatches_eq, ← foldl_append_eq]
  exact readFrames_flatMap hmin hsize (fun b hb out => decodeBatch_encode (h b hb) out) htail fuel out hfuel

theorem decodeRecords_incomplete {tail : Bytes} (h : Incomplete tail) : decodeRecords inflate tail = .ok [] := by
  rw [decodeRecords]
  split
  · exact decodeBatches_stop (not_complete_of_incomplete h 49) _ _
  · exact decodeMessages_stop (not_complete_of_incomplete h 1) _ _

/-- Where `DecodeRecords` looks for the version. -/
theorem frame_get (offset : ℤ) (body rest : Bytes) (h : 4 < body.length) :
    (encodeFrame offset body ++ rest)[16]? = body[4]? := by
  rw [List.getElem?_append_left (by rw [encodeFrame_length]; omega), encodeFrame, ← append_assoc,
    List.getElem?_append_right (by simp only [length_append, putInt_length]; omega)]
  simp only [length_append, putInt_length]

theorem decodeRecords_batches {batches : List Batch} (h : ∀ b ∈ batches, b.Fits inflate) {tail : Bytes}
    (htail : Incomplete tail) : decodeRecords inflate (batches.flatMap encodeBatch ++ tail) =
      .ok (batches.flatMap fun b => keptRecords b.records) := by
  cases batches with
  | nil =>
    rw [flatMap_nil, nil_append]
    exact decodeRecords_incomplete htail
  | cons b batches =>
    have hlen : (b :: batches).length ≤ ((b :: batches).flatMap encodeBatch).length :=
      length_le_flatMap_frames Batch.baseOffset (fun b => b.header ++ b.payload) (b :: batches)
    have hbody : 49 ≤ (b.header ++ b.payload).length := by
      rw [length_append, b.header_length]
      omega
    have hmagic : ((b :: batches).flatMap encodeBatch ++ tail)[16]? = some 2 := by
      rw [flatMap_cons, append_assoc, encodeBatch, frame_get _ _ _ (by omega)]
      exact b.magic_get
    have h17 : ((b :: batches).flatMap encodeBatch ++ tail).length ≥ 17 :=
      (List.getElem?_eq_some_iff.mp hmagic).1
    rw [decodeRecords, if_pos ⟨h17, hmagic⟩,
      decodeBatches_encode h (not_complete_of_incomplete htail 49) (by rw [length_append]; omega),
      nil_append]

theorem decodeMessages_encode {wrapped : Bytes → List Record → DecodedSet} {β : Type} {codec : β → ℤ}
    {message : β → LegacyMessage} {records : β → List Record} {l : List β}
    (hsize : ∀ e ∈ l, (message e).Fits (codec e)) (hitem : ∀ e ∈ l, ∀ out,
      decodeMessage wrapped ((message e).body (codec e)) out = .ok (out ++ records e))
    {tail : Bytes} (htail : ¬ Complete 1 tail) {fuel : ℕ} (hfuel : l.length < fuel) (out : List Record) :
    decodeMessages wrapped fuel ⟨l.flatMap (fun e => encodeMessage (codec e) (message e)) ++ tail, none⟩ out =
      .ok (out ++ l.flatMap records) := by
  have hmin : ∀ e ∈ l, 1 ≤ ((message e).body (codec e)).length := by
    intro e _
    rw [LegacyMessage.body, length_append, putInt_length]
    omega
  rw [decodeMessages_eq, ← foldl_append_eq]
  exact readFrames_flatMap hmin hsize hitem htail fuel out hfuel

private theorem decodeInner_encode {ms : List LegacyMessage} (h : ∀ m ∈ ms, m.Fits 0) (out : List Record) :
    decodeInner (ms.flatMap (encodeMessage 0)) out = .ok (out ++ ms.flatMap fun m => keep m.key m.value) := by
  have hlen : ms.length ≤ (ms.flatMap (encodeMessage 0)).length :=
    length_le_flatMap_frames LegacyMessage.offset (LegacyMessage.body 0) ms
  have hplain : ∀ m ∈ ms, ∀ out, decodeMessage (fun _ _ => fail .nested) (m.body 0) out =
      .ok (out ++ keep m.key m.value) := fun m hm out => decodeMessage_plain (h m hm) out
  have hset := decodeMessages_encode h hplain (not_complete_of_incomplete incomplete_nil 1)
    (Nat.lt_succ_of_le hlen) out
  rw [append_nil] at hset
  exact hset

private theorem decodeMessage_entry {e : LegacyEntry} (h : e.Fits inflate) (out : List Record) :
    decodeMessage (fun val out => do decodeInner (← gunzip inflate val) out) (e.message.body e.codec) out =
      .ok (out ++ e.records) := by
  obtain ⟨m, inner⟩ := e
  cases inner with
  | none => exact decodeMessage_plain h.size out
  | some ms =>
    obtain ⟨hms, hinflate, hmax⟩ := h.inner ms rfl
    have hgunzip : gunzip inflate (m.value.getD []) = .ok (ms.flatMap (encodeMessage 0)) := by
      rw [gunzip, hinflate]
      exact if_neg (Nat.not_lt.mpr hmax)
    refine (decodeMessage_wrapped h.size out).trans ?_
    rw [hgunzip]
    exact decodeInner_encode hms out

private theorem message_get (codec : ℤ) (m : LegacyMessage) : (m.body codec)[4]? ≠ some 2 := by
  rw [LegacyMessage.body, List.getElem?_append_right (by rw [putInt_length]), putInt_length,
    List.getElem?_append_left (by rw [putInt_length]; decide)]
  cases m.isV1 with
  | true => decide
  | false => decide

theorem decodeRecords_legacy {entries : List LegacyEntry} (h : ∀ e ∈ entries, e.Fits inflate) {tail : Bytes}
    (htail : Incomplete tail) : decodeRecords inflate (entries.flatMap encodeEntry ++ tail) =
      .ok (entries.flatMap LegacyEntry.records) := by
  cases entries with
  | nil =>
    rw [flatMap_nil, nil_append]
    exact decodeRecords_incomplete htail
  | cons e entries =>
    have hlen : (e :: entries).length ≤ ((e :: entries).flatMap encodeEntry).length := by
      have hentry : encodeEntry = fun e : LegacyEntry =>
          encodeFrame e.message.offset (e.message.body e.codec) := rfl
      rw [hentry]
      exact length_le_flatMap_frames _ _ _
    have hbody : 4 < (e.message.body e.codec).length := by
      simp only [LegacyMessage.body, length_append, putInt_length]
      omega
    have hmagic : ((e :: entries).flatMap encodeEntry ++ tail)[16]? ≠ some 2 := by
      rw [flatMap_cons, append_assoc, encodeEntry, encodeMessage, frame_get _ _ _ hbody]
      exact message_get _ _
    rw [decodeRecords, if_neg (fun hbatch => hmagic hbatch.2)]
    exact decodeMessages_encode (fun e he => (h e he).size) (fun e he out => decodeMessage_entry (h e he) out)
      (not_complete_of_incomplete htail 1) (by rw [length_append]; omega) []

def MessageV0.toLegacy (e : MessageV0) : LegacyMessage where
  offset := e.offset
  crc := checksumIEEE (putInt 1 0 ++ putInt 1 0 ++ putBytes32 e.key ++ putBytes32 e.value)
  isV1 := false
  flags := 0
  timestamp := 0
  key := e.key
  value := e.value

def MessageV0.Fits (e : MessageV0) : Prop := (e.toLegacy.body 0).length < 2 ^ 31

private theorem encodeMessageV0_eq (e : MessageV0) : encodeMessageV0 e = encodeEntry ⟨e.toLegacy, none⟩ := by
  have hlen : ((4 : ℤ) + (putInt 1 0 ++ putInt 1 0 ++ putBytes32 e.key ++ putBytes32 e.value).length) =
      ((e.toLegacy.body 0).length : ℤ) := by
    simp only [LegacyMessage.body, MessageV0.toLegacy, length_append, putInt_length, append_assoc]
    rw [if_neg (by decide), length_nil]
    omega
  rw [encodeMessageV0, encodeEntry, encodeMessage, encodeFrame]
  dsimp only
  rw [hlen]
  simp only [LegacyEntry.codec, LegacyMessage.body, MessageV0.toLegacy, append_assoc]
  rfl

private theorem decodeRecords_encodeMessageSetV0 {es : List MessageV0} (h : ∀ e ∈ es, e.Fits) :
    decodeRecords inflate (encodeMessageSetV0 es) = .ok (es.flatMap fun e => keep e.key e.value) := by
  have hentries : ∀ e ∈ es.map (fun e => (⟨e.toLegacy, none⟩ : LegacyEntry)), e.Fits inflate := by
    intro e he
    obtain ⟨m, hm, rfl⟩ := mem_map.mp he
    exact ⟨h m hm, fun ms hms => by cases hms⟩
  have hset := decodeRecords_legacy hentries incomplete_nil
  rw [append_nil, flatMap_map, flatMap_map] at hset
  rw [encodeMessageSetV0, show encodeMessageV0 = fun e => encodeEntry ⟨e.toLegacy, none⟩ from
    funext encodeMessageV0_eq]
  exact hset

variable (inflate) in
/-- The set is a standard encoding, in one format and with a frame that is cut off at its end, of records
of which these have a value. -/
def Encodes (set : Bytes) (recs : List Record) : Prop :=
  (∃ (batches : List Batch) (tail : Bytes), (∀ b ∈ batches, b.Fits inflate) ∧ Incomplete tail ∧
    set = batches.flatMap encodeBatch ++ tail ∧ recs = batches.flatMap fun b => keptRecords b.records) ∨
  ∃ (entries : List LegacyEntry) (tail : Bytes), (∀ e ∈ entries, e.Fits inflate) ∧ Incomplete tail ∧
    set = entries.flatMap encodeEntry ++ tail ∧ recs = entries.flatMap LegacyEntry.records

theorem decodeRecords_encodes {set : Bytes} {recs : List Record} (h : Encodes inflate set recs) :
    decodeRecords inflate set = .ok recs := by
  rcases h with ⟨batches, tail, hfits, htail, rfl, rfl⟩ | ⟨entries, tail, hfits, htail, rfl, rfl⟩
  · exact decodeRecords_batches hfits htail
  · exact decodeRecords_legacy hfits htail

def storedBlocks : ℕ → Bytes → Bytes
  | 0, _ => []
  | rounds + 1, p =>
    if p.length ≤ 65535 then (1 :: (put 2 p.length ++ put 2 (65535 - p.length))) ++ p
    else (0 :: (put 2 65535 ++ put 2 0)) ++ (p.take 65535 ++ storedBlocks rounds (p.drop 65535))

/-- The GZIP stream of a text in stored blocks: header, blocks, checksum and size. -/
def gzipStored (p : Bytes) : Bytes :=
  [0x1f, 0x8b, 8, 0, 0, 0, 0, 0, 0, 0xff] ++ (storedBlocks (p.length / 65535 + 1) p ++
    (put 4 (checksumIEEE p) ++ put 4 (p.length % 2 ^ 32)))

theorem storedBlocks_length (rounds : ℕ) (p : Bytes) : (storedBlocks rounds p).length ≤ p.length + 5 * rounds := by
  induction rounds generalizing p with
  | zero => exact Nat.zero_le _
  | succ rounds ih =>
    have htail := ih (p.drop 65535)
    rw [length_drop] at htail
    rw [storedBlocks]
    split
    · simp only [length_append, length_cons, put_length]
      omega
    · simp only [length_append, length_cons, put_length, length_take]
      omega

theorem gzipStored_length (p : Bytes) : (gzipStored p).length ≤ p.length + 5 * (p.length / 65535) + 23 := by
  have hblocks := storedBlocks_length (p.length / 65535 + 1) p
  simp only [gzipStored, length_append, length_cons, length_nil, put_length]
  omega

theorem decodeRecords_tooBig {b : Batch} {z : Bytes} (hz : b.gzip = some z) (hinflate : inflate z = some b.body)
    (hcount : b.records.length < 2 ^ 31) (hsize : 49 + z.length < 2 ^ 31)
    (hbig : maxDecompressed < b.body.length) : decodeRecords inflate (encodeBatch b) = fail .gzip := by
  have hlen : (b.header ++ b.payload).length = 49 + z.length := by
    rw [length_append, b.header_length, Batch.payload, hz, Option.getD_some]
  have hmagic : (encodeBatch b)[16]? = some 2 := by
    have hget := frame_get b.baseOffset (b.header ++ b.payload) [] (by omega)
    rw [append_nil, b.magic_get] at hget
    exact hget
  have hbatch : decodeBatch inflate (b.header ++ b.payload) [] = fail .gzip := by
    rw [decodeBatch_header hcount, decompress, Batch.codec, hz, Option.isSome_some, if_neg (by decide),
      if_pos (if_pos rfl), Batch.payload, hz, Option.getD_some, gunzip, hinflate]
    dsimp only
    rw [if_pos hbig]
    rfl
  have hframe : readFrames 49 (decodeBatch inflate) ((encodeBatch b).length + 1) (encodeBatch b ++ []) [] =
      (decodeBatch inflate (b.header ++ b.payload) [] >>=
        readFrames 49 (decodeBatch inflate) (encodeBatch b).length []) :=
    readFrames_encode (by omega) [] (by omega) _ _
  rw [append_nil, hbatch] at hframe
  rw [decodeRecords, if_pos ⟨(List.getElem?_eq_some_iff.mp hmagic).1, hmagic⟩, decodeBatches_eq, hframe]
  rfl

def recordOf (value : Bytes) : BatchRecord := ⟨0, 0, 0, none, some value, []⟩

def batchOf (value : Bytes) : Batch :=
  ⟨0, 0, 0, 0, 0, 0, 0, 0, 0, 0, [recordOf value], some (gzipStored (encodeRecord (recordOf value)))⟩

def inflateOf (value z : Bytes) : Option Bytes :=
  if z = gzipStored (encodeRecord (recordOf value)) then some (encodeRecord (recordOf value)) else none

theorem putVarlong_length (v : ℤ) : (putVarlong v).length ≤ 10 := by
  have h : ∀ rounds u, (putGroups rounds u).length ≤ rounds + 1 := by
    intro rounds
    induction rounds with
    | zero => exact fun u => Nat.le_refl 1
    | succ rounds ih =>
      intro u
      rw [putGroups]
      split
      · rw [length_cons]
        exact Nat.succ_le_succ (ih _)
      · exact Nat.le_add_left 1 _
  exact h 9 _

private theorem recordOf_length (value : Bytes) : value.length < (encodeFields (recordOf value)).length ∧
    (encodeFields (recordOf value)).length ≤ value.length + 41 := by
  have h0 := putVarlong_length 0
  have h1 := putVarlong_length (-1)
  have hv := putVarlong_length value.length
  simp only [encodeFields, recordOf, putVarBytes, length_append, putInt_length, length_nil]
  omega

theorem decodeRecords_batchOf {value : Bytes} (h : value.length = maxDecompressed) : (recordOf value).Fits ∧
    decodeRecords (inflateOf value) (encodeBatch (batchOf value)) = fail .gzip := by
  obtain ⟨hlow, hhigh⟩ := recordOf_length value
  have hmax : maxDecompressed = 67108864 := rfl
  have hlen : (encodeRecord (recordOf value)).length = (putVarlong (encodeFields (recordOf value)).length).length +
      (encodeFields (recordOf value)).length := by rw [encodeRecord, length_append]
  have hvarint := putVarlong_length (encodeFields (recordOf value)).length
  have hstream := gzipStored_length (encodeRecord (recordOf value))
  have hbody : (batchOf value).body = encodeRecord (recordOf value) := by
    rw [Batch.body, batchOf, flatMap_singleton]
  refine ⟨⟨(by decide : -2 ^ 63 ≤ (0 : ℤ) ∧ (0 : ℤ) < 2 ^ 63), (by decide : -2 ^ 31 ≤ (0 : ℤ) ∧ (0 : ℤ) < 2 ^ 31),
    by omega⟩, ?_⟩
  refine decodeRecords_tooBig rfl ?_ (by decide : 1 < 2 ^ 31) (by omega) (by rw [hbody]; omega)
  rw [hbody, inflateOf, if_pos rfl]

def uncounted : Bytes :=
  encodeFrame 0 ((⟨0, 0, 0, 0, 0, 0, 0, 0, 0, 0, [], none⟩ : Batch).header ++ encodeRecord (recordOf [0x31]))

end MonsterMQ.Kafka
