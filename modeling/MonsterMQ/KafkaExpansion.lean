import MonsterMQ.KafkaRecordCodec

/-!
# What decompression produces

`DecodeRecords` calls `gunzip` once for every compressed batch or message of the set. A meter tells how many
bytes the calls have produced together: one call is within the limit, two are not.
-/

namespace MonsterMQ.Kafka

open LittleEndian CheckedReads
open List hiding set

/-- The records so far and the bytes that `gunzip` has produced. -/
abbrev Metered := List Record × ℕ

section Meter

variable (inflate : Bytes → Option Bytes)

def meteredGunzip (p : Bytes) (n : ℕ) : Read RecordError (Bytes × ℕ) := do
  let out ← gunzip inflate p
  return (out, n + out.length)

def meteredDecompress (codec : ℕ) (body : Bytes) (n : ℕ) : Read RecordError (Bytes × ℕ) :=
  if codec = 0 then .ok (body, n)
  else if codec = 1 then meteredGunzip inflate body n
  else fail (.unsupportedCodec codec)

def meteredBatch (batch : Bytes) (s : Metered) : Read RecordError Metered := do
  let magic ← index batch 4
  if magic ≠ 2 then fail (.unexpectedMagic magic)
  let attrs ← slice batch 9 11
  let count ← slice batch 45 49
  let body ← meteredDecompress inflate (uint attrs % 8) (← sliceFrom batch 49) s.2
  let out ← decodeBody (signed 32 (uint count)).toNat 0 (Reader.new body.1) s.1
  return (out, body.2)

def meteredMessage (m : Bytes) (s : Metered) : Read RecordError Metered :=
  let f := messageFields m
  match f.err with
  | some e => fail (.message e)
  | none =>
    if f.attrs % 4 = 0 then .ok (addRecord s.1 f.key f.value, s.2)
    else if f.attrs % 4 = 1 then do
      let inner ← meteredGunzip inflate (f.value.getD []) s.2
      let out ← decodeInner inner.1 s.1
      return (out, inner.2)
    else fail (.unsupportedCodec (f.attrs % 4).toNat)

def OfBatches (set : Bytes) : Prop := set.length ≥ 17 ∧ set[16]? = some 2
deriving Decidable

def meteredRecords (set : Bytes) : Read RecordError Metered :=
  if OfBatches set then readFrames 49 (meteredBatch inflate) (set.length + 1) set ([], 0)
  else readFrames 1 (meteredMessage inflate) (set.length + 1) set ([], 0)

@[grind =] def frames (min : ℕ) : ℕ → Bytes → List Bytes
  | 0, _ => []
  | fuel + 1, set =>
    if Complete min set then frameBody set :: frames min fuel (afterFrame set) else []

@[grind =]
def setFrames (set : Bytes) : List Bytes := frames (if OfBatches set then 49 else 1) (set.length + 1) set

def batchStream (batch : Bytes) : Option Bytes :=
  if uint ((batch.take 11).drop 9) % 8 = 1 then some (batch.drop 49) else none

def messageStream (m : Bytes) : Option Bytes :=
  if (messageFields m).attrs % 4 = 1 then some ((messageFields m).value.getD []) else none

@[grind =] def streamOf (set f : Bytes) : Option Bytes :=
  if OfBatches set then batchStream f else messageStream f

def expansion (stream : Option Bytes) : ℕ := ((stream.bind inflate).getD []).length

/-- How many bytes the compressed batches or messages of a set give together. -/
@[grind =] def totalExpansion (set : Bytes) : ℕ :=
  ((setFrames set).map fun f => expansion inflate (streamOf set f)).sum

@[grind =]
def wrappedSet (val : Bytes) (out : List Record) : DecodedSet := do decodeInner (← gunzip inflate val) out

end Meter

section Frames

variable {ε σ τ : Type} {min : ℕ}

theorem readFrames_beside {item : Bytes → σ → Read ε σ} {item' : Bytes → σ × ℕ → Read ε (σ × ℕ)}
    {size : Bytes → ℕ} (h : ∀ body s n, min ≤ body.length →
      item' body (s, n) = (item body s).map fun s' => (s', n + size body)) (fuel : ℕ) : ∀ set s n,
    readFrames min item' fuel set (s, n) = (readFrames min item fuel set s).map fun s' =>
      (s', n + ((frames min fuel set).map size).sum) := by
  induction fuel with
  | zero => exact fun _ _ _ => rfl
  | succ fuel ih =>
    intro set s n
    rw [readFrames, readFrames, frames]
    split
    · rename_i hcomplete
      have hlen : min ≤ (frameBody set).length := by
        rw [hcomplete.body_length]
        have := hcomplete.2.1
        omega
      rw [h _ _ _ hlen, map_cons, sum_cons]
      cases item (frameBody set) s with
      | error e => rfl
      | ok s' =>
        change readFrames min item' fuel (afterFrame set) (s', n + size (frameBody set)) = _
        rw [ih, Nat.add_assoc]
        rfl
    · rfl

theorem ok_of_mem_frames {item : Bytes → σ → Read ε σ} (fuel : ℕ) : ∀ set (s s' : σ),
    readFrames min item fuel set s = .ok s' → ∀ f ∈ frames min fuel set,
      min ≤ f.length ∧ ∃ t t', item f t = .ok t' := by
  induction fuel with
  | zero => exact fun _ _ _ h => by cases h
  | succ fuel ih =>
    intro set s s' h f hf
    rw [readFrames] at h
    rw [frames] at hf
    split at h
    · rename_i hcomplete
      rw [if_pos hcomplete] at hf
      cases hitem : item (frameBody set) s with
      | error e =>
        rw [hitem] at h
        cases h
      | ok t =>
        rw [hitem] at h
        rcases mem_cons.mp hf with rfl | hf
        · refine ⟨?_, s, t, hitem⟩
          rw [hcomplete.body_length]
          have := hcomplete.2.1
          omega
        · exact ih _ t s' h f hf
    · rename_i hstop
      rw [if_neg hstop] at hf
      cases hf

theorem sum_le_of_single {α : Type} {size : α → ℕ} {p : α → Bool} {bound : ℕ} {l : List α}
    (hzero : ∀ a ∈ l, p a = false → size a = 0) (hle : ∀ a ∈ l, size a ≤ bound)
    (hone : l.countP p ≤ 1) : (l.map size).sum ≤ bound := by
  induction l with
  | nil => exact Nat.zero_le _
  | cons a l ih =>
    rw [forall_mem_cons] at hzero hle
    rw [map_cons, sum_cons]
    cases hp : p a with
    | false =>
      rw [countP_cons_of_neg (by simp [hp])] at hone
      rw [hzero.1 hp, Nat.zero_add]
      exact ih hzero.2 hle.2 hone
    | true =>
      rw [countP_cons_of_pos hp] at hone
      have hnone : ∀ b ∈ l, p b = false := by
        have hcount : l.countP p = 0 := by omega
        intro b hb
        simpa using countP_eq_zero.mp hcount b hb
      have hrest : (l.map size).sum = 0 := by
        rw [List.sum_eq_zero_iff_forall_eq_nat]
        intro n hn
        obtain ⟨b, hb, rfl⟩ := mem_map.mp hn
        exact hzero.2 b hb (hnone b hb)
      rw [hrest, Nat.add_zero]
      exact hle.1

end Frames

section Bound

variable {inflate : Bytes → Option Bytes}

theorem map_bind_read {ε α β γ : Type} (x : Read ε α) (f : α → Read ε β) (g : β → γ) :
    (x >>= f).map g = x >>= fun a => (f a).map g := by
  cases x with
  | error e => rfl
  | ok a => rfl

theorem meteredGunzip_eq (p : Bytes) (n : ℕ) : meteredGunzip inflate p n =
    (gunzip inflate p).map fun out => (out, n + expansion inflate (some p)) := by
  rw [meteredGunzip, gunzip, expansion, Option.bind_some]
  cases inflate p with
  | none => rfl
  | some out =>
    dsimp only
    split
    · rfl
    · rfl

theorem meteredDecompress_eq (codec : ℕ) (body : Bytes) (n : ℕ) : meteredDecompress inflate codec body n =
    (decompress inflate codec body).map fun out =>
      (out, n + expansion inflate (if codec = 1 then some body else none)) := by
  rw [meteredDecompress, decompress]
  by_cases h0 : codec = 0
  · rw [if_pos h0, if_pos h0, if_neg (by omega)]
    rfl
  · rw [if_neg h0, if_neg h0]
    by_cases h1 : codec = 1
    · rw [if_pos h1, if_pos h1, if_pos h1, meteredGunzip_eq]
    · rw [if_neg h1, if_neg h1, if_neg h1]
      rfl

theorem bind_map_read {ε α β γ : Type} (x : Read ε α) (f : α → β) (g : β → Read ε γ) :
    x.map f >>= g = x >>= fun a => g (f a) := by
  cases x with
  | error e => rfl
  | ok a => rfl

theorem bind_pure_read {ε α β : Type} (x : Read ε α) (f : α → β) : (x >>= fun a => pure (f a)) = x.map f := by
  cases x with
  | error e => rfl
  | ok a => rfl

theorem meteredBatch_eq {batch : Bytes} (hlen : 49 ≤ batch.length) (out : List Record) (n : ℕ) :
    meteredBatch inflate batch (out, n) =
      (decodeBatch inflate batch out).map fun out' => (out', n + expansion inflate (batchStream batch)) := by
  have hget := List.getElem?_eq_getElem (show 4 < batch.length by omega)
  by_cases hmagic : batch[4] = 2
  · rw [hmagic] at hget
    rw [decodeBatch_fields hlen hget, meteredBatch, index, hget]
    change (slice batch 9 11 >>= fun attrs => slice batch 45 49 >>= fun count => sliceFrom batch 49 >>= fun payload =>
      meteredDecompress inflate (uint attrs % 8) payload n >>= fun body =>
        decodeBody (signed 32 (uint count)).toNat 0 (Reader.new body.1) out >>= fun out => pure (out, body.2)) = _
    rw [slice_of_le (by omega) (by omega), slice_of_le (by omega) (by omega), sliceFrom_of_le hlen]
    change (meteredDecompress inflate (uint ((batch.take 11).drop 9) % 8) (batch.drop 49) n >>= fun body =>
        decodeBody (signed 32 (uint ((batch.take 49).drop 45))).toNat 0 (Reader.new body.1) out >>= fun out =>
          pure (out, body.2)) = _
    rw [meteredDecompress_eq, bind_map_read, map_bind_read]
    simp only [bind_pure_read]
    rfl
  · rw [decodeBatch_bad hget hmagic, meteredBatch, index, hget]
    change (if batch[4] ≠ 2 then _ else _) = _
    rw [if_pos hmagic]
    rfl

theorem meteredMessage_eq (m : Bytes) (out : List Record) (n : ℕ) :
    meteredMessage inflate m (out, n) = (decodeMessage (wrappedSet inflate) m out).map fun out' =>
      (out', n + expansion inflate (messageStream m)) := by
  rw [meteredMessage, decodeMessage, decodeFields, messageStream]
  cases (messageFields m).err with
  | some e => rfl
  | none =>
    dsimp only
    by_cases h0 : (messageFields m).attrs % 4 = 0
    · rw [if_pos h0, if_pos h0, if_neg (by omega)]
      rfl
    · rw [if_neg h0, if_neg h0]
      by_cases h1 : (messageFields m).attrs % 4 = 1
      · rw [if_pos h1, if_pos h1, if_pos h1, meteredGunzip_eq, bind_map_read, wrappedSet, map_bind_read]
        simp only [bind_pure_read]
      · rw [if_neg h1, if_neg h1, if_neg h1]
        rfl

theorem decodeRecords_of_batches {set : Bytes} (h : OfBatches set) : decodeRecords inflate set =
    readFrames 49 (decodeBatch inflate) (set.length + 1) set [] := by
  rw [decodeRecords, if_pos (show set.length ≥ 17 ∧ set[16]? = some 2 from h), decodeBatches_eq]

theorem decodeRecords_of_messages {set : Bytes} (h : ¬ OfBatches set) : decodeRecords inflate set =
    readFrames 1 (decodeMessage (wrappedSet inflate)) (set.length + 1) set [] := by
  rw [decodeRecords, if_neg (show ¬ (set.length ≥ 17 ∧ set[16]? = some 2) from h), decodeLegacy, Reader.new,
    decodeMessages_eq]
  rfl

theorem meteredRecords_eq (set : Bytes) : meteredRecords inflate set =
    (decodeRecords inflate set).map fun out => (out, totalExpansion inflate set) := by
  rw [meteredRecords, totalExpansion, setFrames]
  by_cases h : OfBatches set
  · rw [if_pos h, if_pos h, decodeRecords_of_batches h,
      readFrames_beside fun body s n hlen => meteredBatch_eq hlen s n, Nat.zero_add]
    simp only [streamOf, if_pos h]
  · rw [if_neg h, if_neg h, decodeRecords_of_messages h,
      readFrames_beside fun body s n _ => meteredMessage_eq body s n, Nat.zero_add]
    simp only [streamOf, if_neg h]

private theorem expansion_le_of_gunzip {p body : Bytes} (h : gunzip inflate p = .ok body) :
    expansion inflate (some p) ≤ maxDecompressed := by
  have hsafe := @safe_gunzip inflate p
  rw [h] at hsafe
  rw [expansion, Option.bind_some, hsafe.1, Option.getD_some]
  exact hsafe.2

theorem expansion_none : expansion inflate none = 0 := rfl

private theorem expansion_le_of_batch {batch : Bytes} {out out' : List Record} (hlen : 49 ≤ batch.length)
    (h : decodeBatch inflate batch out = .ok out') :
    expansion inflate (batchStream batch) ≤ maxDecompressed := by
  have hsafe := @safe_decodeBatch inflate _ hlen out
  rw [h] at hsafe
  obtain ⟨-, body, -, hbody, -, -⟩ := hsafe
  rw [batchStream]
  rcases hbody with ⟨hcodec, -⟩ | ⟨hcodec, hinflate, hsize⟩
  · rw [if_neg (by omega), expansion_none]
    exact Nat.zero_le _
  · rw [if_pos hcodec, expansion, Option.bind_some, hinflate, Option.getD_some]
    exact hsize

theorem expansion_le_of_message {m : Bytes} {out out' : List Record}
    (h : decodeMessage (wrappedSet inflate) m out = .ok out') :
    expansion inflate (messageStream m) ≤ maxDecompressed := by
  rw [decodeMessage, decodeFields] at h
  rw [messageStream]
  split at h
  · cases h
  · split at h
    · rename_i hcodec
      rw [if_neg (by omega), expansion_none]
      exact Nat.zero_le _
    · split at h
      · rename_i hcodec
        rw [if_pos hcodec]
        rw [wrappedSet] at h
        cases hgunzip : gunzip inflate ((messageFields m).value.getD []) with
        | error e =>
          rw [hgunzip] at h
          cases h
        | ok body => exact expansion_le_of_gunzip hgunzip
      · cases h

/-- Every compressed batch or message of a set that is decoded keeps the limit on its own. -/
theorem expansion_le_of_mem {set f : Bytes} {recs : List Record} (h : decodeRecords inflate set = .ok recs)
    (hf : f ∈ setFrames set) : expansion inflate (streamOf set f) ≤ maxDecompressed := by
  rw [setFrames] at hf
  rw [streamOf]
  by_cases hset : OfBatches set
  · rw [if_pos hset] at hf ⊢
    rw [decodeRecords_of_batches hset] at h
    obtain ⟨hlen, t, t', hok⟩ := ok_of_mem_frames _ set [] recs h f hf
    exact expansion_le_of_batch hlen hok
  · rw [if_neg hset] at hf ⊢
    rw [decodeRecords_of_messages hset] at h
    obtain ⟨-, t, t', hok⟩ := ok_of_mem_frames _ set [] recs h f hf
    exact expansion_le_of_message hok

/-- One call of `DecodeRecords` on a set with at most one compressed batch or message produces at most
`maxDecompressed` bytes or fails. -/
theorem decompressed_bounded (inflate : Bytes → Option Bytes) {set : Bytes}
    (hone : (setFrames set).countP (fun f => (streamOf set f).isSome) ≤ 1) :
    ∀ out n, meteredRecords inflate set = .ok (out, n) → n ≤ maxDecompressed := by
  intro out n h
  rw [meteredRecords_eq] at h
  cases hdec : decodeRecords inflate set with
  | error e =>
    rw [hdec] at h
    cases h
  | ok recs =>
    rw [hdec] at h
    cases h
    apply sum_le_of_single _ (fun f hf => expansion_le_of_mem hdec hf) hone
    intro f _ hnone
    rw [Option.isSome_eq_false_iff, Option.isNone_iff_eq_none] at hnone
    rw [hnone, expansion_none]

theorem frames_batches {batches : List Batch} (h : ∀ b ∈ batches, b.Fits inflate) : ∀ fuel,
    batches.length < fuel →
      frames 49 fuel (batches.flatMap encodeBatch) = batches.map fun b => b.header ++ b.payload := by
  induction batches with
  | nil =>
    intro fuel hfuel
    obtain ⟨fuel, rfl⟩ := Nat.exists_eq_add_one_of_ne_zero (Nat.ne_of_gt hfuel)
    exact if_neg (not_complete_of_incomplete incomplete_nil 49)
  | cons b batches ih =>
    intro fuel hfuel
    rw [length_cons] at hfuel
    obtain ⟨fuel, rfl⟩ := Nat.exists_eq_add_one_of_ne_zero (show fuel ≠ 0 by omega)
    have hlen : (b.header ++ b.payload).length = 49 + b.payload.length := by
      rw [length_append, b.header_length]
    have hsize : (b.header ++ b.payload).length < 2 ^ 31 := hlen ▸ (h b mem_cons_self).size
    rw [flatMap_cons, encodeBatch, frames, if_pos (complete_encode hsize _ (by omega)),
      frameBody_encode hsize, afterFrame_encode hsize, map_cons,
      ih (fun b hb => h b (mem_cons_of_mem _ hb)) fuel (by omega)]

private theorem expansion_batch {b : Batch} (h : b.Fits inflate) (hgzip : b.gzip.isSome = true) :
    expansion inflate (batchStream (b.header ++ b.payload)) = b.body.length := by
  obtain ⟨z, hz⟩ := Option.isSome_iff_exists.mp hgzip
  have hcodec : b.codec = 1 := if_pos hgzip
  have hpayload : (b.header ++ b.payload).drop 49 = z := by
    rw [drop_left' b.header_length, Batch.payload, hz, Option.getD_some]
  rw [batchStream, b.attrs_slice, uint_flags _ _ (by rw [hcodec]; decide), if_pos hcodec, expansion,
    hpayload, Option.bind_some, (h.gzip z hz).1, Option.getD_some]

theorem ofBatches_encode (b : Batch) (rest : Bytes) : OfBatches (encodeBatch b ++ rest) := by
  have hget : (encodeBatch b ++ rest)[16]? = some 2 := by
    rw [encodeBatch, frame_get _ _ _ (by rw [length_append, b.header_length]; omega)]
    exact b.magic_get
  exact ⟨(List.getElem?_eq_some_iff.mp hget).1, hget⟩

theorem setFrames_batches {b : Batch} {batches : List Batch} (h : ∀ b' ∈ b :: batches, b'.Fits inflate) :
    setFrames ((b :: batches).flatMap encodeBatch) =
      (b :: batches).map fun b => b.header ++ b.payload := by
  have hof : OfBatches ((b :: batches).flatMap encodeBatch) := by
    rw [flatMap_cons]
    exact ofBatches_encode b _
  have hlen : (b :: batches).length ≤ ((b :: batches).flatMap encodeBatch).length :=
    length_le_flatMap_frames Batch.baseOffset (fun b => b.header ++ b.payload) (b :: batches)
  rw [setFrames, if_pos hof]
  exact frames_batches h _ (Nat.lt_succ_of_le hlen)

/-- A set of compressed batches makes `gunzip` produce the records of them all. -/
theorem meteredRecords_batches {b : Batch} {batches : List Batch}
    (h : ∀ b' ∈ b :: batches, b'.Fits inflate) (hgzip : ∀ b' ∈ b :: batches, b'.gzip.isSome = true) :
    meteredRecords inflate ((b :: batches).flatMap encodeBatch) =
      .ok ((b :: batches).flatMap (fun b => keptRecords b.records),
        ((b :: batches).map fun b => b.body.length).sum) := by
  have hof : OfBatches ((b :: batches).flatMap encodeBatch) := by
    rw [flatMap_cons]
    exact ofBatches_encode b _
  have hdec := decodeRecords_batches h incomplete_nil
  rw [append_nil] at hdec
  have htotal : totalExpansion inflate ((b :: batches).flatMap encodeBatch) =
      ((b :: batches).map fun b => b.body.length).sum := by
    rw [totalExpansion, setFrames_batches h, map_map]
    congr 1
    apply map_congr_left
    intro b' hb'
    rw [Function.comp_apply, streamOf, if_pos hof]
    exact expansion_batch (h b' hb') (hgzip b' hb')
  rw [meteredRecords_eq, hdec, htotal]
  rfl

end Bound

/-- Bits in bytes, the first in the lowest place, for at most `rounds` bytes. -/
def packBits : ℕ → List Bool → Bytes
  | 0, _ => []
  | _, [] => []
  | rounds + 1, b :: bits =>
    (((b :: bits).take 8).foldr (fun (x : Bool) n => x.toNat + 2 * n) 0).toUInt8 :: packBits rounds ((b :: bits).drop 8)

private theorem packBits_length (rounds : ℕ) : ∀ bits, (packBits rounds bits).length ≤ rounds := by
  induction rounds with
  | zero => exact fun _ => Nat.le_refl 0
  | succ rounds ih =>
    intro bits
    cases bits with
    | nil => exact Nat.zero_le _
    | cons b bits =>
      rw [packBits, length_cons]
      exact Nat.succ_le_succ (ih _)

/-- A last block with the fixed codes: one zero, `k` times 258 more of the byte before, and the end. -/
def zeroBlock (k : ℕ) : List Bool :=
  [true, true, false] ++ ([false, false, true, true, false, false, false, false] ++
    ((List.replicate k [true, true, false, false, false, true, false, true, false, false, false, false,
      false]).flatten ++ List.replicate 7 false))

/-- The GZIP stream of some bytes, stored, and `258 * k + 1` zeros after them. -/
def gzipZeros (start : Bytes) (k : ℕ) : Bytes :=
  [0x1f, 0x8b, 8, 0, 0, 0, 0, 0, 0, 0xff] ++ ((0 :: (put 2 start.length ++ put 2 (65535 - start.length))) ++
    (start ++ (packBits (2 * k + 3) (zeroBlock k) ++
      (put 4 (checksumIEEE (start ++ List.replicate (258 * k + 1) 0)) ++
        put 4 ((start.length + (258 * k + 1)) % 2 ^ 32)))))

def zeroRecord (k : ℕ) : BatchRecord := ⟨0, 0, 0, none, some (List.replicate (258 * k) 0), [0]⟩

/-- The record up to its value; the zero behind the value is the number of headers. -/
@[grind =] def zeroRecordStart (k : ℕ) : Bytes :=
  putVarlong (encodeFields (zeroRecord k)).length ++ (putInt 1 0 ++ (putVarlong 0 ++ (putVarlong 0 ++
    (putVarlong (-1) ++ putVarlong ((List.replicate (258 * k) (0 : UInt8)).length)))))

private theorem encodeRecord_zeroRecord (k : ℕ) :
    encodeRecord (zeroRecord k) = zeroRecordStart k ++ List.replicate (258 * k + 1) 0 := by
  rw [encodeRecord, zeroRecordStart, replicate_succ']
  simp only [encodeFields, zeroRecord, putVarBytes, append_assoc]

@[grind =] def zeroBatch (k : ℕ) : Batch :=
  ⟨0, 0, 0, 0, 0, 0, 0, 0, 0, 0, [zeroRecord k], some (gzipZeros (zeroRecordStart k) k)⟩

def inflateZeros (k : ℕ) (z : Bytes) : Option Bytes :=
  if z = gzipZeros (zeroRecordStart k) k then some (zeroRecordStart k ++ List.replicate (258 * k + 1) 0) else none

theorem zeroRecordStart_length (k : ℕ) : (zeroRecordStart k).length ≤ 51 := by
  have h := putVarlong_length
  have h0 := h (encodeFields (zeroRecord k)).length
  have h1 := h 0
  have h2 := h (-1)
  have h3 := h (List.replicate (258 * k) (0 : UInt8)).length
  simp only [zeroRecordStart, length_append, putInt_length]
  omega

theorem gzipZeros_length (k : ℕ) : (gzipZeros (zeroRecordStart k) k).length ≤ 2 * k + 77 := by
  have hstart := zeroRecordStart_length k
  have hbits := packBits_length (2 * k + 3) (zeroBlock k)
  simp only [gzipZeros, length_append, length_cons, length_nil, put_length]
  omega

theorem zeroBatch_body (k : ℕ) : (zeroBatch k).body = zeroRecordStart k ++ List.replicate (258 * k + 1) 0 := by
  rw [Batch.body, zeroBatch, flatMap_singleton, encodeRecord_zeroRecord]

theorem zeroBatch_fits {k : ℕ} (h : 258 * k + 52 ≤ maxDecompressed) : (zeroBatch k).Fits (inflateZeros k) := by
  have hmax : maxDecompressed = 67108864 := rfl
  have hstart := zeroRecordStart_length k
  have hstream := gzipZeros_length k
  have hbody : ((zeroBatch k).body).length ≤ 258 * k + 52 := by
    rw [zeroBatch_body, length_append, length_replicate]
    omega
  have hfields : (encodeFields (zeroRecord k)).length ≤ (encodeRecord (zeroRecord k)).length := by
    rw [encodeRecord, length_append]
    omega
  rw [Batch.body, zeroBatch, flatMap_singleton] at hbody
  refine ⟨?_, ?_, ?_⟩
  · intro r hr
    rw [mem_singleton.mp hr]
    exact ⟨(by decide : -2 ^ 63 ≤ (0 : ℤ) ∧ (0 : ℤ) < 2 ^ 63), (by decide : -2 ^ 31 ≤ (0 : ℤ) ∧ (0 : ℤ) < 2 ^ 31),
      by omega⟩
  · rw [Batch.payload, zeroBatch, Option.getD_some]
    omega
  · intro z hz
    cases hz
    rw [zeroBatch_body, inflateZeros, if_pos rfl]
    refine ⟨rfl, ?_⟩
    rw [length_append, length_replicate]
    omega

def maxFrame : ℕ := 10 * 1024 * 1024

private theorem zeroBatch_length (k : ℕ) : (encodeBatch (zeroBatch k)).length ≤ 2 * k + 138 := by
  have hstream := gzipZeros_length k
  rw [encodeBatch, encodeFrame_length, length_append, Batch.header_length, Batch.payload, zeroBatch,
    Option.getD_some]
  omega

/-- One batch of forty megabytes is within the limit, and it is decompressed. -/
theorem one_stream_produces : ∃ out n, 258 * 162500 < n ∧
    meteredRecords (inflateZeros 162500) ([zeroBatch 162500].flatMap encodeBatch) = .ok (out, n) ∧
      n ≤ maxDecompressed := by
  have hfits : ∀ b ∈ [zeroBatch 162500], b.Fits (inflateZeros 162500) := by
    intro b hb
    rw [mem_singleton.mp hb]
    exact zeroBatch_fits (by rw [maxDecompressed]; omega)
  have hgzip : ∀ b ∈ [zeroBatch 162500], b.gzip.isSome = true := by
    intro b hb
    rw [mem_singleton.mp hb]
    rfl
  have hall := meteredRecords_batches hfits hgzip
  refine ⟨_, _, ?_, hall, decompressed_bounded (inflateZeros 162500) ?_ _ _ hall⟩
  · rw [map_singleton, sum_singleton, zeroBatch_body, length_append,
      length_replicate]
    omega
  · rw [setFrames_batches hfits]
    exact countP_le_length

/-- Two batches of up to `maxDecompressed` zeros are decompressed both. -/
theorem zeroBatch_pair {k : ℕ} (h : 258 * k + 52 ≤ maxDecompressed) (hbig : maxDecompressed < 516 * k) :
    ¬ ∀ out n, meteredRecords (inflateZeros k) ([zeroBatch k, zeroBatch k].flatMap encodeBatch) =
      .ok (out, n) → n ≤ maxDecompressed := by
  intro hall
  have hfits : ∀ b ∈ [zeroBatch k, zeroBatch k], b.Fits (inflateZeros k) ∧ b.gzip.isSome = true := by
    intro b hb
    rw [(mem_replicate (n := 2)).mp hb |>.2]
    exact ⟨zeroBatch_fits h, rfl⟩
  have hle := hall _ _ (meteredRecords_batches (fun b hb => (hfits b hb).1) fun b hb => (hfits b hb).2)
  simp only [map_cons, map_nil, sum_cons, sum_nil, zeroBatch_body,
    length_append, length_replicate] at hle
  omega

/-- Two batches of forty megabytes each, in a set of less than a megabyte. -/
theorem two_streams_produce_twice :
    ([zeroBatch 162500, zeroBatch 162500].flatMap encodeBatch).length ≤ maxFrame ∧
      ¬ ∀ out n, meteredRecords (inflateZeros 162500)
        ([zeroBatch 162500, zeroBatch 162500].flatMap encodeBatch) = .ok (out, n) →
          n ≤ maxDecompressed := by
  constructor
  · have hlen := zeroBatch_length 162500
    rw [flatMap_cons, flatMap_singleton, length_append, maxFrame]
    omega
  · apply zeroBatch_pair
    · rw [maxDecompressed]
      omega
    · rw [maxDecompressed]
      omega

end MonsterMQ.Kafka
