import MonsterMQ.KafkaFrames

/-!
# Record sets as frames

`decodeBatches` reads the frames of a set as batches and `decodeLegacy` reads them as messages.
-/

namespace MonsterMQ.Kafka

open LittleEndian CheckedReads List

@[grind =] def keep (key value : Option Bytes) : List Record :=
  if (value.getD []).length > 0 then [⟨key, value.getD []⟩] else []

theorem addRecord_eq (out : List Record) (key value : Option Bytes) :
    addRecord out key value = out ++ keep key value := by
  rw [addRecord, keep]
  split
  · rfl
  · rw [append_nil]

section Batches

variable (inflate : Bytes → Option Bytes)

@[grind =] def decodeBatch (batch : Bytes) (out : List Record) : DecodedSet := do
  let magic ← index batch 4
  if magic ≠ 2 then fail (.unexpectedMagic magic)
  let attrs ← slice batch 9 11
  let count ← slice batch 45 49
  let body ← decompress inflate (uint attrs % 8) (← sliceFrom batch 49)
  decodeBody (signed 32 (uint count)).toNat 0 (Reader.new body) out

variable {inflate}

theorem decodeBatch_magic {batch : Bytes} (hmagic : batch[4]? = some 2) (out : List Record) :
    decodeBatch inflate batch out = (do
      let attrs ← slice batch 9 11
      let count ← slice batch 45 49
      let payload ← sliceFrom batch 49
      let body ← decompress inflate (uint attrs % 8) payload
      decodeBody (signed 32 (uint count)).toNat 0 (Reader.new body) out) := by
  rw [decodeBatch, index, hmagic]
  rfl

theorem decodeBatch_bad {batch : Bytes} {magic : UInt8} (hget : batch[4]? = some magic) (hmagic : magic ≠ 2)
    (out : List Record) : decodeBatch inflate batch out = fail (.unexpectedMagic magic) := by
  rw [decodeBatch, index, hget]
  change (if magic ≠ 2 then _ else _) = _
  rw [if_pos hmagic]
  rfl

theorem decodeBatch_fields {batch : Bytes} (hlen : 49 ≤ batch.length) (hmagic : batch[4]? = some 2)
    (out : List Record) : decodeBatch inflate batch out =
      (decompress inflate (uint ((batch.take 11).drop 9) % 8) (batch.drop 49) >>= fun body =>
        decodeBody (signed 32 (uint ((batch.take 49).drop 45))).toNat 0 (Reader.new body) out) := by
  rw [decodeBatch_magic hmagic, slice_of_le (by omega) (by omega), slice_of_le (by omega) (by omega),
    sliceFrom_of_le hlen]
  rfl

theorem decodeBatches_frame {set : Bytes} (h : Complete 49 set) (fuel : ℕ) (out : List Record) :
    decodeBatches inflate (fuel + 1) set out =
      decodeBatch inflate (frameBody set) out >>= decodeBatches inflate fuel (afterFrame set) := by
  obtain ⟨hlen, hmin, hmax⟩ := h
  have hin : ¬ (frameSize set < 49 ∨ 12 + frameSize set > set.length) := by omega
  have hbatch : (slice set 12 (12 + (frameSize set).toNat) : Read RecordError Bytes) = .ok (frameBody set) :=
    slice_of_le (by omega) (by omega)
  have hafter : (sliceFrom set (12 + (frameSize set).toNat) : Read RecordError Bytes) =
      .ok (afterFrame set) := sliceFrom_of_le (by omega)
  have hfour : 4 < (frameBody set).length := by
    rw [Complete.body_length ⟨hlen, hmin, hmax⟩]
    omega
  rw [decodeBatches, if_pos hlen, slice_of_le (by omega) (by omega)]
  change (if frameSize set < 49 ∨ 12 + frameSize set > set.length then _ else _) = _
  rw [if_neg hin, show signed 32 (uint ((set.take 12).drop 8)) = frameSize set from rfl, hbatch]
  change (sliceFrom set (12 + (frameSize set).toNat) >>= fun set => _) = _
  rw [hafter]
  change (index (frameBody set) 4 >>= fun magic => _) = _
  have hget := List.getElem?_eq_getElem hfour
  by_cases hmagic : (frameBody set)[4] = 2
  · rw [hmagic] at hget
    rw [index, hget, decodeBatch_magic hget]
    simp only [bind_assoc]
    rfl
  · rw [index, hget, decodeBatch_bad hget hmagic]
    change (if (frameBody set)[4] ≠ 2 then _ else _) = _
    rw [if_pos hmagic]
    rfl

theorem decodeBatches_stop {set : Bytes} (h : ¬ Complete 49 set) (fuel : ℕ) (out : List Record) :
    decodeBatches inflate (fuel + 1) set out = .ok out := by
  rw [decodeBatches]
  split
  · rename_i hlen
    rw [slice_of_le (by omega) (by omega)]
    change (if frameSize set < 49 ∨ 12 + frameSize set > set.length then _ else _) = _
    rw [if_pos (by
      rw [Complete] at h
      omega)]
    rfl
  · rfl

theorem decodeBatches_eq (fuel : ℕ) (set : Bytes) (out : List Record) :
    decodeBatches inflate fuel set out = readFrames 49 (decodeBatch inflate) fuel set out := by
  induction fuel generalizing set out with
  | zero => rfl
  | succ fuel ih =>
    rw [readFrames]
    split
    · rename_i hcomplete
      rw [decodeBatches_frame hcomplete]
      congr 1
      funext out'
      exact ih _ _
    · rename_i hstop
      exact decodeBatches_stop hstop fuel out

/-- The records of a body that have a value: as many as the count tells, or all up to the end. -/
inductive BodyRead : ℕ → Bytes → List Record → Prop
  | counted {body : Bytes} : BodyRead 0 body []
  | ended {count : ℕ} : BodyRead count [] []
  | record {count : ℕ} {body fields rest : Bytes} {key value : Option Bytes} {recs : List Record}
      (hlen : (Reader.new body).varint = ((fields.length : ℤ), ⟨fields ++ rest, none⟩)) (hpos : 0 < fields.length)
      (hfields : decodeRecord fields = (key, value, none)) (hrest : BodyRead count rest recs) :
      BodyRead (count + 1) body (keep key value ++ recs)

theorem raw_err {r r' : Reader} {n : ℤ} {s : Option Bytes} (h : r.raw n = (s, r')) (hok : r'.err = none) :
    r.err = none := by
  rw [Reader.raw, Reader.take] at h
  split at h
  · cases h
    exact hok
  · rename_i hnone
    rw [Bool.not_eq_true, Option.isSome_eq_false_iff, Option.isNone_iff_eq_none] at hnone
    exact hnone

theorem raw_eq_some {r r' : Reader} {n : ℤ} {s : Option Bytes} (h : r.raw n = (s, r')) (hok : r'.err = none) :
    ∃ b, s = some b ∧ n = b.length ∧ r = ⟨b ++ r'.rest, none⟩ ∧ r' = ⟨r'.rest, none⟩ := by
  have hr := raw_err h hok
  obtain ⟨rest, err⟩ := r
  cases hr
  rw [Reader.raw, Reader.take] at h
  dsimp only at h
  rw [if_neg (by decide)] at h
  split at h
  · cases h
    cases hok
  · rename_i hin
    cases h
    refine ⟨_, rfl, ?_, ?_, rfl⟩
    · rw [length_take]
      omega
    · dsimp only
      rw [take_append_drop]

theorem safe_decodeBody (count : ℕ) : ∀ (i : ℕ) (body : Bytes) (out : List Record),
    Safe (decodeBody count i (Reader.new body) out)
      fun out' => ∃ recs, BodyRead count body recs ∧ out' = out ++ recs := by
  induction count with
  | zero => exact fun i body out => ⟨[], .counted, (append_nil out).symm⟩
  | succ count ih =>
    intro i body out
    rw [decodeBody]
    split
    · cases hlen : (Reader.new body).varint with
      | mk n r =>
        cases hraw : r.raw n with
        | mk rec r' =>
          dsimp only
          rw [hraw]
          dsimp only
          split
          · trivial
          · rename_i hok
            rw [not_or, Bool.not_eq_true, Option.isSome_eq_false_iff, Option.isNone_iff_eq_none] at hok
            obtain ⟨fields, rfl, rfl, rfl, hr'⟩ := raw_eq_some hraw hok.1
            rw [Option.getD_some]
            cases hfields : decodeRecord fields with
            | mk key valueErr =>
              obtain ⟨value, err⟩ := valueErr
              dsimp only
              split
              · trivial
              · rw [hr']
                refine safe_mono (ih (i + 1) r'.rest _) ?_
                rintro out' ⟨recs, hrecs, rfl⟩
                refine ⟨keep key value ++ recs, .record hlen (by omega) hfields hrecs, ?_⟩
                rw [addRecord_eq, append_assoc]
    · rename_i hend
      have hnil : body = [] := eq_nil_of_length_eq_zero (Nat.le_zero.mp (Nat.not_lt.mp hend))
      rw [hnil]
      exact ⟨[], .ended, (append_nil out).symm⟩

variable (inflate) in
/-- The body of a batch or a wrapped set: the bytes themselves or what their GZIP stream gives. -/
def Unpacked (codec : ℕ) (payload body : Bytes) : Prop :=
  (codec = 0 ∧ body = payload) ∨
    (codec = 1 ∧ inflate payload = some body ∧ body.length ≤ maxDecompressed)

theorem safe_gunzip (p : Bytes) :
    Safe (gunzip inflate p) fun body => inflate p = some body ∧ body.length ≤ maxDecompressed := by
  rw [gunzip]
  split
  · trivial
  · rename_i body hbody
    split
    · trivial
    · rename_i hsize
      exact ⟨hbody, Nat.not_lt.mp hsize⟩

private theorem safe_decompress (codec : ℕ) (payload : Bytes) :
    Safe (decompress inflate codec payload) (Unpacked inflate codec payload) := by
  rw [decompress]
  split
  · rename_i hcodec
    exact .inl ⟨hcodec, rfl⟩
  · split
    · rename_i hcodec
      exact safe_mono (safe_gunzip payload) fun body hbody => .inr ⟨hcodec, hbody⟩
    · trivial

variable (inflate) in
/-- A batch that has been read: its body up to the count. -/
def BatchRead (batch : Bytes) (out out' : List Record) : Prop :=
  batch[4]? = some 2 ∧
    ∃ body recs, Unpacked inflate (uint ((batch.take 11).drop 9) % 8) (batch.drop 49) body ∧
      BodyRead (signed 32 (uint ((batch.take 49).drop 45))).toNat body recs ∧ out' = out ++ recs

theorem safe_decodeBatch {batch : Bytes} (hlen : 49 ≤ batch.length) (out : List Record) :
    Safe (decodeBatch inflate batch out) (BatchRead inflate batch out) := by
  have hget : batch[4]? = some batch[4] := List.getElem?_eq_getElem (by omega)
  by_cases hmagic : batch[4] = 2
  · rw [hmagic] at hget
    rw [decodeBatch_fields hlen hget]
    apply safe_bind (safe_decompress _ _)
    intro body hbody
    refine safe_mono (safe_decodeBody _ 0 body out) ?_
    rintro out' ⟨recs, hrecs, rfl⟩
    exact ⟨hget, body, recs, hbody, hrecs, rfl⟩
  · rw [decodeBatch_bad hget hmagic]
    trivial

private theorem safe_decodeBatches {set : Bytes} {fuel : ℕ} (hfuel : set.length < fuel) (out : List Record) :
    Safe (decodeBatches inflate fuel set out) (Framed 49 (BatchRead inflate) set out) := by
  rw [decodeBatches_eq]
  exact safe_readFrames (fun batch out hlen => safe_decodeBatch hlen out) fuel set out hfuel

end Batches

structure MessageFields where
  magic : ℤ
  attrs : ℤ
  key : Option Bytes
  value : Option Bytes
  err : Option ReadError
  deriving DecidableEq, Repr

def messageFields (m : Bytes) : MessageFields :=
  let m := Reader.new m
  let (_, m) := m.int32
  let (magic, m) := m.int8
  let (attrs, m) := m.int8
  let m := if magic = 1 then m.int64.2 else m
  let (key, m) := m.bytes
  let (val, m) := m.bytes
  ⟨magic, attrs, key, val, m.err⟩

/-- What the loop does with the fields of a message; `wrapped` reads a compressed set inside. -/
@[grind =]
def decodeFields (wrapped : Bytes → List Record → DecodedSet) (f : MessageFields) (out : List Record) :
    DecodedSet :=
  match f.err with
  | some e => fail (.message e)
  | none =>
    if f.attrs % 4 = 0 then .ok (addRecord out f.key f.value)
    else if f.attrs % 4 = 1 then wrapped (f.value.getD []) out
    else fail (.unsupportedCodec (f.attrs % 4).toNat)

@[grind =] def decodeMessage (wrapped : Bytes → List Record → DecodedSet) (m : Bytes) (out : List Record) :
    DecodedSet := decodeFields wrapped (messageFields m) out

section Messages

variable {wrapped : Bytes → List Record → DecodedSet}

private theorem decodeFields_bind (f : MessageFields) (out : List Record) (k : List Record → DecodedSet) :
    (decodeFields wrapped f out >>= k) =
      match f.err with
      | some e => fail (.message e)
      | none =>
        if f.attrs % 4 = 0 then k (addRecord out f.key f.value)
        else if f.attrs % 4 = 1 then wrapped (f.value.getD []) out >>= k
        else fail (.unsupportedCodec (f.attrs % 4).toNat) := by
  rw [decodeFields]
  split
  · rfl
  · split
    · rfl
    · split
      · rfl
      · rfl

theorem int64_int32_eq {set : Bytes} (hlen : 12 ≤ set.length) :
    ((Reader.mk set none).int64.2.int32) = (frameSize set, ⟨set.drop 12, none⟩) := by
  have hset : set = set.take 8 ++ ((set.take 12).drop 8 ++ set.drop 12) := by
    have h12 : (set.take 12).drop 8 ++ set.drop 12 = set.drop 8 := by
      rw [drop_take, show set.drop 12 = (set.drop 8).drop 4 by rw [drop_drop]]
      exact take_append_drop 4 _
    rw [h12, take_append_drop]
  have hfirst : (set.take 8).length = 8 := by
    rw [length_take]
    omega
  have hsecond : ((set.take 12).drop 8).length = 4 := by
    rw [slice_length hlen]
  conv_lhs => rw [hset]
  rw [Reader.int64, Reader.int_append hfirst]
  dsimp only
  rw [Reader.int32, Reader.int_append hsecond]
  rfl

theorem decodeMessages_stop {set : Bytes} (h : ¬ Complete 1 set) (fuel : ℕ) (out : List Record) :
    decodeMessages wrapped (fuel + 1) ⟨set, none⟩ out = .ok out := by
  rw [decodeMessages]
  split
  · rename_i hlen
    have hsize := int64_int32_eq hlen
    cases h64 : (Reader.mk set none).int64 with
    | mk offset r =>
      rw [h64] at hsize
      dsimp only at hsize ⊢
      rw [hsize]
      dsimp only
      rw [if_pos]
      · rfl
      · rw [Complete] at h
        rw [Reader.remaining] at hlen ⊢
        rw [length_drop]
        omega
  · rfl

theorem decodeMessages_frame {set : Bytes} (h : Complete 1 set) (fuel : ℕ) (out : List Record) :
    decodeMessages wrapped (fuel + 1) ⟨set, none⟩ out =
      decodeMessage wrapped (frameBody set) out >>= fun out =>
        decodeMessages wrapped fuel ⟨afterFrame set, none⟩ out := by
  obtain ⟨hlen, hmin, hmax⟩ := h
  have hsize := int64_int32_eq (by omega : 12 ≤ set.length)
  have hbody : frameBody set = (set.drop 12).take (frameSize set).toNat := by
    rw [frameBody, drop_take, Nat.add_sub_cancel_left]
  have hafter : afterFrame set = (set.drop 12).drop (frameSize set).toNat := by
    rw [afterFrame, drop_drop]
  have hraw : (Reader.mk (set.drop 12) none).raw (frameSize set) =
      (some (frameBody set), ⟨afterFrame set, none⟩) := by
    rw [Reader.raw, Reader.take, if_neg (fun hsome => by cases hsome),
      if_neg (by rw [length_drop]; omega), hbody, hafter]
  have henough : (Reader.mk set none).remaining ≥ 12 := by
    change set.length ≥ 12
    omega
  rw [decodeMessages, if_pos henough]
  cases h64 : (Reader.mk set none).int64 with
  | mk offset r =>
    rw [h64] at hsize
    dsimp only at hsize ⊢
    rw [hsize]
    dsimp only
    rw [if_neg (by rw [Reader.remaining, length_drop]; omega), hraw]
    dsimp only
    rw [Option.getD_some, decodeMessage, decodeFields_bind]
    rfl

theorem decodeMessages_eq (fuel : ℕ) (set : Bytes) (out : List Record) :
    decodeMessages wrapped fuel ⟨set, none⟩ out = readFrames 1 (decodeMessage wrapped) fuel set out := by
  induction fuel generalizing set out with
  | zero => rfl
  | succ fuel ih =>
    rw [readFrames]
    split
    · rename_i hcomplete
      rw [decodeMessages_frame hcomplete]
      congr 1
      funext out'
      exact ih _ _
    · rename_i hstop
      exact decodeMessages_stop hstop fuel out

/-- A message that has been read. Nothing is said of a message of another version than 0 and 1, which the
decoder takes for one of version 0. -/
def MessageRead (Wrapped : Bytes → List Record → List Record → Prop) (m : Bytes)
    (out out' : List Record) : Prop :=
  let f := messageFields m
  f.magic = 0 ∨ f.magic = 1 → f.err = none ∧
    ((f.attrs % 4 = 0 ∧ out' = out ++ keep f.key f.value) ∨
      (f.attrs % 4 = 1 ∧ Wrapped (f.value.getD []) out out'))

private theorem safe_decodeMessage {Wrapped : Bytes → List Record → List Record → Prop}
    (hwrapped : ∀ val out, Safe (wrapped val out) (Wrapped val out)) (m : Bytes) (out : List Record) :
    Safe (decodeMessage wrapped m out) (MessageRead Wrapped m out) := by
  rw [decodeMessage, decodeFields]
  split
  · trivial
  · rename_i herr
    split
    · rename_i hplain
      exact fun _ => ⟨herr, .inl ⟨hplain, addRecord_eq _ _ _⟩⟩
    · split
      · rename_i hgzip
        exact safe_mono (hwrapped _ out) fun out' hout _ => ⟨herr, .inr ⟨hgzip, hout⟩⟩
      · trivial

theorem safe_decodeMessages {Wrapped : Bytes → List Record → List Record → Prop}
    (hwrapped : ∀ val out, Safe (wrapped val out) (Wrapped val out)) (set : Bytes) (out : List Record) :
    Safe (decodeMessages wrapped (set.length + 1) (Reader.new set) out)
      (Framed 1 (MessageRead Wrapped) set out) := by
  rw [Reader.new, decodeMessages_eq]
  exact safe_readFrames (fun m out _ => safe_decodeMessage hwrapped m out) _ set out (Nat.lt_succ_self _)

def InnerRead (set : Bytes) (out out' : List Record) : Prop :=
  Framed 1 (MessageRead fun _ _ _ => False) set out out'

theorem safe_decodeInner (set : Bytes) (out : List Record) : Safe (decodeInner set out) (InnerRead set out) :=
  safe_decodeMessages (fun _ _ => safe_fail) set out

def WrappedRead (inflate : Bytes → Option Bytes) (val : Bytes) (out out' : List Record) : Prop :=
  ∃ set, inflate val = some set ∧ set.length ≤ maxDecompressed ∧ InnerRead set out out'

variable {inflate : Bytes → Option Bytes}

private theorem safe_decodeLegacy (set : Bytes) (out : List Record) :
    Safe (decodeLegacy inflate set out) (Framed 1 (MessageRead (WrappedRead inflate)) set out) := by
  apply safe_decodeMessages
  intro val out
  apply safe_bind (safe_gunzip val)
  intro set hset
  exact safe_mono (safe_decodeInner set out) fun out' hout => ⟨set, hset.1, hset.2, hout⟩

variable (inflate) in
/-- Every complete frame of a set has been read, up to the first one that is not: as a batch when the
set begins with one, and otherwise as a message. -/
@[grind =] def SetRead (set : Bytes) (out : List Record) : Prop :=
  if set.length ≥ 17 ∧ set[16]? = some 2 then Framed 49 (BatchRead inflate) set [] out
  else Framed 1 (MessageRead (WrappedRead inflate)) set [] out

/-- Whatever the bytes are, `DecodeRecords` ends without a panic. -/
theorem safe_decodeRecords (set : Bytes) : Safe (decodeRecords inflate set) (SetRead inflate set) := by
  rw [decodeRecords]
  split
  · rename_i hbatch
    exact safe_mono (safe_decodeBatches (Nat.lt_succ_self _) []) fun out hout => by
      rw [SetRead, if_pos hbatch]
      exact hout
  · rename_i hlegacy
    exact safe_mono (safe_decodeLegacy set []) fun out hout => by
      rw [SetRead, if_neg hlegacy]
      exact hout

end Messages

end MonsterMQ.Kafka
