import MonsterMQ.DiskQueue

/-!
# The layout of the disk queue's file

The messages stand in one piece from the committed read position to the write position or, once the writer
has gone back to the start, in two pieces with a marker behind the first.
-/

namespace MonsterMQ.Queue

open LittleEndian ByteFiles List

variable {Msg : Type} (codec : Codec Msg)

def record (m : Msg) : Bytes :=
  match codec.marshal m with
  | none => []
  | some data => putUint32 data.length ++ data

def records (ms : List Msg) : Bytes := ms.flatMap (record codec)

@[grind =] def span (ms : List Msg) : ℕ := (records codec ms).length

@[simp] theorem records_nil : records codec [] = [] := rfl

@[simp] theorem records_append (l l' : List Msg) :
    records codec (l ++ l') = records codec l ++ records codec l' := flatMap_append

theorem records_cons (m : Msg) (l : List Msg) :
    records codec (m :: l) = record codec m ++ records codec l := rfl

@[simp] theorem span_nil : span codec [] = 0 := rfl

@[simp] theorem span_append (l l' : List Msg) : span codec (l ++ l') = span codec l + span codec l' := by
  rw [span, records_append, length_append]
  rfl

theorem span_cons (m : Msg) (l : List Msg) :
    span codec (m :: l) = (record codec m).length + span codec l := by
  rw [span, records_cons, length_append]
  rfl

def Fits (fileSize : ℕ) (m : Msg) : Prop :=
  ∃ data, codec.marshal m = some data ∧ data.length + 4 ≤ fileSize - diskHeaderSize

variable {codec}

theorem record_eq {m : Msg} {data : Bytes} (h : codec.marshal m = some data) :
    record codec m = putUint32 data.length ++ data := by
  rw [record, h]

theorem record_length {m : Msg} {data : Bytes} (h : codec.marshal m = some data) :
    (record codec m).length = data.length + 4 := by
  rw [record_eq h, length_append, putUint32_length, Nat.add_comm]

/-- All messages in one piece. The write position in the file may be old when nothing is stored. -/
structure Straight (codec : Codec Msg) (q : DiskQueue Msg) (c w : ℕ) (u v : List Msg) : Prop where
  data : Holds q.file c (records codec (u ++ v))
  read : q.readPos = c + span codec u
  write : q.writePos = q.readPos + span codec v
  bound : q.writePos ≤ q.fileSize
  header : w = q.writePos ∨ (u = [] ∧ v = [] ∧ c = diskHeaderSize)

/-- The messages `a` up to the marker and the messages `b` from the start. The write position in the
file is old until the first of `b` is written. -/
structure Wrapped (codec : Codec Msg) (q : DiskQueue Msg) (c w : ℕ) (a b : List Msg) : Prop where
  first : Holds q.file c (records codec a)
  marker : Holds q.file (c + span codec a) (putUint32 0)
  start : diskHeaderSize < c + span codec a
  bound : c + span codec a + 4 ≤ q.fileSize
  second : Holds q.file diskHeaderSize (records codec b)
  write : q.writePos = diskHeaderSize + span codec b
  header : (q.writePos ≤ c ∧ w = q.writePos) ∨ (b = [] ∧ w = c + span codec a)

/-- The messages `u` that are not committed and the messages `v` that are not read stand in the
file, and the reader is between them. -/
inductive Stored (codec : Codec Msg) (q : DiskQueue Msg) (c w : ℕ) : List Msg → List Msg → Prop where
  | straight {u v : List Msg} (h : Straight codec q c w u v) : Stored codec q c w u v
  | ahead {u v b : List Msg} (h : Wrapped codec q c w (u ++ v) b)
      (read : q.readPos = c + span codec u) (behind : q.writePos < q.readPos) :
      Stored codec q c w u (v ++ b)
  | behind {a u v : List Msg} (h : Wrapped codec q c w a (u ++ v))
      (read : q.readPos = diskHeaderSize + span codec u) : Stored codec q c w (a ++ u) v

structure Sound (codec : Codec Msg) (q : DiskQueue Msg) (c w : ℕ) (u v : List Msg) : Prop where
  length : q.file.length = q.fileSize
  small : q.fileSize < 2 ^ 32
  room : diskBytesPerMessage ≤ q.fileSize
  readHeader : Holds q.file 0 (putUint32 c)
  writeHeader : Holds q.file 4 (putUint32 w)
  start : diskHeaderSize ≤ c
  wide : w < 2 ^ 32
  fits : ∀ m ∈ u ++ v, Fits codec q.fileSize m
  stored : Stored codec q c w u v

section Dequeue

variable {q : DiskQueue Msg} {c w : ℕ} {u v : List Msg} {m : Msg} {data : Bytes}

theorem readUint32At_of_holds {file : Bytes} {p n : ℕ} (h : Holds file p (putUint32 n))
    (hn : n < 2 ^ 32) : DiskQueue.readUint32At file p = some n := by
  have hne : putUint32 n ≠ [] := by
    intro hnil
    have := congrArg List.length hnil
    rw [putUint32_length] at this
    cases this
  have hle := h.length_le hne
  have hread := h.readAt_eq
  rw [putUint32_length] at hle hread
  rw [DiskQueue.readUint32At, if_pos hle, hread, getUint32_put hn]

theorem take_of_holds (h : Holds q.file q.readPos (record codec m)) (hdata : codec.marshal m = some data) :
    q.take codec data.length = (.ok m, { q with readPos := q.readPos + (record codec m).length }) := by
  rw [record_eq hdata, holds_append_iff, putUint32_length] at h
  rw [DiskQueue.take, h.2.readAt_eq, Nat.sub_self, replicate_zero, append_nil,
    codec.unmarshal_marshal m data hdata, record_length hdata, Nat.add_assoc]

theorem dequeue_of_holds (h : Holds q.file q.readPos (record codec m))
    (hfits : Fits codec q.fileSize m) (hsmall : q.fileSize < 2 ^ 32) (hne : q.readPos ≠ q.writePos) :
    q.dequeue codec = (.ok m, { q with readPos := q.readPos + (record codec m).length }) := by
  obtain ⟨data, hdata, hle⟩ := hfits
  have hsize : Holds q.file q.readPos (putUint32 data.length) := by
    rw [record_eq hdata, holds_append_iff] at h
    exact h.1
  have hpos : data.length ≠ 0 := fun hzero =>
    codec.marshal_ne_nil m data hdata (length_eq_zero_iff.mp hzero)
  rw [DiskQueue.dequeue, if_neg hne, readUint32At_of_holds hsize (by omega)]
  dsimp only
  rw [if_neg hpos, take_of_holds h hdata]

private theorem dequeue_marker_empty (h : Holds q.file q.readPos (putUint32 0)) (hne : q.readPos ≠ q.writePos)
    (hw : q.writePos = diskHeaderSize) :
    q.dequeue codec = (.error .empty, { q with readPos := diskHeaderSize }) := by
  rw [DiskQueue.dequeue, if_neg hne, readUint32At_of_holds h (by decide)]
  dsimp only
  rw [if_pos rfl, if_pos hw]

theorem dequeue_marker_record (h : Holds q.file q.readPos (putUint32 0)) (hne : q.readPos ≠ q.writePos)
    (hw : q.writePos ≠ diskHeaderSize) (hm : Holds q.file diskHeaderSize (record codec m))
    (hfits : Fits codec q.fileSize m) (hsmall : q.fileSize < 2 ^ 32) : q.dequeue codec =
      (.ok m, { q with readPos := diskHeaderSize + (record codec m).length }) := by
  obtain ⟨data, hdata, hle⟩ := hfits
  have hsize : Holds q.file diskHeaderSize (putUint32 data.length) := by
    rw [record_eq hdata, holds_append_iff] at hm
    exact hm.1
  have htake : DiskQueue.take codec { q with readPos := diskHeaderSize } data.length =
      (.ok m, { q with readPos := diskHeaderSize + (record codec m).length }) :=
    take_of_holds hm hdata
  rw [DiskQueue.dequeue, if_neg hne, readUint32At_of_holds h (by decide)]
  dsimp only
  rw [if_pos rfl, if_neg hw, readUint32At_of_holds hsize (by omega)]
  exact htake

theorem Sound.move (h : Sound codec q c w u v) {r : ℕ} {u' v' : List Msg} (heq : u' ++ v' = u ++ v)
    (hs : Stored codec { q with readPos := r } c w u' v') :
    Sound codec { q with readPos := r } c w u' v' where
  length := h.length
  small := h.small
  room := h.room
  readHeader := h.readHeader
  writeHeader := h.writeHeader
  start := h.start
  wide := h.wide
  fits := by
    rw [heq]
    exact h.fits
  stored := hs

theorem Wrapped.moved {a b : List Msg} (h : Wrapped codec q c w a b) (r : ℕ) :
    Wrapped codec { q with readPos := r } c w a b :=
  ⟨h.first, h.marker, h.start, h.bound, h.second, h.write, h.header⟩

theorem dequeue_empty (h : Sound codec q c w u []) :
    ∃ r, q.dequeue codec = (.error .empty, { q with readPos := r }) ∧
      Sound codec { q with readPos := r } c w u [] := by
  have hstay : q.readPos = q.writePos → ∃ r,
      q.dequeue codec = (.error .empty, { q with readPos := r }) ∧
        Sound codec { q with readPos := r } c w u [] := by
    intro heq
    exact ⟨q.readPos, by rw [DiskQueue.dequeue, if_pos heq], h⟩
  generalize hv : ([] : List Msg) = v at h
  cases h.stored with
  | straight hs =>
    subst hv
    exact hstay hs.write.symm
  | @ahead _ v1 b hw hread hbehind =>
    obtain ⟨rfl, rfl⟩ := append_eq_nil_iff.mp hv.symm
    have hmark : Holds q.file q.readPos (putUint32 0) := by
      rw [hread]
      simpa using hw.marker
    refine ⟨diskHeaderSize, dequeue_marker_empty hmark (by omega) hw.write, h.move rfl ?_⟩
    have hwrapped : Wrapped codec { q with readPos := diskHeaderSize } c w u ([] ++ []) := by
      simpa using hw.moved diskHeaderSize
    have := Stored.behind hwrapped rfl
    rwa [append_nil] at this
  | @behind a u2 _ hw hread =>
    subst hv
    apply hstay
    rw [hread, hw.write, append_nil]

theorem dequeue_cons {v : List Msg} (h : Sound codec q c w u (m :: v)) :
    ∃ r, q.dequeue codec = (.ok m, { q with readPos := r }) ∧
      Sound codec { q with readPos := r } c w (u ++ [m]) v := by
  have hfits : Fits codec q.fileSize m := h.fits m (mem_append_right _ mem_cons_self)
  have hpos : 0 < (record codec m).length := by
    obtain ⟨data, hdata, -⟩ := hfits
    rw [record_length hdata]
    omega
  have hlist : (u ++ [m]) ++ v = u ++ m :: v := by simp
  generalize hv : m :: v = l at h
  cases h.stored with
  | straight hs =>
    subst hv
    have hrec : Holds q.file q.readPos (record codec m) := by
      have hdata := hs.data
      rw [records_append, holds_append_iff, records_cons, holds_append_iff] at hdata
      rw [hs.read]
      exact hdata.2.1
    have hwrite := hs.write
    rw [span_cons] at hwrite
    refine ⟨_, dequeue_of_holds hrec hfits h.small (by omega), h.move hlist (.straight ?_)⟩
    refine ⟨hlist ▸ hs.data, ?_, ?_, hs.bound, ?_⟩
    · dsimp only
      rw [span_append, span_cons, span_nil, hs.read]
      omega
    · dsimp only
      omega
    · rcases hs.header with hheader | ⟨-, hnil, -⟩
      · exact .inl hheader
      · cases hnil
  | @ahead _ v1 b hw hread hbehind =>
    cases v1 with
    | cons m' v1 =>
      rw [cons_append] at hv
      obtain ⟨rfl, rfl⟩ := List.cons.inj hv
      have hrec : Holds q.file q.readPos (record codec m) := by
        have hdata := hw.first
        rw [records_append, holds_append_iff, records_cons, holds_append_iff] at hdata
        rw [hread]
        exact hdata.2.1
      refine ⟨_, dequeue_of_holds hrec hfits h.small (by omega), h.move hlist (.ahead ?_ ?_ ?_)⟩
      · have hsplit : (u ++ [m]) ++ v1 = u ++ m :: v1 := by simp
        rw [hsplit]
        exact hw.moved _
      · dsimp only
        rw [span_append, span_cons, span_nil, hread]
        omega
      · dsimp only
        omega
    | nil =>
      rw [nil_append] at hv
      subst hv
      have hmark : Holds q.file q.readPos (putUint32 0) := by
        rw [hread]
        simpa using hw.marker
      have hrec : Holds q.file diskHeaderSize (record codec m) := by
        have hdata := hw.second
        rw [records_cons, holds_append_iff] at hdata
        exact hdata.1
      have hwrite := hw.write
      rw [span_cons] at hwrite
      refine ⟨_, dequeue_marker_record hmark (by omega) (by omega) hrec hfits h.small,
        h.move hlist (.behind ?_ ?_)⟩
      · rw [append_nil] at hw
        exact hw.moved _
      · dsimp only
        rw [span_cons, span_nil]
        omega
  | @behind a u2 _ hw hread =>
    subst hv
    have hrec : Holds q.file q.readPos (record codec m) := by
      have hdata := hw.second
      rw [records_append, holds_append_iff, records_cons, holds_append_iff] at hdata
      rw [hread]
      exact hdata.2.1
    have hwrite := hw.write
    rw [span_append, span_cons] at hwrite
    refine ⟨_, dequeue_of_holds hrec hfits h.small (by omega), h.move hlist ?_⟩
    have hwrapped : Wrapped codec { q with readPos := q.readPos + (record codec m).length } c w a
        ((u2 ++ [m]) ++ v) := by
      have hsplit : (u2 ++ [m]) ++ v = u2 ++ m :: v := by simp
      rw [hsplit]
      exact hw.moved _
    rw [append_assoc]
    refine .behind hwrapped ?_
    dsimp only
    rw [span_append, span_cons, span_nil, hread]
    omega

end Dequeue

section Enqueue

variable {q : DiskQueue Msg} {c w : ℕ} {u v : List Msg} {m : Msg} {data : Bytes}

structure Wrote (codec : Codec Msg) (q q' : DiskQueue Msg) (m : Msg) : Prop where
  length : q'.file.length = q.file.length
  fileSize : q'.fileSize = q.fileSize
  blockSize : q'.blockSize = q.blockSize
  readPos : q'.readPos = q.readPos
  outputBlock : q'.outputBlock = q.outputBlock
  writePos : q'.writePos = q.writePos + (record codec m).length
  record : Holds q'.file q.writePos (record codec m)
  header : Holds q'.file 4 (putUint32 q'.writePos)
  keep : ∀ p bs, Holds q.file p bs → diskHeaderSize ≤ p ∨ p + bs.length ≤ 4 →
    p + bs.length ≤ q.writePos ∨ q.writePos + (Queue.record codec m).length ≤ p → Holds q'.file p bs

theorem writeRecord_wrote (hdata : codec.marshal m = some data) (hstart : diskHeaderSize ≤ q.writePos)
    (hroom : q.writePos + (data.length + 4) ≤ q.file.length) : Wrote codec q (q.writeRecord data) m := by
  have hrec := record_length hdata
  have h8 : diskHeaderSize = 8 := rfl
  have hlen1 : (writeAt q.file q.writePos (putUint32 data.length)).length = q.file.length :=
    length_writeAt (by rw [putUint32_length]; omega)
  have hlen2 : (writeAt (writeAt q.file q.writePos (putUint32 data.length)) (q.writePos + 4)
      data).length = q.file.length := (length_writeAt (by rw [hlen1]; omega)).trans hlen1
  have hroom3 : 4 + (putUint32 (q.writePos + (data.length + 4))).length ≤
      (writeAt (writeAt q.file q.writePos (putUint32 data.length)) (q.writePos + 4) data).length := by
    rw [hlen2, putUint32_length]
    omega
  have hkeep : ∀ p bs, Holds q.file p bs → diskHeaderSize ≤ p ∨ p + bs.length ≤ 4 →
      p + bs.length ≤ q.writePos ∨ q.writePos + (record codec m).length ≤ p →
      Holds (q.writeRecord data).file p bs := by
    intro p bs h hhead hpart
    apply Holds.writeAt _ hroom3 (by rw [putUint32_length]; omega)
    apply Holds.writeAt _ (by rw [hlen1]; omega) (by omega)
    exact h.writeAt (by rw [putUint32_length]; omega) (by rw [putUint32_length]; omega)
  refine ⟨(length_writeAt hroom3).trans hlen2, rfl, rfl, rfl, rfl, by rw [hrec]; rfl, ?_,
    holds_writeAt_self hroom3, hkeep⟩
  rw [record_eq hdata, holds_append_iff, putUint32_length]
  constructor
  · apply Holds.writeAt _ hroom3 (by rw [putUint32_length, putUint32_length]; omega)
    apply Holds.writeAt _ (by rw [hlen1]; omega) (by rw [putUint32_length]; omega)
    exact holds_writeAt_self (by rw [putUint32_length]; omega)
  · apply Holds.writeAt _ hroom3 (by rw [putUint32_length]; omega)
    exact holds_writeAt_self (by rw [hlen1]; omega)

theorem Sound.wrote (h : Sound codec q c w u v) {q' : DiskQueue Msg} (hw : Wrote codec q q' m)
    (hstart : diskHeaderSize ≤ q.writePos) (hend : q'.writePos ≤ q.fileSize)
    (hfits : Fits codec q.fileSize m) (hs : Stored codec q' c q'.writePos u (v ++ [m])) :
    Sound codec q' c q'.writePos u (v ++ [m]) where
  length := by rw [hw.length, hw.fileSize, h.length]
  small := by rw [hw.fileSize]; exact h.small
  room := by rw [hw.fileSize]; exact h.room
  readHeader := by
    have h8 : diskHeaderSize = 8 := rfl
    refine hw.keep _ _ h.readHeader (.inr ?_) (.inl ?_)
    · rw [putUint32_length]
    · rw [putUint32_length]
      omega
  writeHeader := hw.header
  start := h.start
  wide := Nat.lt_of_le_of_lt hend h.small
  fits := by
    intro x hx
    rw [hw.fileSize]
    rw [← append_assoc, mem_append, mem_singleton] at hx
    rcases hx with hx | rfl
    · exact h.fits x hx
    · exact hfits
  stored := hs

theorem Straight.wrote (h : Straight codec q c w u v) (hc : diskHeaderSize ≤ c) {q' : DiskQueue Msg}
    (hw : Wrote codec q q' m) (hbound : q.writePos + (record codec m).length ≤ q.fileSize) :
    Straight codec q' c q'.writePos u (v ++ [m]) where
  data := by
    have hend : c + (records codec (u ++ v)).length = q.writePos := by
      have hspan : (records codec (u ++ v)).length = span codec u + span codec v := span_append codec u v
      rw [hspan, h.write, h.read]
      omega
    rw [← append_assoc, records_append, holds_append_iff, hend]
    refine ⟨hw.keep _ _ h.data (.inl hc) (.inl (by omega)), ?_⟩
    rw [records_cons, records_nil, append_nil]
    exact hw.record
  read := by rw [hw.readPos, h.read]
  write := by
    rw [hw.writePos, hw.readPos, h.write, span_append, span_cons, span_nil]
    omega
  bound := by rw [hw.writePos, hw.fileSize]; exact hbound
  header := .inl rfl

theorem Wrapped.wrote {a b : List Msg} (h : Wrapped codec q c w a b) (hc : diskHeaderSize ≤ c)
    {q' : DiskQueue Msg} (hw : Wrote codec q q' m) (hbelow : q.writePos + (record codec m).length ≤ c) :
    Wrapped codec q' c q'.writePos a (b ++ [m]) where
  first := hw.keep _ _ h.first (.inl hc) (.inr (by omega))
  marker := hw.keep _ _ h.marker (.inl (by omega)) (.inr (by omega))
  start := h.start
  bound := by rw [hw.fileSize]; exact h.bound
  second := by
    have hend : diskHeaderSize + (records codec b).length = q.writePos := h.write.symm
    rw [records_append, holds_append_iff, hend]
    refine ⟨hw.keep _ _ h.second (.inl (Nat.le_refl _)) (.inl (by omega)), ?_⟩
    rw [records_cons, records_nil, append_nil]
    exact hw.record
  write := by
    rw [hw.writePos, h.write, span_append, span_cons, span_nil]
    omega
  header := .inl ⟨by rw [hw.writePos]; exact hbelow, rfl⟩

end Enqueue

end MonsterMQ.Queue
