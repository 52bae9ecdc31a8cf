import MonsterMQ.DiskQueueLayout

/-!
# What the calls of the disk queue do

Each call takes a layout to a layout: an `Add` with room appends its message or refuses it, a poll
hands out the next messages and a commit forgets those that were handed out.
-/

namespace MonsterMQ.Queue

open LittleEndian ByteFiles List

variable {Msg : Type} {codec : Codec Msg}

namespace DiskQueue

def committedPos (q : DiskQueue Msg) : ℕ := getUint32 (readAt q.file 0 4)

def writtenPos (q : DiskQueue Msg) : ℕ := getUint32 (readAt q.file 4 4)

/-- The messages that are not committed or not read go round the end of the file, or the reader has come
round it and nothing is committed since. -/
def Around (q : DiskQueue Msg) : Prop :=
  q.writePos < q.readPos ∨ q.readPos < q.committedPos ∨
    (q.outputBlock ≠ [] ∧ q.readPos = q.committedPos)

/-- A record of this size may be added. To go back to the start, nothing may stand there: the
reader has left it, the messages do not go round already, the marker fits, and a record that is
written there does not reach over the committed read position. A record behind messages that go
round does not reach over the committed read position either, or is refused. -/
def Room (q : DiskQueue Msg) (size : ℕ) : Prop :=
  if q.writePos + size > q.fileSize then
    ¬ q.Around ∧ q.readPos ≠ diskHeaderSize ∧ q.writePos + 4 ≤ q.fileSize ∧
      (diskHeaderSize + size < q.readPos → diskHeaderSize + size ≤ q.committedPos)
  else
    q.Around → q.writePos + size ≤ q.committedPos ∨
      (q.writePos < q.readPos ∧ q.readPos ≤ q.writePos + size)

instance decidableAround (q : DiskQueue Msg) : Decidable q.Around :=
  have : Decidable (q.outputBlock ≠ []) := decidable_of_iff (¬ q.outputBlock.isEmpty) (by simp)
  inferInstanceAs (Decidable (_ ∨ _ ∨ (_ ∧ _)))

instance decidableRoom (q : DiskQueue Msg) (size : ℕ) : Decidable (q.Room size) :=
  inferInstanceAs (Decidable (if q.writePos + size > q.fileSize then _ ∧ _ ∧ _ ∧ (_ → _)
    else q.Around → _ ∨ _))

end DiskQueue

section Enqueue

variable {q : DiskQueue Msg} {c w : ℕ} {v : List Msg} {m : Msg} {data : Bytes}

theorem getUint32_of_holds {file : Bytes} {p n : ℕ} (h : Holds file p (putUint32 n))
    (hn : n < 2 ^ 32) : getUint32 (readAt file p 4) = n := by
  have hread := h.readAt_eq
  rw [putUint32_length] at hread
  rw [hread, getUint32_put hn]

theorem Stored.pos_le {u : List Msg} (h : Stored codec q c w u v) : c ≤ q.fileSize := by
  cases h with
  | straight h =>
    have hread := h.read
    have hwrite := h.write
    have hbound := h.bound
    omega
  | ahead h | behind h =>
    have hbound := h.bound
    omega

theorem Sound.committedPos_eq {u : List Msg} (h : Sound codec q c w u v) : q.committedPos = c :=
  getUint32_of_holds h.readHeader (Nat.lt_of_le_of_lt h.stored.pos_le h.small)

theorem Sound.writtenPos_eq {u : List Msg} (h : Sound codec q c w u v) : q.writtenPos = w :=
  getUint32_of_holds h.writeHeader h.wide

theorem Sound.straight_of_not_around (h : Sound codec q c w q.outputBlock v) (hn : ¬ q.Around) :
    Straight codec q c w q.outputBlock v := by
  have hpos := h.committedPos_eq
  rw [DiskQueue.Around, hpos, not_or, not_or, not_and] at hn
  obtain ⟨hread, hcommit, hblock⟩ := hn
  generalize hu : q.outputBlock = u at h hblock
  cases h.stored with
  | straight hs => exact hs
  | ahead hw hr hlt => exact absurd hlt hread
  | @behind a u2 _ hw hr =>
    have hwrite := hw.write
    have hstart := hw.start
    rw [span_append] at hwrite
    have heq : q.readPos = c := by
      rcases hw.header with ⟨hle, -⟩ | ⟨hnil, -⟩
      · omega
      · obtain ⟨rfl, rfl⟩ := append_eq_nil_iff.mp hnil
        have hc := h.start
        rw [span_nil] at hr
        omega
    have hne : a ++ u2 ≠ [] := by
      intro hnil
      obtain ⟨rfl, rfl⟩ := append_eq_nil_iff.mp hnil
      rw [span_nil] at hr hstart
      omega
    exact absurd heq (hblock hne)

theorem Sound.around_of_behind {a u2 : List Msg} (h : Sound codec q c w q.outputBlock v)
    (hu : q.outputBlock = a ++ u2) (hw : Wrapped codec q c w a (u2 ++ v))
    (hr : q.readPos = diskHeaderSize + span codec u2) : q.Around := by
  by_contra hn
  have hs := h.straight_of_not_around hn
  have hread := hs.read
  have hwrite := hw.write
  have hstart := hw.start
  have hc := h.start
  rw [hu, span_append] at hread
  rw [span_append] at hwrite
  rcases hw.header with ⟨hlt, -⟩ | ⟨hnil, -⟩
  · omega
  · obtain ⟨rfl, rfl⟩ := append_eq_nil_iff.mp hnil
    rw [span_nil] at hr hread
    omega

private theorem size_eq_zero (h : q.writePos = q.readPos) : q.size = 0 := by
  rw [DiskQueue.size, if_pos (Nat.le_of_eq h.symm), h, Nat.sub_self, Nat.zero_div]

def SameSizes (q q' : DiskQueue Msg) : Prop := q'.fileSize = q.fileSize ∧ q'.blockSize = q.blockSize

theorem SameSizes.rfl : SameSizes q q := ⟨Eq.refl _, Eq.refl _⟩

def Added (codec : Codec Msg) (q : DiskQueue Msg) (c : ℕ) (v : List Msg) (m : Msg)
    (r : Bool × DiskQueue Msg) : Prop :=
  r.2.outputBlock = q.outputBlock ∧ SameSizes q r.2 ∧
    ∃ w, Sound codec r.2 c w q.outputBlock (if r.1 then v ++ [m] else v)

theorem writeRecord_added {q₁ : DiskQueue Msg} (h : Sound codec q₁ c w q.outputBlock v)
    (hblock : q₁.outputBlock = q.outputBlock) (hsize : SameSizes q q₁)
    (hdata : codec.marshal m = some data) (hfits : Fits codec q₁.fileSize m)
    (hstart : diskHeaderSize ≤ q₁.writePos) (hroom : q₁.writePos + (data.length + 4) ≤ q₁.fileSize)
    (hs : ∀ q', Wrote codec q₁ q' m → Stored codec q' c q'.writePos q.outputBlock (v ++ [m])) :
    Added codec q c v m (true, q₁.writeRecord data) := by
  have hw := writeRecord_wrote hdata hstart (by rw [h.length]; exact hroom)
  refine ⟨hw.outputBlock.trans hblock, ⟨hw.fileSize.trans hsize.1, hw.blockSize.trans hsize.2⟩,
    (q₁.writeRecord data).writePos, ?_⟩
  rw [if_pos rfl]
  apply h.wrote hw hstart _ hfits (hs _ hw)
  rw [hw.writePos, record_length hdata]
  exact hroom

section

variable (h : Sound codec q c w q.outputBlock v)
include h

theorem add_here (hdata : codec.marshal m = some data)
    (hfits : Fits codec q.fileSize m) (hend : q.writePos + (data.length + 4) ≤ q.fileSize)
    (hroom : q.Around → q.writePos + (data.length + 4) ≤ c ∨
      (q.writePos < q.readPos ∧ q.readPos ≤ q.writePos + (data.length + 4))) :
    Added codec q c v m
      (if q.writePos < q.readPos ∧ q.writePos + (data.length + 4) ≥ q.readPos then (false, q)
      else if q.writePos = q.readPos ∧ q.size > 0 then (false, q)
      else (true, q.writeRecord data)) := by
  have hrec := record_length hdata
  have hc := h.start
  split
  · exact ⟨rfl, .rfl, w, h⟩
  rename_i hfull
  rw [if_neg]
  swap
  · rintro ⟨heq, hpos⟩
    rw [size_eq_zero heq] at hpos
    exact absurd hpos (Nat.lt_irrefl 0)
  generalize hu : q.outputBlock = u at h
  cases h.stored with
  | straight hs =>
    have hread := hs.read
    have hwrite := hs.write
    subst hu
    apply writeRecord_added h rfl .rfl hdata hfits (by omega) hend
    intro q' hw
    exact .straight (hs.wrote hc hw (by omega))
  | @ahead _ v1 b hw hr hlt =>
    have hwrite := hw.write
    have hbelow : q.writePos + (data.length + 4) ≤ c := by
      rcases hroom (.inl hlt) with hbelow | hrefused
      · exact hbelow
      · exact absurd hrefused hfull
    subst hu
    apply writeRecord_added h rfl .rfl hdata hfits (by omega) hend
    intro q' hq'
    rw [append_assoc]
    refine .ahead (hw.wrote hc hq' (by omega)) (hq'.readPos.trans hr) ?_
    rw [hq'.writePos, hq'.readPos]
    omega
  | @behind a u2 _ hw hr =>
    have hwrite := hw.write
    rw [span_append] at hwrite
    have haround := Sound.around_of_behind (hu.symm ▸ h) hu hw hr
    have hbelow : q.writePos + (data.length + 4) ≤ c := by
      rcases hroom haround with hbelow | hrefused
      · exact hbelow
      · omega
    have hblock : (a ++ u2) = q.outputBlock := hu.symm
    rw [hblock] at h
    apply writeRecord_added h rfl .rfl hdata hfits (by omega) hend
    intro q' hq'
    rw [hu]
    refine .behind ?_ (hq'.readPos.trans hr)
    rw [← append_assoc]
    exact hw.wrote hc hq' (by omega)

theorem marked_sound (hs : Straight codec q c w q.outputBlock v)
    (hread : q.readPos ≠ diskHeaderSize) (hmark : q.writePos + 4 ≤ q.fileSize) :
    Wrapped codec { q.writeUint32At q.writePos 0 with writePos := diskHeaderSize } c w
        (q.outputBlock ++ v) [] ∧
      Sound codec { q.writeUint32At q.writePos 0 with writePos := diskHeaderSize } c w
        q.outputBlock v := by
  have h8 : diskHeaderSize = 8 := rfl
  have hc := h.start
  have hr := hs.read
  have hw := hs.write
  have hspan : span codec (q.outputBlock ++ v) = span codec q.outputBlock + span codec v :=
    span_append codec _ _
  have hspan' : (records codec (q.outputBlock ++ v)).length = span codec q.outputBlock + span codec v :=
    hspan
  have hroom : q.writePos + (putUint32 0).length ≤ q.file.length := by
    rw [h.length, putUint32_length]
    exact hmark
  have hend : c + span codec (q.outputBlock ++ v) = q.writePos := by omega
  have hwrapped : Wrapped codec { q.writeUint32At q.writePos 0 with writePos := diskHeaderSize } c w
      (q.outputBlock ++ v) [] := by
    refine ⟨?_, ?_, by omega, by rw [hend]; exact hmark, holds_nil _ _, rfl, .inr ⟨rfl, ?_⟩⟩
    · exact hs.data.writeAt hroom (.inl (by omega))
    · rw [hend]
      exact holds_writeAt_self hroom
    · rcases hs.header with hheader | ⟨hu, -, hceq⟩
      · rw [hend, hheader]
      · rw [hu, span_nil] at hr
        omega
  refine ⟨hwrapped, (length_writeAt hroom).trans h.length, h.small, h.room, ?_, ?_, hc, h.wide, h.fits, ?_⟩
  · exact h.readHeader.writeAt hroom (.inl (by rw [putUint32_length]; omega))
  · exact h.writeHeader.writeAt hroom (.inl (by rw [putUint32_length]; omega))
  · have hahead := Stored.ahead hwrapped hr (show diskHeaderSize < q.readPos by omega)
    rwa [append_nil] at hahead

theorem add_at_start (hdata : codec.marshal m = some data)
    (hfits : Fits codec q.fileSize m) (hsize : data.length + 4 ≤ q.fileSize - diskHeaderSize)
    (hn : ¬ q.Around) (hread : q.readPos ≠ diskHeaderSize) (hmark : q.writePos + 4 ≤ q.fileSize)
    (hbelow : diskHeaderSize + (data.length + 4) < q.readPos → diskHeaderSize + (data.length + 4) ≤ c)
    {q₁ : DiskQueue Msg} (hq₁ : q₁ = { q.writeUint32At q.writePos 0 with writePos := diskHeaderSize }) :
    Added codec q c v m
      (if q₁.writePos < q₁.readPos ∧ q₁.writePos + (data.length + 4) ≥ q₁.readPos then (false, q₁)
      else if q₁.writePos = q₁.readPos ∧ q₁.size > 0 then (false, q₁)
      else (true, q₁.writeRecord data)) := by
  have hc := h.start
  have hs := h.straight_of_not_around hn
  have hr := hs.read
  have hrec := record_length hdata
  have hroom := h.room
  have h2048 : diskBytesPerMessage = 2048 := rfl
  have h8 : diskHeaderSize = 8 := rfl
  obtain ⟨hwrapped, hsound⟩ := marked_sound h hs hread hmark
  have hwpos : q₁.writePos = diskHeaderSize := by rw [hq₁]
  have hrpos : q₁.readPos = q.readPos := by rw [hq₁]; rfl
  have hfile : q₁.fileSize = q.fileSize := by rw [hq₁]; rfl
  have hblock : q₁.outputBlock = q.outputBlock := by rw [hq₁]; rfl
  have hbsize : SameSizes q q₁ := ⟨hfile, by rw [hq₁]; rfl⟩
  rw [← hq₁] at hwrapped hsound
  rw [hwpos, hrpos]
  split
  · exact ⟨hblock, hbsize, w, hsound⟩
  rename_i hfull
  rw [if_neg (by omega)]
  have hlow : diskHeaderSize + (data.length + 4) ≤ c := hbelow (by omega)
  apply writeRecord_added hsound hblock hbsize hdata (hfile ▸ hfits) (by omega) (by omega)
  intro q' hw
  have hahead := Stored.ahead (hwrapped.wrote hc hw (by omega)) (hw.readPos.trans (hrpos.trans hr))
    (by rw [hw.writePos, hw.readPos]; omega)
  rwa [nil_append] at hahead

/-- An `Add` with room appends the message or refuses it, and leaves everything else. -/
theorem enqueue_added
    (hroom : ∀ data, codec.marshal m = some data → data.length + 4 ≤ q.fileSize - diskHeaderSize →
      q.Room (data.length + 4)) : Added codec q c v m (q.enqueue codec m) := by
  rw [DiskQueue.enqueue]
  cases hdata : codec.marshal m with
  | none => exact ⟨rfl, .rfl, w, h⟩
  | some data =>
    dsimp only
    split
    · exact ⟨rfl, .rfl, w, h⟩
    rename_i hlarge
    have hsize : data.length + 4 ≤ q.fileSize - diskHeaderSize := by omega
    have hfits : Fits codec q.fileSize m := ⟨data, hdata, hsize⟩
    have hroom := hroom data hdata hsize
    rw [DiskQueue.Room, h.committedPos_eq] at hroom
    by_cases hwrap : q.writePos + (data.length + 4) > q.fileSize
    · rw [if_pos hwrap] at hroom
      obtain ⟨hn, hread, hmark, hbelow⟩ := hroom
      have hq₁ : q.wrap (data.length + 4) =
          { q.writeUint32At q.writePos 0 with writePos := diskHeaderSize } := by
        rw [DiskQueue.wrap, if_pos hwrap]
      exact add_at_start h hdata hfits hsize hn hread hmark hbelow hq₁
    · rw [if_neg hwrap] at hroom
      have hq₁ : q.wrap (data.length + 4) = q := by
        rw [DiskQueue.wrap, if_neg hwrap]
      rw [hq₁]
      exact add_here h hdata hfits (by omega) hroom

end

end Enqueue

section Poll

variable {q : DiskQueue Msg} {c w : ℕ} {v : List Msg}

theorem Sound.relabel {u : List Msg} (h : Sound codec q c w u v) (block : List Msg) (full : Bool) :
    Sound codec { q with outputBlock := block, queueFull := full } c w u v where
  length := h.length
  small := h.small
  room := h.room
  readHeader := h.readHeader
  writeHeader := h.writeHeader
  start := h.start
  wide := h.wide
  fits := h.fits
  stored := by
    cases h.stored with
    | straight hs => exact .straight ⟨hs.data, hs.read, hs.write, hs.bound, hs.header⟩
    | ahead hw hr hlt =>
      exact .ahead ⟨hw.first, hw.marker, hw.start, hw.bound, hw.second, hw.write, hw.header⟩ hr hlt
    | behind hw hr =>
      exact .behind ⟨hw.first, hw.marker, hw.start, hw.bound, hw.second, hw.write, hw.header⟩ hr

theorem pollMore_spec (n : ℕ) : ∀ {q : DiskQueue Msg} {v : List Msg}, Sound codec q c w q.outputBlock v →
    (DiskQueue.pollMore codec n q).outputBlock = q.outputBlock ++ v.take n ∧
      SameSizes q (DiskQueue.pollMore codec n q) ∧
      Sound codec (DiskQueue.pollMore codec n q) c w (q.outputBlock ++ v.take n) (v.drop n) := by
  induction n with
  | zero =>
    intro q v h
    rw [DiskQueue.pollMore, take_zero, append_nil, drop_zero]
    exact ⟨rfl, .rfl, h⟩
  | succ n ih =>
    intro q v h
    cases v with
    | nil =>
      obtain ⟨r, hd, hsound⟩ := dequeue_empty h
      rw [DiskQueue.pollMore, hd, take_nil, append_nil, drop_nil]
      exact ⟨rfl, .rfl, hsound⟩
    | cons m v =>
      obtain ⟨r, hd, hsound⟩ := dequeue_cons h
      obtain ⟨hblock, hsize, hmore⟩ := ih (hsound.relabel (q.outputBlock ++ [m]) q.queueFull)
      rw [DiskQueue.pollMore, hd, take_succ_cons, drop_succ_cons]
      dsimp only at hblock hsize hmore ⊢
      rw [append_assoc] at hblock hmore
      exact ⟨hblock, hsize, hmore⟩

theorem pollBlock_spec (h : Sound codec q c w q.outputBlock v) (hpos : 0 < q.blockSize) :
    SameSizes q (q.pollBlock codec) ∧ (q.pollBlock codec).outputBlock =
      (if q.outputBlock = [] then v.take q.blockSize else q.outputBlock) ∧
    Sound codec (q.pollBlock codec) c w (q.pollBlock codec).outputBlock
      (if q.outputBlock = [] then v.drop q.blockSize else v) := by
  rw [DiskQueue.pollBlock]
  by_cases hempty : q.outputBlock = []
  · rw [if_neg (not_not.mpr hempty), if_pos hempty, if_pos hempty]
    cases v with
    | nil =>
      obtain ⟨r, hd, hsound⟩ := dequeue_empty h
      obtain ⟨r', hd', hsound'⟩ := dequeue_empty hsound
      rw [hd]
      dsimp only
      rw [hd', take_nil, drop_nil]
      exact ⟨.rfl, hempty, hsound'⟩
    | cons m v =>
      obtain ⟨r, hd, hsound⟩ := dequeue_cons h
      obtain ⟨hblock, hsize, hmore⟩ :=
        pollMore_spec (q.blockSize - 1) (hsound.relabel (q.outputBlock ++ [m]) q.queueFull)
      obtain ⟨n, hn⟩ := Nat.exists_eq_succ_of_ne_zero (Nat.pos_iff_ne_zero.mp hpos)
      rw [hd]
      dsimp only
      rw [DiskQueue.pollFrom]
      dsimp only at hblock hsize hmore ⊢
      rw [hn, Nat.succ_sub_one] at hblock hsize hmore ⊢
      have hlist : q.outputBlock ++ [m] ++ v.take n = m :: v.take n := by
        rw [hempty]
        rfl
      rw [hlist] at hblock hmore
      rw [take_succ_cons, drop_succ_cons, hblock]
      exact ⟨⟨hsize.1, hsize.2.trans hn.symm⟩, rfl, hmore⟩
  · rw [if_pos hempty, if_neg hempty, if_neg hempty]
    exact ⟨.rfl, rfl, h⟩

theorem dequeue_error (h : Sound codec q c w q.outputBlock v) {e : DiskQueue.DequeueError}
    (he : (q.dequeue codec).1 = .error e) : e = .empty ∧ v = [] := by
  cases v with
  | nil =>
    obtain ⟨r, hd, -⟩ := dequeue_empty h
    rw [hd] at he
    exact ⟨(Except.error.inj he).symm, rfl⟩
  | cons m v =>
    obtain ⟨r, hd, -⟩ := dequeue_cons h
    rw [hd] at he
    cases he

end Poll

section Commit

variable {q : DiskQueue Msg} {c w : ℕ} {u v : List Msg}

theorem Sound.readPos_bounds (h : Sound codec q c w u v) :
    diskHeaderSize ≤ q.readPos ∧ q.readPos ≤ q.fileSize := by
  have hc := h.start
  have hroom := h.room
  have h2048 : diskBytesPerMessage = 2048 := rfl
  have h8 : diskHeaderSize = 8 := rfl
  have hle := h.stored.pos_le
  cases h.stored with
  | straight hs =>
    have hread := hs.read
    have hwrite := hs.write
    have hbound := hs.bound
    omega
  | ahead hw hread hlt =>
    have hbound := hw.bound
    rw [span_append] at hbound
    omega
  | behind hw hread =>
    have hwrite := hw.write
    rw [span_append] at hwrite
    rcases hw.header with ⟨hlow, -⟩ | ⟨hnil, -⟩
    · omega
    · obtain ⟨rfl, rfl⟩ := append_eq_nil_iff.mp hnil
      rw [span_nil] at hread
      omega

theorem Stored.commit (hsound : Sound codec q c w u v) {q' : DiskQueue Msg}
    (hsize : q'.fileSize = q.fileSize) (hread : q'.readPos = q.readPos) (hwrite : q'.writePos = q.writePos)
    (hkeep : ∀ p bs, Holds q.file p bs → diskHeaderSize ≤ p → Holds q'.file p bs) :
    Stored codec q' q.readPos w [] v := by
  have hc := hsound.start
  cases hsound.stored with
  | straight hs =>
    refine .straight ⟨?_, hread, ?_, ?_, ?_⟩
    · have hdata := hs.data
      rw [records_append, holds_append_iff] at hdata
      rw [nil_append, hs.read]
      exact hkeep _ _ hdata.2 (by omega)
    · rw [hwrite, hread, hs.write]
    · rw [hwrite, hsize]
      exact hs.bound
    · rcases hs.header with hheader | ⟨rfl, rfl, hceq⟩
      · exact .inl (hheader.trans hwrite.symm)
      · exact .inr ⟨rfl, rfl, hs.read.trans hceq⟩
  | @ahead _ v1 b hw hr hlt =>
    have hend : q.readPos + span codec v1 = c + span codec (u ++ v1) := by
      rw [span_append, hr, Nat.add_assoc]
    have hwrapped : Wrapped codec q' q.readPos w v1 b := by
      refine ⟨?_, ?_, ?_, ?_, hkeep _ _ hw.second (Nat.le_refl _), hwrite.trans hw.write, ?_⟩
      · have hdata := hw.first
        rw [records_append, holds_append_iff] at hdata
        rw [hr]
        exact hkeep _ _ hdata.2 (by omega)
      · rw [hend]
        exact hkeep _ _ hw.marker (by omega)
      · rw [hend]
        exact hw.start
      · rw [hend, hsize]
        exact hw.bound
      · rcases hw.header with ⟨hlow, hheader⟩ | ⟨hnil, hheader⟩
        · exact .inl ⟨by omega, hheader.trans hwrite.symm⟩
        · exact .inr ⟨hnil, hheader.trans hend.symm⟩
    exact .ahead hwrapped hread (by rw [hwrite, hread]; exact hlt)
  | @behind a u2 _ hw hr =>
    have hwpos := hw.write
    rw [span_append] at hwpos
    refine .straight ⟨?_, hread, ?_, ?_, ?_⟩
    · have hdata := hw.second
      rw [records_append, holds_append_iff] at hdata
      rw [nil_append, hr]
      exact hkeep _ _ hdata.2 (by omega)
    · rw [hwrite, hread, hwpos, hr, Nat.add_assoc]
    · have hbound := hw.bound
      have hstart := hw.start
      rw [hwrite, hsize]
      rcases hw.header with ⟨hlow, -⟩ | ⟨hnil, -⟩
      · omega
      · obtain ⟨rfl, rfl⟩ := append_eq_nil_iff.mp hnil
        rw [span_nil] at hwpos
        omega
    · rcases hw.header with ⟨-, hheader⟩ | ⟨hnil, -⟩
      · exact .inl (hheader.trans hwrite.symm)
      · obtain ⟨rfl, rfl⟩ := append_eq_nil_iff.mp hnil
        exact .inr ⟨rfl, rfl, hr⟩

theorem pollCommit_sound (h : Sound codec q c w u v) : Sound codec q.pollCommit q.readPos w [] v := by
  have hroom := h.room
  have h2048 : diskBytesPerMessage = 2048 := rfl
  have h8 : diskHeaderSize = 8 := rfl
  have hlen : 0 + (putUint32 q.readPos).length ≤ q.file.length := by
    rw [putUint32_length, h.length]
    omega
  refine ⟨(length_writeAt hlen).trans h.length, h.small, hroom, holds_writeAt_self hlen, ?_,
    h.readPos_bounds.1, h.wide, ?_, Stored.commit h rfl rfl rfl ?_⟩
  · exact h.writeHeader.writeAt hlen (.inr (by rw [putUint32_length]))
  · intro m hm
    exact h.fits m (mem_append_right _ hm)
  · intro p bs hbs hp
    exact hbs.writeAt hlen (.inr (by rw [putUint32_length]; omega))

end Commit

end MonsterMQ.Queue
