import MonsterMQ.DiskQueueSteps
import MonsterMQ.StateRuns

/-!
# Runs of the disk queue

A queue whose writer never goes back to the start over messages that are still stored, and never
runs into those that are not committed, is a first-in first-out queue in a file of fixed size. It
survives a restart when the positions in its header tell whether messages are outstanding.
-/

namespace MonsterMQ.Queue

open LittleEndian ByteFiles StateRuns List

variable {Msg : Type} {codec : Codec Msg}

/-- The queue that `NewDiskQueue` makes before it looks at the file. -/
def blankQueue (file : Bytes) (queueSize blockSize : ℤ) : DiskQueue Msg :=
  let queueSize := if queueSize ≤ 0 then 5000 else queueSize.toNat
  { file := file
    fileSize := queueSize * diskBytesPerMessage
    blockSize := if blockSize ≤ 0 ∨ blockSize > queueSize then min 100 queueSize else blockSize.toNat
    readPos := diskHeaderSize
    writePos := diskHeaderSize
    queueFull := false
    outputBlock := [] }

namespace DiskQueue

/-- Both positions in the header are in the file, behind the header. -/
def Usable (q : DiskQueue Msg) : Prop :=
  diskHeaderSize ≤ q.committedPos ∧ q.committedPos < q.fileSize ∧
    diskHeaderSize ≤ q.writtenPos ∧ q.writtenPos < q.fileSize

instance decidableUsable (q : DiskQueue Msg) : Decidable q.Usable :=
  inferInstanceAs (Decidable (_ ∧ _ ∧ _ ∧ _))

end DiskQueue

section Open

variable {file : Bytes} {queueSize blockSize : ℤ}

theorem newDiskQueue_eq (file : Bytes) (queueSize blockSize : ℤ) :
    (DiskQueue.newDiskQueue file queueSize blockSize : DiskQueue Msg) =
      let q : DiskQueue Msg := blankQueue file queueSize blockSize
      if file.length ≠ q.fileSize then { q with file := DiskQueue.truncate file q.fileSize }.writeHeader
      else q.readHeader := rfl

theorem blankQueue_sizes (file : Bytes) (queueSize blockSize : ℤ) :
    diskBytesPerMessage ≤ (blankQueue file queueSize blockSize : DiskQueue Msg).fileSize ∧
      0 < (blankQueue file queueSize blockSize : DiskQueue Msg).blockSize := by
  have hsize : 1 ≤ (if queueSize ≤ 0 then 5000 else queueSize.toNat) := by
    split <;> omega
  constructor
  · exact Nat.le_mul_of_pos_left _ hsize
  · dsimp only [blankQueue]
    generalize (if queueSize ≤ 0 then 5000 else queueSize.toNat) = n at hsize
    split <;> omega

variable {q : DiskQueue Msg}

theorem readHeader_of_usable (h : q.Usable) :
    q.readHeader = { q with readPos := q.committedPos, writePos := q.writtenPos } := by
  obtain ⟨h1, h2, h3, h4⟩ := h
  exact if_neg (by
    rintro (h | h | h | h)
    · exact absurd h (Nat.not_lt.mpr h1)
    · exact absurd h2 (Nat.not_lt.mpr h)
    · exact absurd h (Nat.not_lt.mpr h3)
    · exact absurd h4 (Nat.not_lt.mpr h))

theorem readHeader_of_not_usable (h : ¬ q.Usable) :
    q.readHeader = { q with readPos := diskHeaderSize, writePos := diskHeaderSize }.writeHeader := by
  apply if_pos
  by_contra hn
  rw [not_or, not_or, not_or, Nat.not_lt, Nat.not_le, Nat.not_lt, Nat.not_le] at hn
  exact h hn

theorem writeHeader_sound (hlen : q.file.length = q.fileSize)
    (hsmall : q.fileSize < 2 ^ 32) (hroom : diskBytesPerMessage ≤ q.fileSize)
    (hread : q.readPos = diskHeaderSize) (hwrite : q.writePos = diskHeaderSize) :
    Sound codec q.writeHeader diskHeaderSize diskHeaderSize [] [] := by
  have h2048 : diskBytesPerMessage = 2048 := rfl
  have h8 : diskHeaderSize = 8 := rfl
  have hlen1 : 0 + (putUint32 q.readPos).length ≤ q.file.length := by
    rw [putUint32_length, hlen]
    omega
  have hfile1 := length_writeAt hlen1
  have hlen2 : 4 + (putUint32 q.writePos).length ≤ (writeAt q.file 0 (putUint32 q.readPos)).length := by
    rw [hfile1, putUint32_length, hlen]
    omega
  refine ⟨((length_writeAt hlen2).trans hfile1).trans hlen, hsmall, hroom, ?_, ?_, Nat.le_refl _,
    by decide, ?_, .straight ⟨holds_nil _ _, hread, ?_, ?_, .inl hwrite.symm⟩⟩
  · rw [← hread]
    exact (holds_writeAt_self hlen1).writeAt hlen2 (.inl (by rw [putUint32_length]))
  · rw [← hwrite]
    exact holds_writeAt_self hlen2
  · intro m hm
    cases hm
  · exact hwrite.trans hread.symm
  · have hpos : q.writeHeader.writePos = diskHeaderSize := hwrite
    have hsize : q.writeHeader.fileSize = q.fileSize := rfl
    omega

private theorem truncate_length (file : Bytes) (n : ℕ) : (DiskQueue.truncate file n).length = n := by
  rw [DiskQueue.truncate, length_append, length_take, length_replicate]
  omega

theorem holds_header {file : Bytes} {p : ℕ} (h : p + 4 ≤ file.length) :
    Holds file p (putUint32 (getUint32 (readAt file p 4))) := by
  rw [putUint32_get (readAt_length h)]
  exact holds_readAt file p 4

private theorem sound_nil (hlen : q.file.length = q.fileSize)
    (hsmall : q.fileSize < 2 ^ 32) (hroom : diskBytesPerMessage ≤ q.fileSize) (hu : q.Usable)
    (heq : q.committedPos = q.writtenPos) (hread : q.readPos = q.committedPos)
    (hwrite : q.writePos = q.writtenPos) : Sound codec q q.committedPos q.writtenPos [] [] := by
  have h2048 : diskBytesPerMessage = 2048 := rfl
  obtain ⟨hstart, hend, -, hwend⟩ := hu
  refine ⟨hlen, hsmall, hroom, holds_header (by omega), holds_header (by omega), hstart, by omega, ?_,
    .straight ⟨holds_nil _ _, hread, ?_, ?_, .inl hwrite.symm⟩⟩
  · intro m hm
    cases hm
  · rw [hwrite, hread, heq]
    rfl
  · omega

theorem newDiskQueue_sizes (file : Bytes) (queueSize blockSize : ℤ) :
    SameSizes (blankQueue file queueSize blockSize : DiskQueue Msg)
        (DiskQueue.newDiskQueue file queueSize blockSize) ∧
      (DiskQueue.newDiskQueue file queueSize blockSize : DiskQueue Msg).outputBlock = [] := by
  rw [newDiskQueue_eq]
  dsimp only
  split
  · exact ⟨⟨rfl, rfl⟩, rfl⟩
  · rw [DiskQueue.readHeader]
    split
    · exact ⟨⟨rfl, rfl⟩, rfl⟩
    · exact ⟨⟨rfl, rfl⟩, rfl⟩

theorem newDiskQueue_sound (hsmall : (blankQueue file queueSize blockSize : DiskQueue Msg).fileSize < 2 ^ 32)
    (hempty : (DiskQueue.newDiskQueue file queueSize blockSize : DiskQueue Msg).readPos =
      (DiskQueue.newDiskQueue file queueSize blockSize : DiskQueue Msg).writePos) :
    ∃ c w, Sound codec (DiskQueue.newDiskQueue file queueSize blockSize) c w [] [] := by
  have hroom : diskBytesPerMessage ≤ (blankQueue file queueSize blockSize : DiskQueue Msg).fileSize :=
    (blankQueue_sizes file queueSize blockSize).1
  rw [newDiskQueue_eq] at hempty ⊢
  dsimp only at hempty ⊢
  by_cases hlen : file.length = (blankQueue file queueSize blockSize : DiskQueue Msg).fileSize
  · rw [if_neg (not_not.mpr hlen)] at hempty ⊢
    by_cases hu : (blankQueue file queueSize blockSize : DiskQueue Msg).Usable
    · rw [readHeader_of_usable hu] at hempty ⊢
      exact ⟨_, _, sound_nil hlen hsmall hroom hu hempty rfl rfl⟩
    · rw [readHeader_of_not_usable hu]
      exact ⟨_, _, writeHeader_sound hlen hsmall hroom rfl rfl⟩
  · rw [if_pos hlen]
    exact ⟨_, _, writeHeader_sound (truncate_length _ _) hsmall hroom rfl rfl⟩

theorem Wrapped.reopened {q' : DiskQueue Msg} {c w : ℕ} {a b : List Msg}
    (h : Wrapped codec q c w a b) (hne : a ++ b = [] ↔ c = w) (hfile : q'.file = q.file)
    (hsize : q'.fileSize = q.fileSize) (hread : q'.readPos = c) (hwrite : q'.writePos = w) :
    Stored codec q' c w [] (a ++ b) := by
  have hbound := h.bound
  rcases h.header with ⟨hle, hw⟩ | ⟨rfl, hw⟩
  · by_cases heq : c = w
    · -- the writer came exactly up to the committed position: the header calls it empty
      have hnil := hne.mpr heq
      rw [hnil]
      exact .straight ⟨holds_nil _ _, hread, by rw [hwrite, hread, heq]; rfl, by omega,
        .inl hwrite.symm⟩
    · have hwrapped : Wrapped codec q' c w ([] ++ a) b := by
        refine ⟨hfile ▸ h.first, hfile ▸ h.marker, h.start, hsize ▸ h.bound, hfile ▸ h.second, ?_, ?_⟩
        · rw [hwrite, hw, h.write]
        · exact .inl ⟨by omega, hwrite.symm⟩
      exact .ahead hwrapped hread (by omega)
  · rw [append_nil]
    refine .straight ⟨hfile ▸ h.first, hread, ?_, by omega, .inl hwrite.symm⟩
    rw [hwrite, hread, hw]

theorem Stored.reopened {q' : DiskQueue Msg} {c w : ℕ} {u v : List Msg} (h : Stored codec q c w u v)
    (hne : u ++ v = [] ↔ c = w) (hc : c ≤ q.fileSize) (hfile : q'.file = q.file)
    (hsize : q'.fileSize = q.fileSize) (hread : q'.readPos = c) (hwrite : q'.writePos = w) :
    Stored codec q' c w [] (u ++ v) := by
  cases h with
  | straight hs =>
    have hspan : span codec (u ++ v) = span codec u + span codec v := span_append codec u v
    have hr := hs.read
    have hw := hs.write
    have hbound := hs.bound
    rcases hs.header with hheader | ⟨rfl, rfl, -⟩
    · exact .straight ⟨hfile ▸ hs.data, hread, by omega, by omega, .inl hwrite.symm⟩
    · have heq := hne.mp rfl
      exact .straight ⟨holds_nil _ _, hread, by rw [hwrite, hread, heq]; rfl, by omega,
        .inl hwrite.symm⟩
  | ahead hw hr hlt =>
    rw [← append_assoc] at hne ⊢
    exact hw.reopened hne hfile hsize hread hwrite
  | behind hw hr =>
    rw [append_assoc] at hne ⊢
    exact hw.reopened hne hfile hsize hread hwrite

theorem reopened_sound {c w : ℕ} {u v : List Msg} (h : Sound codec q c w u v)
    (hsize : (blankQueue q.file queueSize blockSize : DiskQueue Msg).fileSize = q.fileSize)
    (hstop : if q.Usable then (u ++ v = [] ↔ q.committedPos = q.writtenPos) else u ++ v = []) :
    ∃ c w, Sound codec (DiskQueue.newDiskQueue q.file queueSize blockSize) c w [] (u ++ v) := by
  have hlen : q.file.length = (blankQueue q.file queueSize blockSize : DiskQueue Msg).fileSize :=
    h.length.trans hsize.symm
  have husable : (blankQueue q.file queueSize blockSize : DiskQueue Msg).Usable ↔ q.Usable := by
    rw [DiskQueue.Usable, DiskQueue.Usable, hsize]
    rfl
  rw [newDiskQueue_eq]
  dsimp only
  rw [if_neg (not_not.mpr hlen)]
  by_cases hu : q.Usable
  · rw [if_pos hu, h.committedPos_eq, h.writtenPos_eq] at hstop
    rw [readHeader_of_usable (husable.mpr hu)]
    refine ⟨c, w, hlen, hsize ▸ h.small, hsize ▸ h.room, h.readHeader, h.writeHeader, h.start, h.wide,
      ?_, h.stored.reopened hstop h.stored.pos_le rfl hsize h.committedPos_eq h.writtenPos_eq⟩
    intro m hm
    rw [hsize]
    exact h.fits m hm
  · rw [if_neg hu] at hstop
    rw [hstop, readHeader_of_not_usable (fun hblank => hu (husable.mp hblank))]
    exact ⟨_, _, writeHeader_sound hlen (hsize ▸ h.small) (hsize ▸ h.room) rfl rfl⟩

end Open

inductive Call (Msg : Type) where
  | add (m : Msg)
  | pollBlock
  | pollCommit
  deriving DecidableEq, Repr

/-- A queue with the messages that it accepted and those of the blocks that were committed. -/
structure Session (Msg : Type) where
  queue : DiskQueue Msg
  accepted : List Msg
  committed : List Msg
  deriving DecidableEq, Repr

namespace Session

def start (file : Bytes) (queueSize blockSize : ℤ) : Session Msg where
  queue := .newDiskQueue file queueSize blockSize
  accepted := []
  committed := []

def call (codec : Codec Msg) (s : Session Msg) : Call Msg → Session Msg
  | .add m =>
    { s with
      queue := (s.queue.add codec m).2
      accepted := if (s.queue.add codec m).1 then s.accepted ++ [m] else s.accepted }
  | .pollBlock => { s with queue := s.queue.pollBlock codec }
  | .pollCommit =>
    { s with queue := s.queue.pollCommit, committed := s.committed ++ s.queue.outputBlock }

/-- Only an `Add` needs something: room, unless the message is refused for its own sake. -/
@[grind =] def Meets (codec : Codec Msg) (s : Session Msg) : Call Msg → Prop
  | .add m =>
    match codec.marshal m with
    | none => True
    | some data =>
      data.length + 4 ≤ s.queue.fileSize - diskHeaderSize → s.queue.Room (data.length + 4)
  | .pollBlock => True
  | .pollCommit => True

instance decidableMeets (codec : Codec Msg) (s : Session Msg) : ∀ a, Decidable (s.Meets codec a)
  | .add m =>
    match h : codec.marshal m with
    | none => isTrue (by rw [Meets, h]; trivial)
    | some data => decidable_of_iff
        (data.length + 4 ≤ s.queue.fileSize - diskHeaderSize → s.queue.Room (data.length + 4))
        (by rw [Meets, h])
  | .pollBlock => isTrue trivial
  | .pollCommit => isTrue trivial

/-- The process stops and the queue is opened again. -/
def restart (queueSize blockSize : ℤ) (s : Session Msg) : Session Msg :=
  { s with queue := .newDiskQueue s.queue.file queueSize blockSize }

/-- The positions in the header are usable and the same exactly when all that was accepted is
committed; unusable ones are harmless when all is. -/
def Stoppable (s : Session Msg) : Prop :=
  if s.queue.Usable then
    (s.accepted = s.committed ↔ s.queue.committedPos = s.queue.writtenPos)
  else s.accepted = s.committed

instance decidableStoppable [DecidableEq Msg] (s : Session Msg) : Decidable s.Stoppable :=
  inferInstanceAs (Decidable (if s.queue.Usable then (_ ↔ _) else _))

end Session

/-- What happens to a queue: a call, or the process stops and starts. -/
inductive Event (Msg : Type) where
  | call (a : Call Msg)
  | restart
  deriving DecidableEq, Repr

namespace Session

def event (codec : Codec Msg) (queueSize blockSize : ℤ) (s : Session Msg) : Event Msg → Session Msg
  | .call a => s.call codec a
  | .restart => s.restart queueSize blockSize

def Survives (codec : Codec Msg) (s : Session Msg) : Event Msg → Prop
  | .call a => s.Meets codec a
  | .restart => s.Stoppable

instance decidableSurvives [DecidableEq Msg] (codec : Codec Msg) (s : Session Msg) :
    ∀ e, Decidable (s.Survives codec e)
  | .call a => inferInstanceAs (Decidable (s.Meets codec a))
  | .restart => inferInstanceAs (Decidable s.Stoppable)

end Session

/-- The session is a first-in first-out queue with these messages that are not polled. -/
structure Fifo (codec : Codec Msg) (s : Session Msg) (unread : List Msg) : Prop where
  /-- Every accepted message is committed, handed out or not polled, in order. -/
  ordered : s.accepted = s.committed ++ s.queue.outputBlock ++ unread
  /-- The file holds what is not committed. -/
  stored : ∃ c w, Sound codec s.queue c w s.queue.outputBlock unread
  /-- The file does not grow. -/
  length : s.queue.file.length = s.queue.fileSize
  /-- The next block, or the last one again. -/
  polled : (s.queue.pollBlock codec).outputBlock =
    if s.queue.outputBlock = [] then unread.take s.queue.blockSize else s.queue.outputBlock
  /-- A block is never empty while messages are there. -/
  blocks : 0 < s.queue.blockSize
  /-- A message that is refused leaves the others, one that is accepted goes behind them. -/
  added : ∀ m, s.Meets codec (.add m) →
    ∃ c w, Sound codec (s.queue.add codec m).2 c w s.queue.outputBlock
      (if (s.queue.add codec m).1 then unread ++ [m] else unread)
  /-- Reading fails on an empty queue only. -/
  dequeued : ∀ e, (s.queue.dequeue codec).1 = .error e → e = .empty ∧ unread = []

structure Kept (codec : Codec Msg) (fileSize : ℕ) (s : Session Msg) (unread : List Msg) : Prop where
  ordered : s.accepted = s.committed ++ s.queue.outputBlock ++ unread
  stored : ∃ c w, Sound codec s.queue c w s.queue.outputBlock unread
  fileSize : s.queue.fileSize = fileSize
  blocks : 0 < s.queue.blockSize

/-- The JSON texts of strings without special characters. -/
def plainStrings : Codec Bytes where
  marshal m := some (34 :: m ++ [34])
  unmarshal data := if 2 ≤ data.length then some data.tail.dropLast else none
  unmarshal_marshal m data h := by
    cases h
    simp
  marshal_ne_nil m data h := by
    cases h
    simp

/-- A run in which the writer goes back to the start. -/
def wrappingCalls : List (Call Bytes) :=
  [.add (List.replicate 1000 97), .pollBlock, .pollCommit, .add (List.replicate 1000 98),
    .add (List.replicate 900 99)]

/-- Three messages for a file with room for two, and one of them is committed. -/
def overfull : Session Bytes :=
  run (Session.call plainStrings) (Session.start [] 1 1)
    [.add (List.replicate 1000 97), .add (List.replicate 1000 98), .add (List.replicate 1000 99),
      .pollBlock, .pollCommit]

/-- A restart with a block that was handed out and not committed. -/
def uncommittedEvents : List (Event Bytes) :=
  [.call (.add [97]), .call (.add [98]), .call .pollBlock, .restart, .call .pollBlock]

/-- A message that ends exactly at the end of the file, and a restart. -/
def brimful : Session Bytes :=
  run (Session.event plainStrings 1 1) (Session.start [] 1 1)
    [.call (.add (List.replicate 2034 97)), .restart]

/-- These runs, evaluated: two meet their conditions, one commits what was not accepted first, and one
loses its message. -/
theorem sampleRuns :
    Along (Session.call plainStrings) (Session.Meets plainStrings) (Session.start [] 1 1) wrappingCalls ∧
    ¬ overfull.committed <+: overfull.accepted ∧
    Along (Session.event plainStrings 1 1) (Session.Survives plainStrings) (Session.start [] 1 1)
      uncommittedEvents ∧
    (brimful.queue.dequeue plainStrings).1 = .error .empty ∧
    brimful.accepted ≠ brimful.committed ++ brimful.queue.outputBlock := by
  refine ⟨?_, ?_, ?_, ?_, ?_⟩ <;> decide +kernel

section Runs

variable {s : Session Msg} {unread : List Msg} {n : ℕ}

theorem add_added {c w : ℕ} (h : Sound codec s.queue c w s.queue.outputBlock unread) {m : Msg}
    (hm : s.Meets codec (.add m)) : Added codec s.queue c unread m (s.queue.add codec m) := by
  have hroom : ∀ data, codec.marshal m = some data →
      data.length + 4 ≤ s.queue.fileSize - diskHeaderSize → s.queue.Room (data.length + 4) := by
    intro data hdata
    rw [Session.Meets, hdata] at hm
    exact hm
  obtain ⟨hblock, hsizes, w', hsound⟩ := enqueue_added h hroom
  exact ⟨hblock, hsizes, w', hsound.relabel _ _⟩

theorem Kept.call (h : Kept codec n s unread) (a : Call Msg) (ha : s.Meets codec a) :
    ∃ unread, Kept codec n (s.call codec a) unread := by
  obtain ⟨c, w, hsound⟩ := h.stored
  cases a with
  | add m =>
    obtain ⟨hblock, hsizes, w', hsound'⟩ := add_added hsound ha
    refine ⟨if (s.queue.add codec m).1 then unread ++ [m] else unread, ?_, ⟨c, w', ?_⟩,
      hsizes.1.trans h.fileSize, ?_⟩
    · dsimp only [Session.call]
      rw [hblock, h.ordered]
      split
      · rw [append_assoc]
      · rfl
    · dsimp only [Session.call]
      rw [hblock]
      exact hsound'
    · dsimp only [Session.call]
      rw [hsizes.2]
      exact h.blocks
  | pollBlock =>
    obtain ⟨hsizes, hblock, hsound'⟩ := pollBlock_spec hsound h.blocks
    refine ⟨_, ?_, ⟨c, w, hsound'⟩, hsizes.1.trans h.fileSize, ?_⟩
    · dsimp only [Session.call]
      rw [hblock, h.ordered]
      split
      · rename_i hempty
        rw [hempty, append_nil, append_assoc, take_append_drop]
      · rfl
    · dsimp only [Session.call]
      rw [hsizes.2]
      exact h.blocks
  | pollCommit =>
    refine ⟨unread, ?_, ⟨s.queue.readPos, w, pollCommit_sound hsound⟩, h.fileSize, h.blocks⟩
    dsimp only [Session.call]
    rw [h.ordered]
    exact (append_nil _).symm ▸ rfl

theorem Kept.fifo (h : Kept codec n s unread) : Fifo codec s unread := by
  obtain ⟨c, w, hsound⟩ := h.stored
  refine ⟨h.ordered, h.stored, hsound.length, (pollBlock_spec hsound h.blocks).2.1, h.blocks, ?_, ?_⟩
  · intro m hm
    obtain ⟨-, -, w', hsound'⟩ := add_added hsound hm
    exact ⟨c, w', hsound'⟩
  · intro e he
    exact dequeue_error hsound he

theorem Kept.start {file : Bytes} {queueSize blockSize : ℤ}
    (hsmall : (DiskQueue.newDiskQueue file queueSize blockSize : DiskQueue Msg).fileSize < 2 ^ 32)
    (hempty : (DiskQueue.newDiskQueue file queueSize blockSize : DiskQueue Msg).readPos =
      (DiskQueue.newDiskQueue file queueSize blockSize : DiskQueue Msg).writePos) :
    Kept codec (blankQueue file queueSize blockSize : DiskQueue Msg).fileSize
      (Session.start file queueSize blockSize) [] := by
  obtain ⟨hsizes, hblock⟩ : SameSizes (blankQueue file queueSize blockSize : DiskQueue Msg)
      (.newDiskQueue file queueSize blockSize) ∧ _ := newDiskQueue_sizes file queueSize blockSize
  rw [hsizes.1] at hsmall
  obtain ⟨c, w, hsound⟩ : ∃ c w, Sound codec (.newDiskQueue file queueSize blockSize) c w [] [] :=
    newDiskQueue_sound hsmall hempty
  refine ⟨?_, ⟨c, w, ?_⟩, hsizes.1, ?_⟩
  · dsimp only [Session.start]
    rw [hblock]
    rfl
  · dsimp only [Session.start]
    rw [hblock]
    exact hsound
  · dsimp only [Session.start]
    rw [hsizes.2]
    exact (blankQueue_sizes file queueSize blockSize).2

theorem Kept.restart {queueSize blockSize : ℤ}
    (hn : (blankQueue [] queueSize blockSize : DiskQueue Msg).fileSize = n)
    (h : Kept codec n s unread) (hstop : s.Stoppable) :
    Kept codec n (s.restart queueSize blockSize) (s.queue.outputBlock ++ unread) := by
  obtain ⟨c, w, hsound⟩ := h.stored
  have hdone : s.accepted = s.committed ↔ s.queue.outputBlock ++ unread = [] := by
    rw [h.ordered, append_assoc]
    exact append_right_eq_self
  rw [Session.Stoppable, hdone] at hstop
  obtain ⟨hsizes, hblock⟩ : SameSizes (blankQueue s.queue.file queueSize blockSize : DiskQueue Msg)
      (.newDiskQueue s.queue.file queueSize blockSize) ∧ _ :=
    newDiskQueue_sizes s.queue.file queueSize blockSize
  refine ⟨?_, ?_, hsizes.1.trans hn, ?_⟩
  · dsimp only [Session.restart]
    rw [hblock, h.ordered, append_nil, append_assoc]
  · dsimp only [Session.restart]
    rw [hblock]
    exact reopened_sound hsound (hn.trans h.fileSize.symm) hstop
  · dsimp only [Session.restart]
    rw [hsizes.2]
    exact (blankQueue_sizes s.queue.file queueSize blockSize).2

/-- In every run of calls that have room, the queue is a bounded first-in first-out queue. -/
theorem diskQueue_fifo {file : Bytes} {queueSize blockSize : ℤ}
    (hsmall : (DiskQueue.newDiskQueue file queueSize blockSize : DiskQueue Msg).fileSize < 2 ^ 32)
    (hempty : (DiskQueue.newDiskQueue file queueSize blockSize : DiskQueue Msg).readPos =
      (DiskQueue.newDiskQueue file queueSize blockSize : DiskQueue Msg).writePos)
    {calls : List (Call Msg)}
    (hrun : Along (Session.call codec) (Session.Meets codec)
      (Session.start file queueSize blockSize) calls) :
    ∃ unread, Fifo codec
      (run (Session.call codec) (Session.start file queueSize blockSize) calls) unread := by
  have hstep : ∀ s a, (∃ unread, Kept codec (blankQueue file queueSize blockSize : DiskQueue Msg).fileSize
      s unread) → s.Meets codec a →
      ∃ unread, Kept codec (blankQueue file queueSize blockSize : DiskQueue Msg).fileSize
        (s.call codec a) unread := by
    rintro s a ⟨unread, h⟩ ha
    exact h.call a ha
  obtain ⟨unread, h⟩ := run_invariant hstep ⟨[], Kept.start hsmall hempty⟩ hrun
  exact ⟨unread, h.fifo⟩

theorem wrappingCalls_fifo :
    Along (Session.call plainStrings) (Session.Meets plainStrings) (Session.start [] 1 1) wrappingCalls ∧
      ∃ unread, Fifo plainStrings
        (run (Session.call plainStrings) (Session.start [] 1 1) wrappingCalls) unread := by
  obtain ⟨hrun, -⟩ := sampleRuns
  exact ⟨hrun, diskQueue_fifo (by decide) (by decide) hrun⟩

/-- The third message goes to the start, where the first was not read yet, and is accepted. It is
the one that is committed. -/
theorem wrap_over_unread : ¬ ∃ unread, Fifo plainStrings overfull unread := by
  rintro ⟨unread, h⟩
  obtain ⟨-, hcommitted, -⟩ := sampleRuns
  apply hcommitted
  rw [h.ordered, append_assoc]
  exact prefix_append _ _

/-- In every run of calls and restarts that meet their conditions, the queue is a first-in first-out
queue, and opened again it hands out what is not committed. -/
theorem diskQueue_survives {file : Bytes} {queueSize blockSize : ℤ}
    (hsmall : (DiskQueue.newDiskQueue file queueSize blockSize : DiskQueue Msg).fileSize < 2 ^ 32)
    (hempty : (DiskQueue.newDiskQueue file queueSize blockSize : DiskQueue Msg).readPos =
      (DiskQueue.newDiskQueue file queueSize blockSize : DiskQueue Msg).writePos)
    {events : List (Event Msg)}
    (hrun : Along (Session.event codec queueSize blockSize) (Session.Survives codec)
      (Session.start file queueSize blockSize) events) {s : Session Msg}
    (hs : s = run (Session.event codec queueSize blockSize)
      (Session.start file queueSize blockSize) events) :
    ∃ unread, Fifo codec s unread ∧
      (s.Stoppable →
        Fifo codec (s.restart queueSize blockSize) (s.queue.outputBlock ++ unread)) := by
  have hstep : ∀ s e, (∃ unread, Kept codec (blankQueue file queueSize blockSize : DiskQueue Msg).fileSize
      s unread) → s.Survives codec e →
      ∃ unread, Kept codec (blankQueue file queueSize blockSize : DiskQueue Msg).fileSize
        (s.event codec queueSize blockSize e) unread := by
    rintro s e ⟨unread, h⟩ he
    cases e with
    | call a => exact h.call a he
    | restart => exact ⟨_, h.restart rfl he⟩
  obtain ⟨unread, h⟩ := run_invariant hstep ⟨[], Kept.start hsmall hempty⟩ hrun
  rw [← hs] at h
  exact ⟨unread, h.fifo, fun hstop => (h.restart rfl hstop).fifo⟩

theorem uncommittedEvents_survive : ∃ unread, Fifo plainStrings
      (run (Session.event plainStrings 1 1) (Session.start [] 1 1) uncommittedEvents) unread := by
  obtain ⟨-, -, hrun, -⟩ := sampleRuns
  obtain ⟨unread, h, -⟩ := diskQueue_survives (by decide) (by decide) hrun rfl
  exact ⟨unread, h⟩

/-- The queue that is opened again is empty. -/
theorem restart_at_end_of_file : ¬ ∃ unread, Fifo plainStrings brimful unread := by
  rintro ⟨unread, h⟩
  obtain ⟨-, -, -, hempty, hlost⟩ := sampleRuns
  apply hlost
  have hordered := h.ordered
  rwa [(h.dequeued _ hempty).2, append_nil] at hordered

end Runs

end MonsterMQ.Queue
