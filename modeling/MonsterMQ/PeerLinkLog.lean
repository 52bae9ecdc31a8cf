import Mathlib.Data.List.Basic
import Mathlib.Logic.Function.Basic
import MonsterMQ.LittleEndian

/-!
# The source log of a PeerLink node

The chunked log of `internal/peerlink/log.go`. A chunk pointer is an allocation number into `heap`. Offsets
and counters of records are natural numbers, byte sums wrap at `2 ^ 64`. Waiters and spare chunks carry no
record and are not represented.
-/

namespace MonsterMQ.PeerLink

open LittleEndian

@[grind =] def logChunkSlots : ℕ := 1024

/-- `unsafe.Sizeof(logChunk{})`: 1024 pointers and 1024 cumulative sums. -/
def logChunkBytes : ℕ := 16384

def logMasksBytes : ℕ := 8192

def logReadMaxChunks : ℕ := 16
def logDefaultMaxMessages : ℕ := 2000000
def logDefaultMaxBytes : ℕ := 268435456
def logDefaultMaxRecordBytes : ℕ := 1114112
def logDefaultMaxScan : ℕ := 65536

/-- Unsigned 64-bit addition and subtraction of the byte counters. -/
def add64 (a b : ℕ) : ℕ := (a + b) % 2 ^ 64
@[grind =] def sub64 (a b : ℕ) : ℕ := (a + 2 ^ 64 - b) % 2 ^ 64

/-- Unsigned difference of two record counters. These are natural numbers, but a
difference below zero wraps. -/
@[grind =] def counterDiff (a b : ℕ) : ℕ := if b ≤ a then a - b else 2 ^ 64 - 1 - (b - a - 1) % 2 ^ 64

abbrev Mask := BitVec 64

@[grind =] def hasBit (m : Mask) (c : ℕ) : Bool := m &&& (1#64 <<< c) != 0#64

theorem hasBit_eq_getLsbD (m : Mask) (c : ℕ) : hasBit m c = m.getLsbD c := by
  have hpow : (1#64 <<< c) = BitVec.twoPow 64 c := rfl
  rw [hasBit, hpow, BitVec.and_twoPow]
  cases hm : m.getLsbD c with
  | false => simp
  | true =>
    have hc : c < 64 := BitVec.lt_of_getLsbD hm
    have hget : (BitVec.twoPow 64 c).getLsbD c = true := by simp [hc]
    simp only [if_true, bne_iff_ne]
    intro hzero
    simp [hzero] at hget

def logSizeClasses : List ℕ :=
  [8, 16, 24, 32, 48, 64, 80, 96, 112, 128, 144, 160, 176, 192, 208, 224, 240, 256, 288, 320, 352,
    384, 416, 448, 480, 512, 576, 640, 704, 768, 896, 1024, 1152, 1280, 1408, 1536, 1792, 2048, 2304,
    2688, 3072, 3200, 3456, 4096, 4864, 5376, 6144, 6528, 6784, 6912, 8192, 9472, 9728, 10240, 10880,
    12288, 13568, 14336, 16384, 18432, 19072, 20480, 21760, 24576, 27264, 28672, 32768]

def logSizeClass (n : ℕ) : ℕ := (logSizeClasses.find? (fun c => n ≤ c)).getD 0

/-- Heap footprint of an `n`-byte frame: its size class up to 32 KiB, whole
8 KiB pages above. The two tables are indexed in steps of 8 and of 128. -/
def logFrameAccounted (n : ℕ) : ℕ :=
  if n ≤ 1024 then logSizeClass ((n + 7) / 8 * 8)
  else if n ≤ 32768 then logSizeClass (1024 + (n - 1024 + 127) / 128 * 128)
  else (n + 8191) / 8192 * 8192

theorem logSizeClass_le (n : ℕ) : logSizeClass n ≤ 32768 := by
  have hall : ∀ c ∈ logSizeClasses, c ≤ 32768 := by decide
  unfold logSizeClass
  cases h : logSizeClasses.find? (fun c => n ≤ c) with
  | none => simp
  | some c => exact hall c (List.mem_of_find?_eq_some h)

theorem logFrameAccounted_le (n : ℕ) : logFrameAccounted n ≤ n + 32768 := by
  unfold logFrameAccounted
  split
  · exact (logSizeClass_le _).trans (by omega)
  split
  · exact (logSizeClass_le _).trans (by omega)
  · omega

/-- Kind of an appended record; a value past `LogKindWill` counts as client. -/
inductive LogKind where
  | client | inline | will
  deriving DecidableEq, Repr

inductive LogConsumerState where
  | neverConnected | connected | disconnected
  deriving DecidableEq, Repr

/-- A chunk of slots with its cumulative sums and, on a masked log, its consumer
masks. `base` is the first offset the chunk covers; the program does not store
it, no operation reads it, and only proofs refer to it. -/
structure LogChunk where
  base : ℕ
  slots : ℕ → Option Bytes
  cum : ℕ → ℕ
  masks : ℕ → Mask

@[grind =] def LogChunk.new (base : ℕ) : LogChunk := ⟨base, fun _ => none, fun _ => 0, fun _ => 0⟩

structure LogConsumer where
  nodeID : String
  committed : ℕ
  served : ℕ
  acctNext : ℕ
  lostTotal : ℕ
  reportedLost : ℕ
  state : LogConsumerState
  reading : ℕ
  deriving DecidableEq, Repr

/-- `maxBytes` arrives from an `int64` setting, so it is below `2 ^ 63`. A zero
limit selects the default. -/
structure LogConfig where
  maxMessages : ℕ
  maxBytes : ℕ
  maxRecordBytes : ℕ
  consumers : List String
  masked : Bool
  maxScan : ℕ
  maxBytes_lt : maxBytes < 2 ^ 63

theorem LogConfig.unlimited_lt : 0 < 2 ^ 63 := Nat.two_pow_pos 63

structure Log where
  epoch : ℕ
  heap : ℕ → LogChunk
  nextChunk : ℕ
  chunks : List ℕ
  firstBase : ℕ
  lso : ℕ
  leo : ℕ
  bytes : ℕ
  total : ℕ
  lwm : ℕ
  consumers : List LogConsumer
  sealedFlag : Bool
  maxMessages : ℕ
  maxBytes : ℕ
  maxRecordBytes : ℕ
  masked : Bool
  allMask : Mask
  maxScan : ℕ
  chunkBytes : ℕ
  appended : LogKind → ℕ
  trimmed : ℕ
  evictedUnread : ℕ
  evictedByCount : ℕ
  evictedByBytes : ℕ
  droppedSize : ℕ
  droppedInv : ℕ
  uncaptured : ℕ

inductive LogError where
  | offsetOutOfRange | commitBeyondEnd | unknownConsumer | tooManyConsumers
  deriving DecidableEq, Repr

/-- The slots `[a, b)` of `chunk` that a trim leaves to be cleared after the
mutex is released (`clearLogSlots`). -/
structure ClearReq where
  chunk : ℕ
  a : ℕ
  b : ℕ
  deriving DecidableEq, Repr

@[grind =] def orDefault (n default : ℕ) : ℕ := if n = 0 then default else n

@[grind =] def newLogConsumer (id : String) : LogConsumer :=
  ⟨id, 1, 1, 1, 0, 0, .neverConnected, 0⟩

@[grind =] def newLog (epoch : ℕ) (cfg : LogConfig) : Except LogError Log :=
  let maxBytes := orDefault cfg.maxBytes logDefaultMaxBytes
  let maxRecordBytes := orDefault cfg.maxRecordBytes logDefaultMaxRecordBytes
  let q := maxBytes / 4
  let n := cfg.consumers.length
  if cfg.masked && n > 64 then .error .tooManyConsumers
  else .ok
    { epoch := epoch
      heap := fun _ => LogChunk.new 0
      nextChunk := 0
      chunks := []
      firstBase := 0
      lso := 1
      leo := 1
      bytes := 0
      total := 0
      lwm := 1
      consumers := cfg.consumers.map newLogConsumer
      sealedFlag := false
      maxMessages := orDefault cfg.maxMessages logDefaultMaxMessages
      maxBytes := maxBytes
      maxRecordBytes := if maxRecordBytes > q then min q (2 ^ 31 - 1) else maxRecordBytes
      masked := cfg.masked
      allMask := if n ≥ 64 then BitVec.allOnes 64 else BitVec.ofNat 64 (2 ^ n - 1)
      maxScan := orDefault cfg.maxScan logDefaultMaxScan
      chunkBytes := if cfg.masked then logChunkBytes + logMasksBytes else logChunkBytes
      appended := fun _ => 0
      trimmed := 0
      evictedUnread := 0
      evictedByCount := 0
      evictedByBytes := 0
      droppedSize := 0
      droppedInv := 0
      uncaptured := 0 }

namespace Log

/-- Consumer `c`; the callers check `c < len(l.consumers)` first. -/
@[grind =] def con (l : Log) (c : ℕ) : LogConsumer := l.consumers.getD c (newLogConsumer "")

@[grind =] def updCon (l : Log) (c : ℕ) (f : LogConsumer → LogConsumer) : Log :=
  { l with consumers := l.consumers.modify c f }

@[simp] theorem updCon_length (l : Log) (c : ℕ) (f : LogConsumer → LogConsumer) :
    (l.updCon c f).consumers.length = l.consumers.length := by
  simp [updCon]

theorem con_eq_getElem (l : Log) {c : ℕ} (hc : c < l.consumers.length) : l.con c = l.consumers[c] := by
  simp [con, List.getD_eq_getElem?_getD, hc]

theorem con_updCon_self (l : Log) {c : ℕ} (f : LogConsumer → LogConsumer)
    (hc : c < l.consumers.length) : (l.updCon c f).con c = f (l.con c) := by
  rw [con_eq_getElem _ (by simpa using hc), con_eq_getElem _ hc]
  simp [updCon]

theorem con_updCon_of_ne (l : Log) {c d : ℕ} (f : LogConsumer → LogConsumer) (h : d ≠ c) :
    (l.updCon c f).con d = l.con d := by
  simp only [con, updCon, List.getD_eq_getElem?_getD, List.getElem?_modify]
  simp [show c ≠ d from fun e => h e.symm]

theorem con_mapIdx (l : Log) (f : ℕ → LogConsumer → LogConsumer) {c : ℕ} (hc : c < l.consumers.length) :
    con { l with consumers := l.consumers.mapIdx f } c = f c (l.con c) := by
  rw [con_eq_getElem _ (by simpa using hc), con_eq_getElem _ hc]
  simp

@[grind =] def updChunk (l : Log) (id : ℕ) (f : LogChunk → LogChunk) : Log :=
  { l with heap := Function.update l.heap id (f (l.heap id)) }

def chunkAt (l : Log) (x : ℕ) : ℕ := l.chunks.getD ((x - l.firstBase) / logChunkSlots) 0

def slotOf (l : Log) (x : ℕ) : ℕ := (x - l.firstBase) % logChunkSlots

def frameAt (l : Log) (x : ℕ) : Option Bytes := (l.heap (l.chunkAt x)).slots (l.slotOf x)

@[grind =] def maskAtLocked (l : Log) (x : ℕ) : Mask := (l.heap (l.chunkAt x)).masks (l.slotOf x)

def sealLog (l : Log) : Log × ℕ := ({ l with sealedFlag := true }, l.leo)

/-- The loop of `detachLocked`: the new `firstBase` and the remaining chunks. -/
@[grind =] def detachLoop (lso : ℕ) : ℕ → List ℕ → ℕ × List ℕ
  | fb, [] => (fb, [])
  | fb, ck :: cks =>
    if lso - fb ≥ logChunkSlots then detachLoop lso (fb + logChunkSlots) cks else (fb, ck :: cks)

/-- Drop the leading chunks that lie entirely below `lso`. -/
@[grind =] def detachLocked (l : Log) : Log :=
  let (fb, rest) := detachLoop l.lso l.firstBase l.chunks
  let k := l.chunks.length - rest.length
  { l with
    firstBase := fb
    chunks := rest
    bytes := if k > 0 then sub64 l.bytes (k * l.chunkBytes) else l.bytes }

/-- Cumulative accounted bytes before offset `x`, `lso ≤ x ≤ leo`. -/
@[grind =] def cumAtLocked (l : Log) (x : ℕ) : ℕ :=
  if x = l.leo then l.total else (l.heap (l.chunkAt x)).cum (l.slotOf x)

/-- Minimum of the committed offsets; `math.MaxUint64`, the start value of the
loop, is above every offset and shows only without consumers. -/
@[grind =] def minCommitted (l : Log) : ℕ :=
  match l.consumers with
  | [] => 2 ^ 64 - 1
  | con :: cons => cons.foldl (fun m con => min m con.committed) con.committed

private theorem foldl_min_spec (cons : List LogConsumer) (m : ℕ) :
    let r := cons.foldl (fun m con => min m con.committed) m
    r ≤ m ∧ (∀ con ∈ cons, r ≤ con.committed) ∧ (r = m ∨ ∃ con ∈ cons, r = con.committed) := by
  induction cons generalizing m with
  | nil => simp
  | cons con cons ih =>
    obtain ⟨h1, h2, h3⟩ := ih (min m con.committed)
    simp only [List.foldl_cons]
    refine ⟨h1.trans (min_le_left _ _), ?_, ?_⟩
    · intro d hd
      rcases List.mem_cons.mp hd with rfl | hd
      · exact h1.trans (min_le_right _ _)
      · exact h2 d hd
    · rcases h3 with h3 | ⟨d, hd, h3⟩
      · rcases min_choice m con.committed with hm | hm
        · exact Or.inl (h3.trans hm)
        · exact Or.inr ⟨con, List.mem_cons_self, h3.trans hm⟩
      · exact Or.inr ⟨d, List.mem_cons_of_mem _ hd, h3⟩

theorem minCommitted_le (l : Log) {c : ℕ} (hc : c < l.consumers.length) :
    l.minCommitted ≤ (l.con c).committed := by
  have hmem : l.con c ∈ l.consumers := by
    rw [con_eq_getElem l hc]
    exact List.getElem_mem hc
  unfold minCommitted
  cases hcons : l.consumers with
  | nil => simp [hcons] at hc
  | cons con cons =>
    obtain ⟨h1, h2, -⟩ := foldl_min_spec cons con.committed
    rcases List.mem_cons.mp (hcons ▸ hmem) with h | h
    · rw [h]
      exact h1
    · exact h2 _ h

theorem exists_minCommitted (l : Log) (hne : l.consumers ≠ []) :
    ∃ c < l.consumers.length, l.minCommitted = (l.con c).committed := by
  have hmem : ∃ con ∈ l.consumers, l.minCommitted = con.committed := by
    unfold minCommitted
    cases hcons : l.consumers with
    | nil => exact absurd hcons hne
    | cons con cons =>
      obtain ⟨-, -, h3⟩ := foldl_min_spec cons con.committed
      rcases h3 with h3 | ⟨d, hd, h3⟩
      · exact ⟨con, List.mem_cons_self, h3⟩
      · exact ⟨d, List.mem_cons_of_mem _ hd, h3⟩
  obtain ⟨con, hcon, heq⟩ := hmem
  obtain ⟨c, hc, rfl⟩ := List.mem_iff_getElem.mp hcon
  exact ⟨c, hc, by rw [con_eq_getElem l hc]; exact heq⟩

/-- Recompute the low-water mark and trim below it; the slots of a partially
trimmed chunk are left to the caller. -/
@[grind =] def updateLWMLocked (l : Log) : Log × Option ClearReq :=
  let lwm := l.minCommitted
  if lwm = l.lwm then (l, none)
  else if lwm ≤ l.lso then ({ l with lwm := lwm }, none)
  else
    let start := l.lso
    let l := detachLocked { l with
      lwm := lwm
      bytes := sub64 l.bytes (sub64 (l.cumAtLocked lwm) (l.cumAtLocked start))
      trimmed := l.trimmed + (lwm - start)
      lso := lwm }
    if l.chunks.isEmpty || l.firstBase ≥ lwm then (l, none)
    else (l, some ⟨l.chunks.headD 0, if start > l.firstBase then start - l.firstBase else 0,
      lwm - l.firstBase⟩)

@[grind =] def clearSlot (l : Log) (ck i : ℕ) : Log :=
  l.updChunk ck (fun ch => { ch with slots := Function.update ch.slots i none })

/-- `accountEvictLocked` for one consumer: the evicted record is charged only to a
consumer that needed it, and one with a read in progress is left to
`observeLocked`. -/
@[grind =] def accountEvict (off : ℕ) (mask : Mask) (i : ℕ) (con : LogConsumer) : LogConsumer :=
  if con.reading > 0 ∨ off < max (max con.acctNext con.committed) con.served then con
  else { con with
    lostTotal := if hasBit mask i then con.lostTotal + 1 else con.lostTotal
    acctNext := off + 1 }

/-- One iteration of `evictLocked` that drops the record at `lso`. -/
@[grind =] def evictOne (l : Log) (byCount : Bool) : Log :=
  let off := l.lso
  let freed := sub64 (l.cumAtLocked (off + 1)) ((l.heap (l.chunkAt off)).cum (l.slotOf off))
  let mask := l.maskAtLocked off
  let l := { l.clearSlot (l.chunkAt off) (l.slotOf off) with
    bytes := sub64 l.bytes freed
    evictedByCount := if byCount then l.evictedByCount + 1 else l.evictedByCount
    evictedByBytes := if byCount then l.evictedByBytes else l.evictedByBytes + 1
    evictedUnread := if off ≥ l.lwm then l.evictedUnread + 1 else l.evictedUnread
    consumers := if l.masked then l.consumers.mapIdx (accountEvict off mask) else l.consumers
    lso := off + 1 }
  if l.lso - l.firstBase ≥ logChunkSlots then l.detachLocked else l

/-- `for l.lso < keep`: every iteration raises `lso` by one, so `keep - lso`
iterations are left. -/
@[grind =] def evictLoop : ℕ → Log → Log
  | 0, l => l
  | n + 1, l =>
    let byCount : Bool := l.leo - l.lso > l.maxMessages
    if !byCount && l.bytes ≤ l.maxBytes then l else evictLoop n (l.evictOne byCount)

/-- Drop the oldest records while a bound is exceeded, never the one at `keep`. -/
def evictLocked (l : Log) (keep : ℕ) : Log := evictLoop (keep - l.lso) l

@[grind =] def attachChunkLocked (l : Log) : Log :=
  { l with
    heap := Function.update l.heap l.nextChunk
      (LogChunk.new (l.firstBase + logChunkSlots * l.chunks.length))
    nextChunk := l.nextChunk + 1
    chunks := l.chunks ++ [l.nextChunk]
    bytes := add64 l.bytes l.chunkBytes }

/-- Move `C[c]` over the record at `off` for one caught-up consumer without its
bit. -/
@[grind =] def skipCaughtUp (off : ℕ) (mask : Mask) (i : ℕ) (con : LogConsumer) : LogConsumer :=
  if con.committed = off ∧ hasBit mask i = false then { con with committed := off + 1 } else con

@[grind =] def skipCaughtUpLocked (l : Log) (off : ℕ) (mask : Mask) : Log × Option ClearReq :=
  let moved := l.consumers.zipIdx.any (fun p => p.1.committed = off ∧ hasBit mask p.2 = false)
  if moved then updateLWMLocked { l with consumers := l.consumers.mapIdx (skipCaughtUp off mask) }
  else (l, none)

/-- The part of `AppendMask` that makes sure a chunk covers `leo`. -/
@[grind =] def openChunk (l : Log) : Log :=
  let l := if l.chunks.isEmpty then { l with firstBase := l.leo } else l
  if (l.leo - l.firstBase) / logChunkSlots = l.chunks.length then l.attachChunkLocked else l

/-- The part of `AppendMask` that stores the frame in the slot of `leo`. -/
@[grind =] def writeRecord (l : Log) (frame : Bytes) (mask : Mask) : Log :=
  let slot := l.slotOf l.leo
  let acc := logFrameAccounted frame.length
  let l := l.updChunk (l.chunkAt l.leo) (fun ck => { ck with
    cum := Function.update ck.cum slot l.total
    masks := if l.masked then Function.update ck.masks slot mask else ck.masks
    slots := Function.update ck.slots slot (some frame) })
  { l with total := add64 l.total acc, bytes := add64 l.bytes acc, leo := l.leo + 1 }

/-- What `AppendMask` does once the frame is stored: caught-up consumers skip it
and the bounds are enforced. -/
@[grind =] def settleAppend (l : Log) (off : ℕ) (mask : Mask) : Log × Option ClearReq :=
  let (l, clear) :=
    if l.masked && (mask &&& l.allMask) != l.allMask then l.skipCaughtUpLocked off mask else (l, none)
  if l.leo - l.lso > l.maxMessages ∨ l.bytes > l.maxBytes then (l.evictLocked off, clear) else (l, clear)

/-- `4+recLen == len(frame)`, with a complete length prefix. -/
def wholeFrame (frame : Bytes) : Bool :=
  4 ≤ frame.length && (get32 frame).toNat + 4 = frame.length

/-- `AppendMask`: the offset of an accepted frame, and the slots to clear. -/
@[grind =] def appendMask (l : Log) (frame : Bytes) (kind : LogKind) (mask : Mask) :
    Log × Option ℕ × Option ClearReq :=
  if !wholeFrame frame then ({ l with droppedInv := l.droppedInv + 1 }, none, none)
  else if frame.length > l.maxRecordBytes then ({ l with droppedSize := l.droppedSize + 1 }, none, none)
  else if l.sealedFlag then ({ l with uncaptured := l.uncaptured + 1 }, none, none)
  else
    let off := l.leo
    let l := { l with appended := Function.update l.appended kind (l.appended kind + 1) }
    if l.consumers.isEmpty then
      ({ l with leo := off + 1, lso := off + 1, lwm := off + 1, trimmed := l.trimmed + 1 }, some off, none)
    else
      let (l, clear) := (l.openChunk.writeRecord frame mask).settleAppend off mask
      (l, some off, clear)

/-- First offset in `[x, x + n)` whose record carries bit `c`, or `x + n`. -/
def skipRun (l : Log) (c : ℕ) : ℕ → ℕ → ℕ
  | 0, x => x
  | n + 1, x => if hasBit (l.maskAtLocked x) c then x else skipRun l c n (x + 1)

/-- Move `C[c]` over the leading run of records without bit `c`, scanning at most
`maxScan` offsets. -/
def skipLaggingLocked (l : Log) (c : ℕ) : Log × Bool :=
  let x := max (l.con c).committed l.lso
  if x ≥ l.leo then (l, false)
  else
    let stop := min l.leo (x + l.maxScan)
    let y := l.skipRun c (stop - x) x
    if y = x ∨ y ≤ (l.con c).committed then (l, false)
    else (l.updCon c (fun con => { con with committed := y }), true)

@[grind =] def advanceLoop : List ℕ → Log → Log × Bool
  | [], l => (l, false)
  | c :: cs, l =>
    let (l, moved) := l.skipLaggingLocked c
    let (l, moved') := advanceLoop cs l
    (l, moved || moved')

@[grind =] def advanceSkipped (l : Log) : Log × Option ClearReq :=
  if l.masked then
    let (l, moved) := advanceLoop (List.range l.consumers.length) l
    if moved then l.updateLWMLocked else (l, none)
  else (l, none)

def clearBitAt (l : Log) (c : ℕ) (drop : Bytes → Bool) (x : ℕ) : Log × Bool :=
  if hasBit (l.maskAtLocked x) c then
    match l.frameAt x with
    | none => (l, false)
    | some p =>
      if drop (p.take (4 + (get32 p).toNat)) then
        (l.updChunk (l.chunkAt x) (fun ck => { ck with
          masks := Function.update ck.masks (l.slotOf x) (l.maskAtLocked x &&& ~~~(1#64 <<< c)) }), true)
      else (l, false)
  else (l, false)

def clearBitsLoop (c : ℕ) (drop : Bytes → Bool) : ℕ → ℕ → Log → Log × ℕ
  | 0, _, l => (l, 0)
  | n + 1, x, l =>
    let (l, hit) := l.clearBitAt c drop x
    let (l, k) := clearBitsLoop c drop n (x + 1) l
    (l, if hit then k + 1 else k)

/-- The range `[x, end)` that `ClearConsumerBits` scans. -/
def sweepRange (l : Log) (c start : ℕ) : ℕ × ℕ :=
  let x := max (max start (l.con c).committed) l.lso
  (x, min l.leo (x + l.maxScan))

/-- The scan of `ClearConsumerBits`, before any position moves. -/
def sweepBits (l : Log) (c start : ℕ) (drop : Bytes → Bool) : Log × ℕ :=
  let (x, stop) := l.sweepRange c start
  clearBitsLoop c drop (stop - x) x l

/-- The persistent-expiry sweep. The result holds the offset after the last
scanned one and the number of bits cleared. -/
@[grind =] def clearConsumerBits (l : Log) (c start : ℕ) (drop : Bytes → Bool) :
    Log × (ℕ × ℕ) × Option ClearReq :=
  if !l.masked || c ≥ l.consumers.length then (l, (0, 0), none)
  else
    let (x, stop) := l.sweepRange c start
    let (l, cleared) := l.sweepBits c start drop
    let (l, clear) :=
      if cleared > 0 then
        let (l, moved) := l.skipLaggingLocked c
        if moved then l.updateLWMLocked else (l, none)
      else (l, none)
    (l, (max x stop, cleared), clear)

@[grind =] def commit (l : Log) (c off : ℕ) : Except LogError (Log × Option ClearReq) :=
  if c ≥ l.consumers.length then .error .unknownConsumer
  else if off > l.leo then .error .commitBeyondEnd
  else if off ≤ (l.con c).committed then .ok (l, none)
  else
    let l := l.updCon c (fun con => { con with committed := off })
    let l := if l.masked then (l.skipLaggingLocked c).1 else l
    .ok l.updateLWMLocked

@[grind =] def markServed (l : Log) (c upTo : ℕ) : Log :=
  if c ≥ l.consumers.length then l
  else l.updCon c (fun con => { con with served := max con.served (min upTo l.leo) })

@[grind =] def setConsumerState (l : Log) (c : ℕ) (st : LogConsumerState) : Log :=
  if c ≥ l.consumers.length then l else l.updCon c (fun con => { con with state := st })

/-- The loss formula for one consumer: records evicted below `lso` that were
neither committed nor served are charged once. -/
@[grind =] def observe (lso : ℕ) (con : LogConsumer) : LogConsumer :=
  if con.reading > 0 then con
  else
    let a := max (max con.acctNext con.committed) con.served
    if lso > a then { con with lostTotal := con.lostTotal + (lso - a), acctNext := lso }
    else { con with acctNext := a }

@[grind =] def observeLocked (l : Log) (c : ℕ) : Log := l.updCon c (observe l.lso)

@[grind =] def observeConsumer (l : Log) (c : ℕ) : Log :=
  if c ≥ l.consumers.length then l else l.observeLocked c

structure Resume where
  resumeAt : ℕ
  lso : ℕ
  leo : ℕ
  committed : ℕ
  lostOnResume : ℕ
  consumerStateUsed : Bool
  sourceReset : Bool
  deriving DecidableEq, Repr

def unreported (l : Log) (c : ℕ) : ℕ := counterDiff (l.con c).lostTotal (l.con c).reportedLost

@[grind =] def markReported (l : Log) (c : ℕ) : Log :=
  l.updCon c (fun con => { con with reportedLost := con.lostTotal })

@[grind =] def resumeCommit (l : Log) (c resumeOffset : ℕ) : Log × Option ClearReq :=
  if resumeOffset > (l.con c).committed then
    (l.updCon c (fun con => { con with committed := resumeOffset })).updateLWMLocked
  else (l, none)

/-- The same-epoch branch of `Resume`, for `resumeOffset ≤ leo`. -/
@[grind =] def resumeSameEpoch (l : Log) (c resumeOffset : ℕ) : Log × Resume × Option ClearReq :=
  let (l, clear) := l.resumeCommit c resumeOffset
  let l := l.observeLocked c
  let r : Resume := ⟨0, l.lso, l.leo, (l.con c).committed, 0, false, false⟩
  if resumeOffset ≥ l.lso then
    (l, { r with resumeAt := resumeOffset, consumerStateUsed := true }, clear)
  else if l.masked then
    (l.markReported c, { r with
      resumeAt := max (max resumeOffset (l.con c).committed) l.lso
      consumerStateUsed := resumeOffset ≥ l.lso || resumeOffset ≥ (l.con c).committed
      lostOnResume := l.unreported c }, clear)
  else (l, { r with resumeAt := l.lso, lostOnResume := l.lso - resumeOffset }, clear)

/-- The branch of `Resume` for a consumer without a position in this epoch. -/
@[grind =] def resumeOtherEpoch (l : Log) (c lastEpoch : ℕ) : Log × Resume :=
  let resumeAt := max (l.con c).committed l.lso
  let l := l.observeLocked c
  let r : Resume := ⟨resumeAt, l.lso, l.leo, (l.con c).committed, 0, false, lastEpoch != 0⟩
  if l.masked then (l.markReported c, { r with lostOnResume := l.unreported c })
  else if l.lso > (l.con c).committed then
    (l, { r with lostOnResume := l.lso - (l.con c).committed })
  else (l, r)

/-- `Resume`: the resume rules for a HELLO, applied atomically. -/
@[grind =] def resume (l : Log) (c lastEpoch resumeOffset : ℕ) :
    Except LogError (Log × Resume × Option ClearReq) :=
  if c ≥ l.consumers.length then .error .unknownConsumer
  else
    let resumeOffset := if resumeOffset = 0 then 1 else resumeOffset
    if lastEpoch = l.epoch then
      if resumeOffset > l.leo then .error .offsetOutOfRange
      else .ok (l.resumeSameEpoch c resumeOffset)
    else
      let (l, r) := l.resumeOtherEpoch c lastEpoch
      .ok (l, r, none)

end Log

end MonsterMQ.PeerLink
