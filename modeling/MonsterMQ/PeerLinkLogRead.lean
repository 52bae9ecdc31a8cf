import MonsterMQ.PeerLinkLog

/-!
# Reading the log

`ReadFor` and `ReadSparse` of `internal/peerlink/log.go`, cut at their atomic points: the locked snapshot,
each load of a slot, each load of a mask with the work that follows it, and the locked completion. Other
operations may run between any two of them.
-/

namespace MonsterMQ.PeerLink

open LittleEndian

/-- The arguments of one `ReadFor` or `ReadSparse`; the consumer index has been
checked. A limit of zero stands for every `int` up to zero. -/
structure ReadCall where
  c : ℕ
  start : ℕ
  maxRecords : ℕ
  maxBytes : ℕ
  sparse : Bool
  deriving DecidableEq, Repr

/-- The local variables of `read` and `readSparse` after their snapshot. `ptr` is the
slot loaded last, `done` marks a `break`. -/
structure ReadScan where
  lso : ℕ
  leo : ℕ
  base : ℕ
  n : ℕ
  fb : ℕ
  c0 : ℕ
  cks : List ℕ
  lost : ℕ
  i : ℕ
  dst : List Bytes
  ds : List ℕ
  total : ℕ
  skipped : Bool
  truncated : Bool
  done : Bool
  ptr : Option Bytes
  deriving DecidableEq, Repr

structure LogReadResult where
  base : ℕ
  count : ℕ
  span : ℕ
  sparse : Bool
  bytes : ℕ
  lost : ℕ
  truncated : Bool
  lso : ℕ
  leo : ℕ
  out : List Bytes
  deltas : List ℕ
  deriving DecidableEq, Repr

/-- Span-table size already owed for `n` records of a sparse batch. -/
def sparseOverhead (sparse : Bool) (n : ℕ) : ℕ := if sparse then 4 + 4 * n else 0

namespace Log

/-- `4 + recLen`, the number of bytes sliced from a stored pointer. -/
def frameSize (p : Bytes) : ℕ := 4 + (get32 p).toNat

/-- Offsets a snapshot at `base` may scan, before the chunk limit. -/
def scanLimit (l : Log) (call : ReadCall) (base : ℕ) : ℕ :=
  if call.maxRecords = 0 then 0
  else if call.sparse then min (l.leo - base) l.maxScan
  else min (l.leo - base) call.maxRecords

/-- The chunk window of a snapshot: `n`, `c0` and the copied chunk pointers. -/
def scanWindow (l : Log) (base n : ℕ) : ℕ × ℕ × List ℕ :=
  if n > 0 then
    let c0 := (base - l.firstBase) / logChunkSlots
    let cLast := (base + n - 1 - l.firstBase) / logChunkSlots
    if cLast - c0 ≥ logReadMaxChunks then
      let cLast := c0 + logReadMaxChunks - 1
      (l.firstBase + (cLast + 1) * logChunkSlots - base, c0, (l.chunks.drop c0).take (cLast + 1 - c0))
    else (n, c0, (l.chunks.drop c0).take (cLast + 1 - c0))
  else (n, 0, [])

@[grind =] def readSnapshot (l : Log) (call : ReadCall) : Except LogError (Log × ReadScan) :=
  if call.start = 0 ∨ call.start > l.leo then .error .offsetOutOfRange
  else
    let l' := (l.observeLocked call.c).updCon call.c (fun con => { con with reading := con.reading + 1 })
    let base := max call.start l.lso
    let (n, c0, cks) := l.scanWindow base (l.scanLimit call base)
    .ok (l',
      { lso := l.lso, leo := l.leo, base := base, n := n, fb := l.firstBase, c0 := c0, cks := cks
        lost := if call.sparse then l'.unreported call.c else base - call.start
        i := 0, dst := [], ds := [], total := 0, skipped := false, truncated := false, done := false
        ptr := none })

end Log

namespace ReadScan

/-- Whether the loop goes on to offset `base + i`. -/
@[grind =] def running (s : ReadScan) : Bool := !s.done && s.i < s.n

/-- The chunk and slot of offset `base + i` in the copied window. -/
def slotRef (s : ReadScan) : ℕ × ℕ :=
  let rel := s.base + s.i - s.fb
  (s.cks.getD (rel / logChunkSlots - s.c0) 0, rel % logChunkSlots)

def loadSlot (l : Log) (s : ReadScan) : ReadScan :=
  match (l.heap s.slotRef.1).slots s.slotRef.2 with
  | none => { s with truncated := true, done := true }
  | some p => { s with ptr := some p }

/-- Append the record at `base + i` to the batch. -/
@[grind =] def take (s : ReadScan) (p : Bytes) : ReadScan :=
  { s with
    dst := s.dst ++ [p.take (Log.frameSize p)]
    ds := s.ds ++ [s.i]
    total := s.total + Log.frameSize p
    i := s.i + 1
    ptr := none }

def takeDense (call : ReadCall) (s : ReadScan) (p : Bytes) : ReadScan :=
  if call.maxBytes > 0 ∧ s.dst ≠ [] ∧ s.total + Log.frameSize p > call.maxBytes then
    { s with done := true, ptr := none }
  else s.take p

/-- The rest of the loop body of `readSparse`, from the load of the mask. -/
def takeSparse (l : Log) (call : ReadCall) (s : ReadScan) (p : Bytes) : ReadScan :=
  if hasBit ((l.heap s.slotRef.1).masks s.slotRef.2) call.c = false then
    if s.skipped = false ∧ call.maxBytes > 0 ∧ s.dst ≠ [] ∧
        s.total + 4 + 4 * s.dst.length > call.maxBytes then
      { s with done := true, ptr := none }
    else { s with skipped := true, i := s.i + 1, ptr := none }
  else
    let cost := if s.skipped then Log.frameSize p + 4 else Log.frameSize p
    if call.maxBytes > 0 ∧ s.dst ≠ [] ∧
        s.total + cost + sparseOverhead s.skipped s.dst.length > call.maxBytes then
      { s with done := true, ptr := none }
    else
      let s := s.take p
      if s.dst.length ≥ call.maxRecords then { s with done := true } else s

/-- One atomic step of the unlocked loop: a load when no slot is pending, otherwise
the work on the pending one. -/
def advance (l : Log) (call : ReadCall) (s : ReadScan) : ReadScan :=
  if s.running then
    match s.ptr with
    | none => s.loadSlot l
    | some p => if call.sparse then s.takeSparse l call p else s.takeDense call p
  else s

/-- Number of offsets covered: a dense read returns every record it passes. -/
@[grind =] def span (call : ReadCall) (s : ReadScan) : ℕ := if call.sparse then s.i else s.dst.length

@[grind =] def result (call : ReadCall) (s : ReadScan) : LogReadResult :=
  let sparse := call.sparse && s.dst.length < s.span call
  { base := s.base, count := s.dst.length, span := s.span call, sparse := sparse, bytes := s.total
    lost := s.lost, truncated := s.truncated, lso := s.lso, leo := s.leo, out := s.dst
    deltas := if sparse then s.ds else [] }

@[grind =] def offsets (s : ReadScan) : List ℕ := s.ds.map (s.base + ·)

end ReadScan

namespace Log

@[grind =] def readComplete (l : Log) (call : ReadCall) (s : ReadScan) : Log :=
  l.updCon call.c (fun con => { con with
    served := max con.served (s.base + s.span call)
    reportedLost := if call.sparse && (!s.truncated || s.span call > 0) then
      con.reportedLost + s.lost else con.reportedLost
    reading := con.reading - 1 })

/-- `readRetry` takes a fresh snapshot after an empty truncated read, twice at most. -/
@[grind =] def retries (attempt : ℕ) (call : ReadCall) (s : ReadScan) : Bool :=
  s.span call = 0 && s.truncated && attempt ≠ 2

end Log

end MonsterMQ.PeerLink
