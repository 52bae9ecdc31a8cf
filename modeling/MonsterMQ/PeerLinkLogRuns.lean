import Mathlib.Data.Finset.Interval
import Mathlib.Order.Interval.Finset.Nat
import MonsterMQ.PeerLinkLogPositions
import MonsterMQ.PeerLinkLogRead
import MonsterMQ.StateRuns

/-!
# Runs of the log

A log together with the calls in progress on it. One `Op` is one atomic step:
an operation under the mutex, one step of a read between its two locked parts, or
one store of a deferred `clearLogSlots`. The history (frames, masks, evicted
offsets) is recorded beside the log and read by no operation.
-/

namespace MonsterMQ.PeerLink

open LittleEndian

inductive ReadPhase where
  | waiting
  | scanning (s : ReadScan)
  | returned

/-- A `ReadFor` or `ReadSparse` call; `attempt` counts the retries of `readRetry`. -/
structure ReadOp where
  call : ReadCall
  attempt : ℕ
  phase : ReadPhase

structure LogSys where
  log : Log
  frames : List Bytes
  marks : List Mask
  evicted : Finset ℕ
  clears : List ClearReq
  reads : List ReadOp

inductive LogOp where
  | append (frame : Bytes) (kind : LogKind) (mask : Mask)
  | commit (c off : ℕ)
  | resume (c lastEpoch resumeOffset : ℕ)
  | advanceSkipped
  | clearConsumerBits (c start : ℕ) (drop : Bytes → Bool)
  | markServed (c upTo : ℕ)
  | setConsumerState (c : ℕ) (st : LogConsumerState)
  | observeConsumer (c : ℕ)
  | sealLog
  | clearSlot (k : ℕ)
  | readCall (call : ReadCall)
  | readSnapshot (k : ℕ)
  | readAdvance (k : ℕ)
  | readComplete (k : ℕ)

/-- What the caller of an operation gets back, where a property refers to it. -/
inductive LogOut where
  | silent
  | appended (off : Option ℕ)
  | failed (e : LogError)
  | resumed (c : ℕ) (r : Log.Resume)
  | read (call : ReadCall) (r : LogReadResult)
  deriving DecidableEq, Repr

namespace LogSys

@[grind =] def start (l : Log) : LogSys := ⟨l, [], [], ∅, [], []⟩

/-- Offsets `evictLocked` dropped between two states: its own counters say how many,
and they end at `lso`. -/
def evictedBetween (l l' : Log) : Finset ℕ :=
  Finset.Ico (l'.lso - (l'.evictedByCount + l'.evictedByBytes - (l.evictedByCount + l.evictedByBytes)))
    l'.lso

/-- A locked operation finished: keep its log and its deferred clears. -/
@[grind =] def after (s : LogSys) (l : Log) (clear : Option ClearReq) : LogSys :=
  { s with log := l, clears := s.clears ++ clear.toList }

@[grind =] def stepAppend (s : LogSys) (frame : Bytes) (kind : LogKind) (mask : Mask) : LogSys × LogOut :=
  match s.log.appendMask frame kind mask with
  | (l, some off, clear) =>
    ({ s.after l clear with
      frames := s.frames ++ [frame]
      marks := s.marks ++ [mask]
      evicted := s.evicted ∪ evictedBetween s.log l }, .appended (some off))
  | (l, none, clear) => (s.after l clear, .appended none)

@[grind =] def stepCommit (s : LogSys) (c off : ℕ) : LogSys × LogOut :=
  match s.log.commit c off with
  | .error e => (s, .failed e)
  | .ok (l, clear) => (s.after l clear, .silent)

@[grind =] def stepResume (s : LogSys) (c lastEpoch resumeOffset : ℕ) : LogSys × LogOut :=
  match s.log.resume c lastEpoch resumeOffset with
  | .error e => (s, .failed e)
  | .ok (l, r, clear) => (s.after l clear, .resumed c r)

/-- The masks of the records still held are read back once bits may have changed. -/
@[grind =] def stepClearBits (s : LogSys) (c start : ℕ) (drop : Bytes → Bool) : LogSys :=
  let (l, _, clear) := s.log.clearConsumerBits c start drop
  { s.after l clear with
    marks := if s.log.masked && c < s.log.consumers.length then
      (s.log.sweepBits c start drop).1.readMarks s.marks else s.marks }

@[grind =] def stepClearSlot (s : LogSys) (k : ℕ) : LogSys :=
  match s.clears[k]? with
  | none => s
  | some req =>
    if req.a < req.b then
      { s with log := s.log.clearSlot req.chunk req.a, clears := s.clears.set k { req with a := req.a + 1 } }
    else s

/-- `ReadFor` and `ReadSparse` check the consumer index before anything else, and an
unmasked log has no sparse reads. -/
@[grind =] def stepReadCall (s : LogSys) (call : ReadCall) : LogSys × LogOut :=
  if call.c ≥ s.log.consumers.length then (s, .failed .unknownConsumer)
  else
    let call := { call with sparse := call.sparse && s.log.masked }
    ({ s with reads := s.reads ++ [⟨call, 0, .waiting⟩] }, .silent)

@[grind =] def stepReadSnapshot (s : LogSys) (k : ℕ) : LogSys × LogOut :=
  match s.reads[k]? with
  | some ⟨call, attempt, .waiting⟩ =>
    match s.log.readSnapshot call with
    | .error e => ({ s with reads := s.reads.set k ⟨call, attempt, .returned⟩ }, .failed e)
    | .ok (l, scan) => ({ s with log := l, reads := s.reads.set k ⟨call, attempt, .scanning scan⟩ }, .silent)
  | _ => (s, .silent)

@[grind =] def stepReadAdvance (s : LogSys) (k : ℕ) : LogSys :=
  match s.reads[k]? with
  | some ⟨call, attempt, .scanning scan⟩ =>
    { s with reads := s.reads.set k ⟨call, attempt, .scanning (scan.advance s.log call)⟩ }
  | _ => s

/-- The second locked step, once the loop has ended; then `readRetry` decides. -/
@[grind =] def stepReadComplete (s : LogSys) (k : ℕ) : LogSys × LogOut :=
  match s.reads[k]? with
  | some ⟨call, attempt, .scanning scan⟩ =>
    if scan.running then (s, .silent)
    else
      let s := { s with log := s.log.readComplete call scan }
      if Log.retries attempt call scan then
        ({ s with reads := s.reads.set k ⟨call, attempt + 1, .waiting⟩ }, .silent)
      else
        ({ s with reads := s.reads.set k ⟨call, attempt, .returned⟩ }, .read call (scan.result call))
  | _ => (s, .silent)

@[grind =] def stepOut (s : LogSys) : LogOp → LogSys × LogOut
  | .append frame kind mask => s.stepAppend frame kind mask
  | .commit c off => s.stepCommit c off
  | .resume c lastEpoch resumeOffset => s.stepResume c lastEpoch resumeOffset
  | .advanceSkipped => let (l, clear) := s.log.advanceSkipped; (s.after l clear, .silent)
  | .clearConsumerBits c start drop => (s.stepClearBits c start drop, .silent)
  | .markServed c upTo => ({ s with log := s.log.markServed c upTo }, .silent)
  | .setConsumerState c st => ({ s with log := s.log.setConsumerState c st }, .silent)
  | .observeConsumer c => ({ s with log := s.log.observeConsumer c }, .silent)
  | .sealLog => ({ s with log := s.log.sealLog.1 }, .silent)
  | .clearSlot k => (s.stepClearSlot k, .silent)
  | .readCall call => s.stepReadCall call
  | .readSnapshot k => s.stepReadSnapshot k
  | .readAdvance k => (s.stepReadAdvance k, .silent)
  | .readComplete k => s.stepReadComplete k

variable (s : LogSys) (k : ℕ)

theorem stepOut_readSnapshot : s.stepOut (.readSnapshot k) = (s, .silent) ∨
    ∃ call attempt, s.reads[k]? = some ⟨call, attempt, .waiting⟩ ∧
      ((∃ e, s.log.readSnapshot call = .error e ∧ s.stepOut (.readSnapshot k) =
          ({ s with reads := s.reads.set k ⟨call, attempt, .returned⟩ }, .failed e)) ∨
        ∃ l scan, s.log.readSnapshot call = .ok (l, scan) ∧ s.stepOut (.readSnapshot k) =
          ({ s with log := l, reads := s.reads.set k ⟨call, attempt, .scanning scan⟩ }, .silent)) := by
  simp only [stepOut, stepReadSnapshot]
  split
  · rename_i call attempt hk
    refine .inr ⟨call, attempt, hk, ?_⟩
    split
    · next e hr => exact .inl ⟨e, hr, rfl⟩
    · next l scan hr => exact .inr ⟨l, scan, hr, rfl⟩
  · exact .inl rfl

theorem stepOut_readAdvance : s.stepOut (.readAdvance k) = (s, .silent) ∨
    ∃ call attempt scan, s.reads[k]? = some ⟨call, attempt, .scanning scan⟩ ∧ s.stepOut (.readAdvance k) =
      ({ s with reads := s.reads.set k ⟨call, attempt, .scanning (scan.advance s.log call)⟩ }, .silent) := by
  simp only [stepOut, stepReadAdvance]
  split
  · rename_i call attempt scan hk
    exact .inr ⟨call, attempt, scan, hk, rfl⟩
  · exact .inl rfl

variable {s k} in
theorem stepOut_completed {call : ReadCall} {attempt : ℕ} {scan : ReadScan}
    (hk : s.reads[k]? = some ⟨call, attempt, .scanning scan⟩) (hrun : scan.running = false) :
    s.stepOut (.readComplete k) =
      ({ s with
        log := s.log.readComplete call scan
        reads := s.reads.set k (if Log.retries attempt call scan then ⟨call, attempt + 1, .waiting⟩
          else ⟨call, attempt, .returned⟩) },
        if Log.retries attempt call scan then .silent else .read call (scan.result call)) := by
  simp only [stepOut, stepReadComplete, hk, hrun, Bool.false_eq_true, if_false]
  split <;> rfl

theorem stepOut_readComplete :
    (s.stepOut (.readComplete k) = (s, .silent) ∧
      ∀ call attempt scan, s.reads[k]? = some ⟨call, attempt, .scanning scan⟩ → scan.running = true) ∨
    ∃ call attempt scan, s.reads[k]? = some ⟨call, attempt, .scanning scan⟩ ∧ scan.running = false := by
  simp only [stepOut, stepReadComplete]
  split
  · rename_i call attempt scan hk
    split
    · next hrun =>
      refine .inl ⟨rfl, fun call' attempt' scan' hk' => ?_⟩
      rw [hk] at hk'
      cases hk'
      exact hrun
    · next hrun => exact .inr ⟨call, attempt, scan, hk, by simpa using hrun⟩
  · next hk => exact .inl ⟨rfl, fun call attempt scan hk' => absurd hk' (hk call attempt scan)⟩

@[grind =] def step (s : LogSys) (op : LogOp) : LogSys := (s.stepOut op).1

def run (l : Log) (ops : List LogOp) : LogSys := StateRuns.run step (start l) ops

end LogSys

end MonsterMQ.PeerLink
