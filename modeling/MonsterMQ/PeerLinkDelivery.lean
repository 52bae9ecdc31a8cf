import MonsterMQ.PeerLinkLogTrim

/-!
# One source and one puller

The source log together with the puller of consumer `c`: `server.go`, `puller.go` and `inject.go` of
`internal/peerlink`. Frames travel in order and are lost only with their connection.
-/

namespace MonsterMQ.PeerLink

open LittleEndian

/-- A BATCH as the puller decodes it. `sparse` records that the source used
`ReadSparse`; the puller does not see it. -/
structure Batch where
  offsets : List ℕ
  next : ℕ
  sparse : Bool
  deriving DecidableEq, Repr

/-- `BaseOffset + Delta(i)` for each record, and `BaseOffset + Span()`. -/
@[grind =] def Batch.ofResult (sparse : Bool) (r : LogReadResult) : Batch :=
  if r.sparse then ⟨r.deltas.map (r.base + ·), r.base + r.span, sparse⟩
  else ⟨(List.range r.count).map (r.base + ·), r.base + r.count, sparse⟩

theorem Batch.ofResult_sparse (sparse : Bool) (r : LogReadResult) :
    (Batch.ofResult sparse r).sparse = sparse := by
  unfold Batch.ofResult
  split <;> rfl

inductive SourceFrame where
  | fetch (offset commit : ℕ)
  | commit (off : ℕ)
  deriving DecidableEq, Repr

/-- The local variables of `applyBatch`: the records ahead, the offset after the batch
and the record just applied. -/
structure Applying where
  rest : List ℕ
  next : ℕ
  sparse : Bool
  last : Option ℕ
  deriving DecidableEq, Repr

/-- `serveFetch`: the offset asked for, the running call and its result. -/
structure Serving where
  offset : ℕ
  call : ℕ
  result : Option LogReadResult
  deriving DecidableEq, Repr

/-- An established connection. `next` and `asked` belong to the reader of the puller,
`lastCommit` to its writer, `handoff` and `applying` to its injector; `fetches` and
`serving` belong to the session of the source. -/
structure Session where
  interest : Bool
  next : ℕ
  asked : Bool
  lastCommit : ℕ
  frames : List SourceFrame
  fetches : List ℕ
  serving : Option Serving
  batches : List Batch
  handoff : List Batch
  applying : Option Applying
  deriving DecidableEq, Repr

@[grind =] def Session.start (interest : Bool) (next : ℕ) : Session :=
  ⟨interest, next, false, 0, [], [], none, [], [], none⟩

/-- `processed` lists the offsets given to `applyRecord`, each with the kind of its
batch. `stale` holds commits of an old connection that the source has read but not
applied, `greeting` a HELLO_OK on its way. -/
structure LinkSys where
  sys : LogSys
  epoch : ℕ
  appliedNext : ℕ
  processed : List (ℕ × Bool)
  session : Option Session
  stale : List ℕ
  greeting : Option (ℕ × Bool)

inductive LinkOp where
  /-- a step of the log that is not a call of this link -/
  | log (op : LogOp)
  | hello (interest : Bool)
  | helloOK
  | disconnect
  | sendFetch
  | sendCommit (off : ℕ)
  | handleFrame
  | staleCommit (i : ℕ)
  | serve (maxRecords maxBytes : ℕ)
  | readAgain (maxRecords maxBytes : ℕ)
  | reply
  | receive
  | takeBatch
  | applyRecord
  | commitFn
  | finishBatch
  | cancelBatch

/-- The operation is not a commit, a resume, a read or an expiry sweep for `c`. -/
def LogOp.foreign (c : ℕ) : LogOp → Bool
  | .commit d _ => d ≠ c
  | .resume d _ _ => d ≠ c
  | .clearConsumerBits d _ _ => d ≠ c
  | .markServed d _ => d ≠ c
  | .readCall call => call.c ≠ c
  | _ => true

@[grind =] def SourceFrame.commits : SourceFrame → List ℕ
  | .fetch _ upTo => if upTo = 0 then [] else [upTo]
  | .commit off => [off]

namespace LinkSys

def start (l : Log) : LinkSys := ⟨LogSys.start l, 0, 0, [], none, [], none⟩

@[grind =] def withSession (t : LinkSys) (f : Session → Session) : LinkSys :=
  { t with session := t.session.map f }

/-- The connection is gone. The source may still apply commits it has read. -/
@[grind =] def drop (t : LinkSys) : LinkSys :=
  match t.session with
  | none => t
  | some s => { t with session := none, stale := t.stale ++ s.frames.flatMap SourceFrame.commits }

def raised (c : ℕ) (s : LogSys) (op : LogOp) : Option LogError :=
  match (s.stepOut op).2, op with
  | .failed e, .readSnapshot k => if (s.reads[k]?.any (fun r => r.call.c = c)) then some e else none
  | _, _ => none

/-- A finished read goes to the session that serves it. -/
@[grind =] def stepLog (c : ℕ) (t : LinkSys) (op : LogOp) : LinkSys × Option LogError :=
  if op.foreign c then
    let t' := { t with sys := t.sys.step op }
    (match (t.sys.stepOut op).2, op with
      | .read _ r, .readComplete k => t'.withSession (fun s => { s with
          serving := s.serving.map (fun v => if v.call = k then { v with result := some r } else v) })
      | _, _ => t', raised c t.sys op)
  else (t, none)

/-- HELLO reaches the source, which answers with the rules of `Resume`. -/
@[grind =] def stepHello (c : ℕ) (t : LinkSys) (interest : Bool) : LinkSys × Option LogError :=
  match t.session with
  | some _ => (t, none)
  | none =>
    let (lastEpoch, resumeOffset) := if t.epoch ≠ 0 then (t.epoch, t.appliedNext) else (0, 0)
    match t.sys.stepOut (.resume c lastEpoch resumeOffset) with
    | (s, .resumed _ r) => ({ t with sys := s, greeting := some (r.resumeAt, interest) }, none)
    | (s, .failed e) => ({ t with sys := s, greeting := none }, some e)
    | (s, _) => ({ t with sys := s }, none)

@[grind =] def stepHelloOK (t : LinkSys) : LinkSys :=
  match t.session, t.greeting with
  | none, some (resumeAt, interest) =>
    { t with
      epoch := t.sys.log.epoch
      appliedNext := resumeAt
      session := some (Session.start interest resumeAt)
      greeting := none }
  | _, _ => t

/-- The session ends only once the injector is between two batches. -/
@[grind =] def stepDisconnect (t : LinkSys) : LinkSys :=
  match t.session with
  | some s =>
    match s.applying with
    | none => t.drop
    | some _ => t
  | none => { t with greeting := none }

/-- The writer: a FETCH carries the position as commit when that is news. -/
def stepSendFetch (t : LinkSys) : LinkSys :=
  t.withSession (fun s =>
    if s.asked then s
    else
      let commit := if t.appliedNext > s.lastCommit then t.appliedNext else 0
      { s with
        asked := true
        lastCommit := max s.lastCommit commit
        frames := s.frames ++ [.fetch s.next commit] })

/-- The writer takes a commit command; the injector queued it when `appliedNext`
reached `off`. -/
def stepSendCommit (t : LinkSys) (off : ℕ) : LinkSys :=
  t.withSession (fun s =>
    if off ≤ t.appliedNext ∧ off > s.lastCommit then
      { s with lastCommit := off, frames := s.frames ++ [.commit off] }
    else s)

@[grind =] def sourceCommit (c : ℕ) (t : LinkSys) (off : ℕ) : LinkSys × Option LogError :=
  match t.sys.stepOut (.commit c off) with
  | (s, .failed e) => ({ t with sys := s }.drop, some e)
  | (s, _) => ({ t with sys := s }, none)

@[grind =] def stepHandleFrame (c : ℕ) (t : LinkSys) : LinkSys × Option LogError :=
  match t.session with
  | none => (t, none)
  | some s =>
    match s.frames with
    | [] => (t, none)
    | .commit off :: frames => sourceCommit c { t with session := some { s with frames := frames } } off
    | .fetch offset commit :: frames =>
      let t := { t with
        sys := t.sys.step (.observeConsumer c)
        session := some { s with frames := frames, fetches := s.fetches ++ [offset] } }
      if commit ≠ 0 then sourceCommit c t commit else (t, none)

@[grind =] def stepStaleCommit (c : ℕ) (t : LinkSys) (i : ℕ) : LinkSys × Option LogError :=
  match t.stale[i]? with
  | none => (t, none)
  | some off =>
    match t.sys.stepOut (.commit c off) with
    | (s, .failed e) => ({ t with sys := s, stale := t.stale.eraseIdx i }, some e)
    | (s, _) => ({ t with sys := s, stale := t.stale.eraseIdx i }, none)

def beginRead (c : ℕ) (t : LinkSys) (s : Session) (offset maxRecords maxBytes : ℕ) : LinkSys :=
  { t with
    sys := t.sys.step (.readCall ⟨c, offset, maxRecords, maxBytes, s.interest⟩)
    session := some { s with serving := some ⟨offset, t.sys.reads.length, none⟩ } }

@[grind =] def stepServe (c : ℕ) (t : LinkSys) (maxRecords maxBytes : ℕ) : LinkSys × Option LogError :=
  match t.session with
  | some s =>
    match s.serving, s.fetches with
    | none, offset :: fetches =>
      if offset = 0 ∨ offset > t.sys.log.leo then (t.drop, some .offsetOutOfRange)
      else (beginRead c t { s with fetches := fetches } offset maxRecords maxBytes, none)
    | _, _ => (t, none)
  | none => (t, none)

/-- The long poll and the linger of `serveFetch` read once more. -/
@[grind =] def stepReadAgain (c : ℕ) (t : LinkSys) (maxRecords maxBytes : ℕ) : LinkSys :=
  match t.session with
  | some s =>
    match s.serving with
    | some ⟨offset, _, some _⟩ => beginRead c t s offset maxRecords maxBytes
    | _ => t
  | none => t

def stepReply (t : LinkSys) : LinkSys :=
  t.withSession (fun s =>
    match s.serving with
    | some ⟨_, _, some r⟩ =>
      { s with serving := none, batches := s.batches ++ [Batch.ofResult s.interest r] }
    | _ => s)

/-- The reader takes a BATCH and hands it to the injector. -/
def stepReceive (t : LinkSys) : LinkSys :=
  t.withSession (fun s =>
    match s.batches with
    | [] => s
    | b :: batches =>
      { s with batches := batches, next := b.next, asked := false, handoff := s.handoff ++ [b] })

def stepTakeBatch (t : LinkSys) : LinkSys :=
  t.withSession (fun s =>
    match s.applying, s.handoff with
    | none, b :: handoff =>
      { s with handoff := handoff, applying := some ⟨b.offsets, b.next, b.sparse, none⟩ }
    | _, _ => s)

@[grind =] def stepApplyRecord (t : LinkSys) : LinkSys :=
  match t.session with
  | some s =>
    match s.applying with
    | some ⟨off :: rest, next, sparse, _⟩ =>
      if off < t.appliedNext then
        { t with session := some { s with applying := some ⟨rest, next, sparse, none⟩ } }
      else
        { t with
          processed := t.processed ++ [(off, sparse)]
          session := some { s with applying := some ⟨rest, next, sparse, some off⟩ } }
    | _ => t
  | none => t

/-- `commitFn` in the middle of a batch; its COMMIT is sent by `stepSendCommit` or not
at all. -/
@[grind =] def stepCommitFn (t : LinkSys) : LinkSys :=
  match t.session with
  | some s =>
    match s.applying with
    | some ⟨_, _, _, some off⟩ => { t with appliedNext := max t.appliedNext (off + 1) }
    | _ => t
  | none => t

@[grind =] def stepFinishBatch (t : LinkSys) : LinkSys :=
  match t.session with
  | some s =>
    match s.applying with
    | some ⟨[], next, _, _⟩ =>
      { t with
        appliedNext := max t.appliedNext next
        session := some { s with applying := none } }
    | _ => t
  | none => t

/-- `applyBatch` finds its context cancelled after a record; the session ends. -/
@[grind =] def stepCancelBatch (t : LinkSys) : LinkSys :=
  match t.session with
  | some s =>
    match s.applying with
    | some ⟨_, _, _, some off⟩ => { t with appliedNext := max t.appliedNext (off + 1) }.drop
    | _ => t
  | none => t

@[grind =] def stepOut (c : ℕ) (t : LinkSys) : LinkOp → LinkSys × Option LogError
  | .log op => t.stepLog c op
  | .hello interest => t.stepHello c interest
  | .helloOK => (t.stepHelloOK, none)
  | .disconnect => (t.stepDisconnect, none)
  | .sendFetch => (t.stepSendFetch, none)
  | .sendCommit off => (t.stepSendCommit off, none)
  | .handleFrame => t.stepHandleFrame c
  | .staleCommit i => t.stepStaleCommit c i
  | .serve maxRecords maxBytes => t.stepServe c maxRecords maxBytes
  | .readAgain maxRecords maxBytes => (t.stepReadAgain c maxRecords maxBytes, none)
  | .reply => (t.stepReply, none)
  | .receive => (t.stepReceive, none)
  | .takeBatch => (t.stepTakeBatch, none)
  | .applyRecord => (t.stepApplyRecord, none)
  | .commitFn => (t.stepCommitFn, none)
  | .finishBatch => (t.stepFinishBatch, none)
  | .cancelBatch => (t.stepCancelBatch, none)

@[grind =] def step (c : ℕ) (t : LinkSys) (op : LinkOp) : LinkSys := (t.stepOut c op).1

def run (c : ℕ) (l : Log) (ops : List LinkOp) : LinkSys := StateRuns.run (step c) (start l) ops

end LinkSys

end MonsterMQ.PeerLink
