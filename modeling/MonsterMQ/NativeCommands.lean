import MonsterMQ.AuthAcl
import MonsterMQ.FiniteMaps
import MonsterMQ.StateRuns
import Mathlib.Data.List.Sort
import Mathlib.Data.List.Nodup
import Mathlib.Logic.Function.Basic

/-!
# Commands of the native branch

`Command`, `execute` and `pruneCommands` of `winccoanative/service.go` and the write collector of
`topics.go`. A turn is one critical section, one call of WinCC OA or one publish; time goes on between the
turns.
-/

namespace MonsterMQ.WinccoaNative

open LittleEndian Auth StateRuns FiniteMaps

inductive Verdict where
  | accept
  | notNative
  | denied
  | invalid
  | unavailable
  | wildcardDeny
  | sharedDeny
  | disabled
  | badPayload
  | retained
  deriving DecidableEq, Repr

/-- What `ParseCommand` returns, as far as it is used here. -/
structure Cmd where
  id : Bytes
  replyTo : Bytes
  deriving DecidableEq, Repr

structure Call where
  clientID : Bytes
  topic : Bytes
  /-- `Names.Parse`: whether the topic is one for commands. -/
  parsed : Option Bool
  retain : Bool
  cmd : Option Cmd
  /-- `resolveTarget`. -/
  target : Verdict
  /-- `ConvertValue`. -/
  converts : Bool
  reply : Bytes

namespace Call

def check (r : Call) : Except Verdict Cmd :=
  match r.parsed with
  | none => .error .invalid
  | some false => .error .denied
  | some true =>
    if r.retain then .error .retained
    else match r.cmd with
      | none => .error .badPayload
      | some cmd =>
        if r.target ≠ .accept then .error r.target
        else if r.converts then .ok cmd
        else .error .badPayload

def replyTopic (r : Call) (cmd : Cmd) : Bytes := if r.reply = [] ∧ cmd.replyTo ≠ [] then cmd.replyTo else r.reply

end Call

structure Accepted where
  clientID : Bytes
  id : Bytes
  topic : Bytes
  replyTopic : Bytes
  deriving DecidableEq

def Accepted.key (a : Accepted) : Bytes := a.clientID ++ 0x00 :: a.id

inductive OaError where
  | timeout
  | deadlineExceeded
  | other (text : Bytes)
  deriving DecidableEq, Repr

structure CommandResult where
  id : Bytes
  topic : Bytes
  status : Bytes
  error : Bytes
  deriving DecidableEq, Repr

def unknownOutcome : Bytes := ascii "no OA confirmation within deadline; outcome unknown"

def resultOf (a : Accepted) : Option OaError → CommandResult
  | none => ⟨a.id, a.topic, ascii "confirmed", []⟩
  | some .timeout => ⟨a.id, a.topic, ascii "timeout", unknownOutcome⟩
  | some .deadlineExceeded => ⟨a.id, a.topic, ascii "timeout", unknownOutcome⟩
  | some (.other text) => ⟨a.id, a.topic, ascii "failed", text⟩

structure CmdRecord where
  at_ : ℕ
  result : Option CommandResult
  deriving DecidableEq, Repr

/-- How far `execute` is with a command; `none` if it does not execute it. -/
inductive Phase where
  | none
  | start
  | queued
  | writing
  | done (err : Option OaError)
  | stored (err : Option OaError)
  | finished (err : Option OaError)
  deriving DecidableEq, Repr

structure WaitWriteReq where
  cmd : ℕ
  enqueuedAt : ℕ
  deriving DecidableEq, Repr

structure Service where
  /-- `WriteBatchInterval > 0`. -/
  batched : Bool
  writeTimeout : ℕ
  now : ℕ
  cmds : FMap Bytes CmdRecord
  /-- The accepted commands so far; the others name them by their position. -/
  accepted : List Accepted
  phase : ℕ → Phase
  waitReqs : List WaitWriteReq
  /-- The batches taken from the collector, and those that `DpSet` is called with. -/
  collected : List (List WaitWriteReq)
  sending : List (List ℕ)
  /-- How often `DpSet` has been called with the value of a command. -/
  issued : ℕ → ℕ
  /-- What has been published for a command. -/
  sent : ℕ → List CommandResult
  /-- The command that put the record under a key. -/
  owner : Bytes → ℕ

inductive Turn where
  | tick (d : ℕ)
  | command (r : Call)
  | enqueueWrite (n : ℕ)
  /-- A timer or a full collector takes the requests. -/
  | collect
  | sendWaitBatch (j : ℕ)
  /-- `DpSet` returns. -/
  | dpSet (j : ℕ) (err : Option OaError)
  | store (n : ℕ)
  | reply (n : ℕ)
  | pruneCommands

def tenMinutes : ℕ := 600000000000

namespace Service

def new (batched : Bool) (writeTimeout : ℕ) : Service where
  batched := batched
  writeTimeout := writeTimeout
  now := 0
  cmds := ∅
  accepted := []
  phase := fun _ => .none
  waitReqs := []
  collected := []
  sending := []
  issued := fun _ => 0
  sent := fun _ => []
  owner := fun _ => 0

def begin (s : Service) (a : Accepted) : Service :=
  { s with accepted := s.accepted ++ [a], phase := Function.update s.phase s.accepted.length .start }

/-- `s.cmds[dk] = cmdRecord{…}` by the command `n`. -/
def putRecord (s : Service) (key : Bytes) (n : ℕ) (result : Option CommandResult) : Service :=
  { s with cmds := s.cmds.insert key ⟨s.now, result⟩, owner := Function.update s.owner key n }

/-- The end of `Command`: a command without an identifier is executed, any other only if there is no
record of it. -/
def accept (s : Service) (a : Accepted) : Service :=
  if a.id = [] then s.begin a
  else match s.cmds.lookup a.key with
    | none => (s.putRecord a.key s.accepted.length none).begin a
    | some rec => { s with
        accepted := s.accepted ++ [a]
        sent := Function.update s.sent s.accepted.length
          (if a.replyTopic = [] then [] else rec.result.toList) }

def setPhase (s : Service) (ns : List ℕ) (p : Phase) : Service :=
  { s with phase := fun n => if n ∈ ns then p else s.phase n }

def callDpSet (s : Service) (ns : List ℕ) : Service :=
  { s.setPhase ns .writing with
    sending := s.sending ++ [ns]
    issued := fun n => if n ∈ ns then s.issued n + 1 else s.issued n }

def enqueueWrite (s : Service) (n : ℕ) : Service :=
  if s.batched then
    { s.setPhase [n] .queued with waitReqs := s.waitReqs ++ [⟨n, s.now⟩] }
  else s.callDpSet [n]

def sendWaitBatch (s : Service) (j : ℕ) : Service :=
  match s.collected[j]? with
  | some (r :: rs) =>
    let s := { s with collected := s.collected.eraseIdx j }
    let ns := (r :: rs).map WaitWriteReq.cmd
    if s.writeTimeout ≤ s.now - r.enqueuedAt then s.setPhase ns (.done (some .timeout)) else s.callDpSet ns
  | _ => s

def expired (s : Service) (r : CmdRecord) : Bool := r.at_ + tenMinutes < s.now

def recent (s : Service) : FMap Bytes CmdRecord :=
  eraseAll (s.cmds.keys.filter fun k => (s.cmds.lookup k).any s.expired) s.cmds

def oldestFirst (m : FMap Bytes CmdRecord) : List Bytes :=
  (m.entries.mergeSort fun e e' => e.2.at_ ≤ e'.2.at_).map Sigma.fst

def pruneCommands (s : Service) : Service :=
  { s with
    cmds := if size s.recent > 10000 then
        eraseAll ((oldestFirst s.recent).take (size s.recent - 10000)) s.recent
      else s.recent }

@[grind =] def step (s : Service) : Turn → Service
  | .tick d => { s with now := s.now + d }
  | .command r =>
    match r.check with
    | .error _ => s
    | .ok cmd => s.accept ⟨r.clientID, cmd.id, r.topic, r.replyTopic cmd⟩
  | .enqueueWrite n => if s.phase n = .start then s.enqueueWrite n else s
  | .collect =>
    if s.waitReqs = [] then s
    else { s with collected := s.collected ++ [s.waitReqs], waitReqs := [] }
  | .sendWaitBatch j => s.sendWaitBatch j
  | .dpSet j err =>
    match s.sending[j]? with
    | none => s
    | some ns => { s.setPhase ns (.done err) with sending := s.sending.eraseIdx j }
  | .store n =>
    match s.accepted[n]?, s.phase n with
    | some a, .done err =>
      (if a.id = [] then s else s.putRecord a.key n (some (resultOf a err))).setPhase [n] (.stored err)
    | _, _ => s
  | .reply n =>
    match s.accepted[n]?, s.phase n with
    | some a, .stored err => { s.setPhase [n] (.finished err) with
        sent := Function.update s.sent n
          (s.sent n ++ if a.replyTopic = [] then [] else [resultOf a err]) }
    | _, _ => s
  | .pruneCommands => s.pruneCommands

end Service

end MonsterMQ.WinccoaNative
