import MonsterMQ.LockPrograms
import MonsterMQ.RedisCommands
import MonsterMQ.StateRuns

/-!
# A Redis connection and its mutex

`conn.go` has a goroutine that reads commands and answers them and, once there is a subscription, one
that writes messages. Both write under `writeMu`, which every reply helper takes for itself. The
goroutines take turns in any order; reads and writes fail at any time.
-/

namespace MonsterMQ.Redis

open LittleEndian Auth LockPrograms StateRuns

structure SubKey where
  isPattern : Bool
  name : Bytes
  deriving DecidableEq, Repr

/-- A message for a subscription, with the number that the bus has given to it. -/
structure PubSubDelivery where
  key : SubKey
  holder : ℕ
  topicName : Bytes
  payload : Bytes
  deriving DecidableEq, Repr

inductive Goroutine where
  | serve
  | subWriterLoop
  deriving DecidableEq, Repr

/-- What a goroutine does besides taking and releasing `writeMu`. -/
inductive Action where
  | write (frame : Bytes)
  | subscribe (k : SubKey)
  | unsubscribe (k : SubKey)
  | unsubscribeAll (isPattern : Bool)
  | batch (more : ℕ)
  | flush
  | close
  deriving DecidableEq, Repr

abbrev Program := List (Op Action)

/-- Where a goroutine is: in its loop, with what is to be done before it waits for the next command or
message, on its way out, or out. -/
inductive Phase where
  | notStarted
  | looping (ops : Program)
  | ending (ops : Program)
  | returned
  deriving DecidableEq, Repr

def Phase.ops : Phase → Program
  | .looping ops => ops
  | .ending ops => ops
  | _ => []

structure Conn where
  /-- What the client has yet to send. -/
  input : Bytes
  /-- How many commands have been read. -/
  count : ℕ
  writeMu : Option Goroutine
  serve : Phase
  subWriter : Phase
  /-- What has been written, and by which goroutine. -/
  out : List (Goroutine × Bytes)
  flushed : ℕ
  /-- The subscriptions that are held, with their numbers at the bus. -/
  holders : List (SubKey × ℕ)
  subIDs : ℕ
  /-- What has been handed over and is not written yet, with the message that `subWriterLoop` has in hand. -/
  subCh : List PubSubDelivery
  authenticated : Bool
  session : Bool
  closed : Bool
  /-- `subStopCh` is closed; closing it again would panic. -/
  subStopped : Bool
  panicked : Bool
  /-- The protocol error that `readCommand` has reported, and how many replies there were before. -/
  refused : Option (Bytes × ℕ)
  deriving DecidableEq, Repr

/-- What the connection finds: the configuration and what the handlers of the `n`-th command do. The
handlers of `commands_conn.go`, `commands_kv.go` and `commands_struct.go` answer with one reply. -/
structure Env where
  maxMsgSize : ℤ
  hasBus : Bool
  canRead : Bytes → Bool
  /-- The post filter of a subscription. -/
  passes : SubKey → Bytes → Bool
  /-- What the handler writes. -/
  answer : ℕ → Bytes
  /-- `AUTH` or `HELLO` signs the client in. -/
  signsIn : ℕ → Bool
  /-- `SUBSCRIBE` is refused by the rules or because a filter is not valid. -/
  refuses : ℕ → Option Bytes
  /-- The replies are sent after the command. -/
  flushes : ℕ → Bool

inductive Turn where
  | serve (fails : Bool)
  | subWriter (fails : Bool) (more : ℕ)
  | deliver (d : PubSubDelivery)
  | close
  deriving DecidableEq, Repr

def crlf : Bytes := [0x0d, 0x0a]

def respSimple (s : String) : Bytes := ascii "+" ++ ascii s ++ crlf

def respErr (s : Bytes) : Bytes := ascii "-" ++ s ++ crlf

@[grind =] def decimal (n : ℕ) : Bytes := ascii (toString n)

def respInteger (n : ℕ) : Bytes := ascii ":" ++ decimal n ++ crlf

def respBulk : Option Bytes → Bytes
  | none => ascii "$-1" ++ crlf
  | some b => ascii "$" ++ decimal b.length ++ crlf ++ b ++ crlf

def respArray (items : List Bytes) : Bytes := ascii "*" ++ decimal items.length ++ crlf ++ items.flatten

def subReply (cmdName : String) (name : Option Bytes) (total : ℕ) : Bytes :=
  respArray [respBulk (some (ascii cmdName)), respBulk name, respInteger total]

def subscribeName (isPattern : Bool) : String := if isPattern then "psubscribe" else "subscribe"

def unsubscribeName (isPattern : Bool) : String := if isPattern then "punsubscribe" else "unsubscribe"

def writePubSubFrame (d : PubSubDelivery) : Bytes :=
  if d.key.isPattern then
    respArray [respBulk (some (ascii "pmessage")), respBulk (some d.key.name), respBulk (some d.topicName),
      respBulk (some d.payload)]
  else respArray [respBulk (some (ascii "message")), respBulk (some d.topicName), respBulk (some d.payload)]

/-- A reply helper such as `writeError`: it takes `writeMu` for itself. -/
def reply (frame : Bytes) : Program := locked [.write frame]

namespace Conn

def new (input : Bytes) (authenticated : Bool) : Conn :=
  ⟨input, 0, none, .looping [], .notStarted, [], 0, [], 0, [], authenticated, authenticated, false, false, false,
    none⟩

def subs (c : Conn) : List SubKey := c.holders.map Prod.fst

@[grind =] def active (c : Conn) (d : PubSubDelivery) : Bool := (d.key, d.holder) ∈ c.holders

/-- `Close`; `closeOnce` has run when `closed` is set. -/
@[grind =] def close (c : Conn) : Conn :=
  if c.closed then c
  else { c with
    closed := true
    panicked := c.panicked || c.subStopped
    subStopped := true
    holders := []
    session := false }

def write (c : Conn) (g : Goroutine) (frame : Bytes) : Conn :=
  { c with out := c.out ++ [(g, frame)] }

def flush (c : Conn) : Conn :=
  { c with flushed := c.out.length }

def ensureSubWriter (c : Conn) : Phase :=
  match c.subWriter with
  | .notStarted => .looping []
  | p => p

@[grind =] def subscribe (E : Env) (c : Conn) (k : SubKey) : Conn :=
  let c := if k ∈ c.subs ∨ E.hasBus = false then c
    else { c with
      holders := c.holders ++ [(k, c.subIDs)]
      subIDs := c.subIDs + 1
      subWriter := c.ensureSubWriter }
  c.write .serve (subReply (subscribeName k.isPattern) (some k.name) c.subs.length)

def unsubscribe (c : Conn) (k : SubKey) : Conn :=
  let c := { c with holders := c.holders.filter fun h => h.1 ≠ k }
  c.write .serve (subReply (unsubscribeName k.isPattern) (some k.name) c.subs.length)

@[grind =] def unsubscribeAll (c : Conn) (isPattern : Bool) : Conn :=
  let toRemove := c.subs.filter fun k => k.isPattern = isPattern
  if toRemove.isEmpty then c.write .serve (subReply (unsubscribeName isPattern) none c.subs.length)
  else (toRemove.mergeSort fun a b => a.name ≤ b.name).foldl unsubscribe c

/-- `writePubSubBatch` under the mutex, with at most 256 more messages of the channel. -/
@[grind =] def batch (E : Env) (c : Conn) (more : ℕ) : Conn :=
  let sent := (c.subCh.take (min more 256 + 1)).filter fun d => c.active d ∧ E.canRead d.topicName
  let c := { c with subCh := c.subCh.drop (min more 256 + 1) }
  let c := sent.foldl (fun c d => c.write .subWriterLoop (writePubSubFrame d)) c
  if sent.isEmpty then c else c.flush

def act (E : Env) (c : Conn) (g : Goroutine) : Action → Conn
  | .write frame => c.write g frame
  | .subscribe k => c.subscribe E k
  | .unsubscribe k => c.unsubscribe k
  | .unsubscribeAll isPattern => c.unsubscribeAll isPattern
  | .batch more => c.batch E more
  | .flush => c.flush
  | .close => c.close

@[grind =] def perform (E : Env) (c : Conn) (g : Goroutine) : Op Action → Option Conn
  | .lock =>
    match c.writeMu with
    | some _ => none
    | none => some { c with writeMu := some g }
  | .unlock => some { c with writeMu := none }
  | .act a => some (c.act E g a)

/-- What `dispatch` does with the `n`-th command, and whether `serve` returns after it. -/
def dispatch (E : Env) (c : Conn) (args : List Bytes) : Program × Bool :=
  match args with
  | [] => (reply (respErr (ascii "ERR empty command")), false)
  | cmd :: filters =>
    if c.authenticated = false ∧ (commandOf cmd).allowedBeforeAuth = false then
      (reply (respErr (ascii "NOAUTH Authentication required.")), false)
    else match commandOf cmd with
      | .quit => (reply (respSimple "OK") ++ [.act .flush, .act .close], true)
      | .subscribe isPattern =>
        if filters.isEmpty then
          (reply (respErr (ascii ("ERR wrong number of arguments for '" ++ subscribeName isPattern ++
            "' command"))), false)
        else match E.refuses c.count with
          | some msg => (reply (respErr msg), false)
          | none => (filters.flatMap fun f => locked [.subscribe ⟨isPattern, f⟩], false)
      | .unsubscribe isPattern =>
        if filters.isEmpty then (locked [.unsubscribeAll isPattern], false)
        else (locked (filters.map fun f => .unsubscribe ⟨isPattern, f⟩), false)
      | _ => (reply (E.answer c.count), false)

def signIn (E : Env) (c : Conn) (args : List Bytes) : Bool :=
  args.head?.any (fun cmd => commandOf cmd ∈ [.auth, .hello]) && E.signsIn c.count

@[grind =] def replies (c : Conn) : List Bytes := (c.out.filter fun w => w.1 = .serve).map Prod.snd

def pushes (c : Conn) : List Bytes := (c.out.filter fun w => w.1 = .subWriterLoop).map Prod.snd

/-- The program of `serve` after a protocol error: it takes `writeMu` around `writeError`. -/
def refuse (msg : Bytes) : Program := .lock :: reply (respErr msg) ++ [.act .flush, .unlock]

@[grind =] def next (E : Env) (c : Conn) (fails : Bool) : Conn :=
  if c.closed = true ∨ fails = true then
    { c with serve := .ending [] }
  else match readCommand E.maxMsgSize c.input with
    | .error .io =>
      { c with serve := .ending [] }
    | .error (.protocol msg) =>
      { c with serve := .ending (refuse msg), refused := some (msg, c.replies.length) }
    | .ok (args, rest) =>
      let p := c.dispatch E args
      { c with
        input := rest
        count := c.count + 1
        authenticated := c.authenticated || c.signIn E args
        session := c.session || c.signIn E args
        serve := if p.2 then .ending p.1
          else .looping (p.1 ++ locked (if E.flushes c.count then [.flush] else [])) }

/-- A failed write or flush makes `serve` return; `handleSubscribe` does not look at it. -/
def canFail : Op Action → Bool
  | .act (.subscribe _) => false
  | .act _ => true
  | _ => false

@[grind =] def held (c : Conn) (g : Goroutine) : Bool := c.writeMu = some g

@[grind =] def serveStep (E : Env) (c : Conn) (fails : Bool) : Conn :=
  match c.serve with
  | .notStarted => c
  | .looping [] => c.next E fails
  | .looping (op :: ops) =>
    if fails = true ∧ canFail op = true then
      { c with serve := .ending (release (c.held .serve)) }
    else match c.perform E .serve op with
      | none => c
      | some c => { c with serve := .looping ops }
  | .ending [] => { c.close with serve := .returned }
  | .ending (op :: ops) =>
    match c.perform E .serve op with
    | none => c
    | some c => { c with serve := .ending ops }
  | .returned => c

/-- A failed write or flush makes the loop close the connection and return. -/
def subWriterStep (E : Env) (c : Conn) (fails : Bool) (more : ℕ) : Conn :=
  match c.subWriter with
  | .notStarted => c
  | .looping [] =>
    if c.closed = true then
      { c with subWriter := .returned }
    else if c.subCh = [] then c
    else { c with subWriter := .looping (locked [.batch more]) }
  | .looping (op :: ops) =>
    if fails = true ∧ canFail op = true then
      { c with subWriter := .ending (release (c.held .subWriterLoop) ++ [.act .close]) }
    else match c.perform E .subWriterLoop op with
      | none => c
      | some c => { c with subWriter := .looping ops }
  | .ending [] => { c with subWriter := .returned }
  | .ending (op :: ops) =>
    match c.perform E .subWriterLoop op with
    | none => c
    | some c => { c with subWriter := .ending ops }
  | .returned => c

/-- The callback of a subscription hands the message over. -/
@[grind =] def accepts (E : Env) (c : Conn) (d : PubSubDelivery) : Bool :=
  let inHand := c.subWriter.ops.countP fun op => match op with
    | .act (.batch _) => true
    | _ => false
  c.active d && !c.closed && E.passes d.key d.topicName && decide (c.subCh.length < 65536 + inHand)

@[grind =] def step (E : Env) (c : Conn) : Turn → Conn
  | .serve fails => c.serveStep E fails
  | .subWriter fails more => c.subWriterStep E fails more
  | .deliver d =>
    if c.accepts E d then
      { c with subCh := c.subCh ++ [d] }
    else c
  | .close => c.close

end Conn

end MonsterMQ.Redis
