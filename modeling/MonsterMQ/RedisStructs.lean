import MonsterMQ.FiniteMaps
import MonsterMQ.JsonText
import MonsterMQ.RedisCommands

/-!
# Hashes, sets and lists of Redis

The handlers of `commands_struct.go`. A key is a topic, and its value is the payload last published to
it: a JSON envelope with the type and the elements, which every command decodes and a write encodes and
publishes again.
-/

namespace MonsterMQ.Redis

open LittleEndian Auth JsonText FiniteMaps

/-- A reply; a list of replies that is `nil` is the null array. -/
inductive RespValue where
  | simple (s : Bytes)
  | error (s : Bytes)
  | integer (n : ℤ)
  | bulk (b : Option Bytes)
  | nullArray
  | array (items : List RespValue)

def errWrongType : RespValue :=
  .error (ascii "WRONGTYPE Operation against a key holding the wrong kind of value")

def wrongNumber (cmd : Bytes) : RespValue :=
  .error (ascii "ERR wrong number of arguments for '" ++ cmd ++ ascii "' command")

def notAnInteger : RespValue := .error (ascii "ERR value is not an integer or out of range")

/-- What a connection finds in the server: the group of its database, the rules, and what becomes of a
message that it publishes. -/
structure Access where
  floats : Floats
  /-- The name of the group of the selected database. -/
  group : Option Bytes
  matchesFilter : Bytes → Bool
  isGroupReadOnly : Bool
  isNative : Bytes → Bool
  canRead : Bytes → Bool
  canWrite : Bytes → Bool
  /-- The error of `Publish`. -/
  publishError : Bytes → Bytes → Option Bytes

/-- The payload that was last published to a topic. -/
abbrev Store := Bytes → Option Bytes

def notMapped : Bytes := ascii "ERR selected DB is not mapped to an archive group"

def toLower (cmd : Bytes) : Bytes := cmd.map fun b => if 0x41 ≤ b ∧ b ≤ 0x5a then b + 0x20 else b

/-- `validateWrite` for a typed write: the error, if there is one. -/
@[grind =] def validateWrite (E : Access) (cmd topic : Bytes) : Option Bytes :=
  if 0x2b ∈ topic ∨ 0x23 ∈ topic then some (ascii "ERR topic must not contain wildcard characters")
  else if E.isNative topic then
    some (ascii "ERR '" ++ toLower cmd ++ ascii "' is not supported on WinCC OA topics, use SET or MSET")
  else match E.group with
    | none => some notMapped
    | some group =>
      if E.matchesFilter topic = false then some (ascii "ERR topic is outside selected archive group topic filter")
      else if E.isGroupReadOnly then
        some (ascii "ERR last value store of archive group [" ++ group ++ ascii "] is read-only")
      else if E.canWrite topic = false then some (ascii "NOPERM no permission to publish topic")
      else none

@[grind =] def publishMessage (E : Access) (S : Store) (topic payload : Bytes) : Except Bytes Store :=
  match E.publishError topic payload with
  | some err => .error (ascii "ERR " ++ err.map fun b => if b = 0x0d ∨ b = 0x0a then 0x20 else b)
  | none => .ok (Function.update S topic (some payload))

/-- A decoded payload; it has no value when it is not an envelope and stands for itself. -/
structure StoredValue where
  type : Bytes
  value : Option Json

def lookupMember (ms : List (Bytes × Json)) (name : String) : Option Json := ms.lookup (ascii name)

@[grind =] def decodeStoredValue (F : Floats) (payload : Bytes) : StoredValue :=
  match unmarshal F payload with
  | some (.obj raw) =>
    match lookupMember raw "type", lookupMember raw "value" with
    | some (.str t), some v => ⟨t, some v⟩
    | _, _ => ⟨ascii "string", none⟩
  | _ => ⟨ascii "string", none⟩

@[grind =] def encodeEnvelope (F : Floats) (typ : Bytes) (val : Json) : Bytes :=
  utf8 ('\x7b' :: commas ([(ascii "type", marshal F (.str typ)), (ascii "value", marshal F val)].map member) ++
    ['\x7d'])

/-- A Go slice of strings: `nil` is written as null. -/
@[grind =] def ofSlice : Option (List Bytes) → Json
  | none => .null
  | some l => .arr (l.map .str)

def sliceOf (l : List Bytes) : Option (List Bytes) := if l = [] then none else some l

def mapOf (ms : List (Bytes × Json)) : FMap Bytes Json := (ms.map fun p => ⟨p.1, p.2⟩).toAList

@[grind =] def ofMap (m : FMap Bytes Json) : Json := .obj (m.entries.map fun e => (e.1, e.2))

def spaces : List Bytes → Bytes
  | [] => []
  | [t] => t
  | t :: u :: ts => t ++ 0x20 :: spaces (u :: ts)

mutual

def sprint (F : Floats) : Json → Bytes
  | .null => ascii "<nil>"
  | .bool b => if b then ascii "true" else ascii "false"
  | .number literal => F.sprint literal
  | .str s => s
  | .arr items => ascii "[" ++ spaces (sprintItems F items) ++ ascii "]"
  | .obj ms => ascii "map[" ++ spaces ((sortMembers (sprintMembers F ms)).map fun p => p.1 ++ 0x3a :: p.2) ++ ascii "]"

def sprintItems (F : Floats) : List Json → List Bytes
  | [] => []
  | v :: vs => sprint F v :: sprintItems F vs

def sprintMembers (F : Floats) : List (Bytes × Json) → List (Bytes × Bytes)
  | [] => []
  | (k, v) :: ms => (k, sprint F v) :: sprintMembers F ms

end

inductive Held (α : Type) where
  | absent
  | wrong
  | value (a : α)

def Held.elim {α β : Type} (h : Held α) (absent wrong : β) (body : α → β) : β :=
  match h with
  | .absent => absent
  | .wrong => wrong
  | .value a => body a

def asMap : Json → Option (FMap Bytes Json)
  | .obj ms => some (mapOf ms)
  | _ => none

def asSlice : Json → Option (List Json)
  | .arr items => some items
  | _ => none

@[grind =]
def readStored {α : Type} (F : Floats) (S : Store) (topic typ : Bytes) (cast : Json → Option α) : Held α :=
  match S topic with
  | none => .absent
  | some payload =>
    let stored := decodeStoredValue F payload
    if stored.type ≠ typ then .wrong else ((stored.value.bind cast).map .value).getD .wrong

@[grind =]
def readAs {α : Type} (E : Access) (S : Store) (topic typ : Bytes) (cast : Json → Option α) (absent : RespValue)
    (body : α → RespValue) : RespValue :=
  if E.canRead topic = false then .error (ascii "NOPERM no permission to read topic")
  else if E.group = none then .error notMapped
  else (readStored E.floats S topic typ cast).elim absent errWrongType body

/-- The end of a command that writes: its new value is encoded and published. -/
@[grind =] def finish (E : Access) (S : Store) (topic typ : Bytes) : Option Json × RespValue → Store × RespValue
  | (none, reply) => (S, reply)
  | (some v, reply) =>
    match publishMessage E S topic (encodeEnvelope E.floats typ v) with
    | .error err => (S, .error err)
    | .ok S => (S, reply)

/-- A command that writes. Its body has the new value and the reply, or only a reply when it does not
publish; without a value it begins with `absent`. -/
@[grind =] def writeAs {α : Type} (E : Access) (S : Store) (cmd topic typ : Bytes) (cast : Json → Option α)
    (absent : Option Json × RespValue) (body : α → Option Json × RespValue) : Store × RespValue :=
  match validateWrite E cmd topic with
  | some err => (S, .error err)
  | none => finish E S topic typ ((readStored E.floats S topic typ cast).elim absent (none, errWrongType) body)

def topicOf (args : List Bytes) : Bytes := args.getD 1 []

def bulk (b : Bytes) : RespValue := .bulk (some b)

def nullBulk : RespValue := .bulk none

def bulks (bs : List Bytes) : RespValue := .array (bs.map bulk)

def hash : Bytes := ascii "hash"

def pairsOf : List Bytes → List (Bytes × Bytes)
  | f :: v :: rest => (f, v) :: pairsOf rest
  | _ => []

def hsetLoop (m : FMap Bytes Json) (pairs : List (Bytes × Bytes)) : FMap Bytes Json × ℤ :=
  pairs.foldl (fun acc p =>
    (acc.1.insert p.1 (.str p.2), if (acc.1.lookup p.1).isSome then acc.2 else acc.2 + 1)) (m, 0)

@[grind =] def handleHset (E : Access) (S : Store) (args : List Bytes) : Store × RespValue :=
  if args.length < 4 ∨ args.length % 2 ≠ 0 then (S, wrongNumber (ascii "hset"))
  else
    let body := fun m =>
      let (m, added) := hsetLoop m (pairsOf (args.drop 2))
      (some (ofMap m), .integer added)
    writeAs E S (ascii "HSET") (topicOf args) hash asMap (body ∅) body

def hdelLoop (m : FMap Bytes Json) (fields : List Bytes) : FMap Bytes Json × ℤ :=
  fields.foldl (fun acc f => if (acc.1.lookup f).isSome then (acc.1.erase f, acc.2 + 1) else acc) (m, 0)

@[grind =] def handleHdel (E : Access) (S : Store) (args : List Bytes) : Store × RespValue :=
  if args.length < 3 then (S, wrongNumber (ascii "hdel"))
  else writeAs E S (ascii "HDEL") (topicOf args) hash asMap (none, .integer 0) fun m =>
    let (m, removed) := hdelLoop m (args.drop 2)
    (some (ofMap m), .integer removed)

def handleHget (E : Access) (S : Store) (args : List Bytes) : RespValue :=
  if args.length ≠ 3 then wrongNumber (ascii "hget")
  else readAs E S (topicOf args) hash asMap nullBulk fun m =>
    match m.lookup (args.getD 2 []) with
    | none => nullBulk
    | some v => bulk (sprint E.floats v)

def sortedKeys {β : Type} (m : FMap Bytes β) : List Bytes := m.keys.mergeSort fun a b => a ≤ b

def valueAt (F : Floats) (m : FMap Bytes Json) (k : Bytes) : Bytes := sprint F ((m.lookup k).getD .null)

def handleHgetall (E : Access) (S : Store) (args : List Bytes) : RespValue :=
  if args.length ≠ 2 then wrongNumber (ascii "hgetall")
  else readAs E S (topicOf args) hash asMap .nullArray fun m =>
    bulks ((sortedKeys m).flatMap fun k => [k, valueAt E.floats m k])

def handleHlen (E : Access) (S : Store) (args : List Bytes) : RespValue :=
  if args.length ≠ 2 then wrongNumber (ascii "hlen")
  else readAs E S (topicOf args) hash asMap (.integer 0) fun m => .integer (size m)

def handleHkeys (E : Access) (S : Store) (args : List Bytes) : RespValue :=
  if args.length ≠ 2 then wrongNumber (ascii "hkeys")
  else readAs E S (topicOf args) hash asMap .nullArray fun m => bulks (sortedKeys m)

def handleHvals (E : Access) (S : Store) (args : List Bytes) : RespValue :=
  if args.length ≠ 2 then wrongNumber (ascii "hvals")
  else readAs E S (topicOf args) hash asMap .nullArray fun m =>
    bulks ((sortedKeys m).map (valueAt E.floats m))

def setType : Bytes := ascii "set"

/-- The members that have not been seen, at the end of the others. -/
@[grind =] def addNew (set : List Bytes) (m : Bytes) : List Bytes := if m ∈ set then set else set ++ [m]

@[grind =] def handleSadd (E : Access) (S : Store) (args : List Bytes) : Store × RespValue :=
  if args.length < 3 then (S, wrongNumber (ascii "sadd"))
  else
    let body := fun (arr : List Json) =>
      let set := (arr.map (sprint E.floats)).foldl addNew []
      let new := (args.drop 2).foldl addNew set
      -- not nil: something is appended when there was no member
      (some (ofSlice (some new)), RespValue.integer (new.length - set.length))
    writeAs E S (ascii "SADD") (topicOf args) setType asSlice (body []) body

@[grind =] def handleSrem (E : Access) (S : Store) (args : List Bytes) : Store × RespValue :=
  if args.length < 3 then (S, wrongNumber (ascii "srem"))
  else writeAs E S (ascii "SREM") (topicOf args) setType asSlice (none, .integer 0) fun arr =>
    let members := arr.map (sprint E.floats)
    let newSet := members.filter fun m => m ∉ args.drop 2
    (some (ofSlice (sliceOf newSet)), .integer (members.countP fun m => m ∈ args.drop 2))

def handleSmembers (E : Access) (S : Store) (args : List Bytes) : RespValue :=
  if args.length ≠ 2 then wrongNumber (ascii "smembers")
  else readAs E S (topicOf args) setType asSlice .nullArray fun arr => bulks (arr.map (sprint E.floats))

def handleSismember (E : Access) (S : Store) (args : List Bytes) : RespValue :=
  if args.length ≠ 3 then wrongNumber (ascii "sismember")
  else readAs E S (topicOf args) setType asSlice (.integer 0) fun arr =>
    .integer (if (arr.map (sprint E.floats)).any (fun m => m = args.getD 2 []) then 1 else 0)

def handleScard (E : Access) (S : Store) (args : List Bytes) : RespValue :=
  if args.length ≠ 2 then wrongNumber (ascii "scard")
  else readAs E S (topicOf args) setType asSlice (.integer 0) fun arr => .integer arr.length

def listType : Bytes := ascii "list"

@[grind =]
def handleListPush (E : Access) (S : Store) (args : List Bytes) (isLeft : Bool) : Store × RespValue :=
  let cmdName := toLower (args.headD [])
  if args.length < 3 then (S, wrongNumber cmdName)
  else
    let body := fun (list : List Bytes) =>
      let list := if isLeft then (args.drop 2).foldl (fun l v => v :: l) list else list ++ args.drop 2
      (some (ofSlice (some list)), RespValue.integer list.length)
    writeAs E S cmdName (topicOf args) listType asSlice (body []) fun arr => body (arr.map (sprint E.floats))

def handleListPop (E : Access) (S : Store) (args : List Bytes) (isLeft : Bool) : Store × RespValue :=
  let cmdName := toLower (args.headD [])
  if args.length ≠ 2 then (S, wrongNumber cmdName)
  else writeAs E S cmdName (topicOf args) listType asSlice (none, nullBulk) fun arr =>
    let list := arr.map (sprint E.floats)
    if list = [] then (none, nullBulk)
    else if isLeft then (some (ofSlice (sliceOf list.tail)), .bulk list.head?)
    else (some (ofSlice (sliceOf list.dropLast)), .bulk list.getLast?)

@[grind =] def sliceAnyList {α : Type} (arr : List α) (rawStart rawEnd : ℤ) : List α :=
  if arr = [] then []
  else
    let size : ℤ := arr.length
    let start := if rawStart < 0 then size + rawStart else rawStart
    let stop := if rawEnd < 0 then size + rawEnd else rawEnd
    let start := if start < 0 then 0 else start
    if stop < 0 ∨ start ≥ size ∨ start > stop then []
    else
      let stop := if stop ≥ size then size - 1 else stop
      (arr.take (stop + 1).toNat).drop start.toNat

def handleLrange (E : Access) (S : Store) (args : List Bytes) : RespValue :=
  if args.length ≠ 4 then wrongNumber (ascii "lrange")
  else match atoi (args.getD 2 []), atoi (args.getD 3 []) with
    | some start, some stop =>
      readAs E S (topicOf args) listType asSlice .nullArray fun arr =>
        bulks ((sliceAnyList arr start stop).map (sprint E.floats))
    | _, _ => notAnInteger

def handleLlen (E : Access) (S : Store) (args : List Bytes) : RespValue :=
  if args.length ≠ 2 then wrongNumber (ascii "llen")
  else readAs E S (topicOf args) listType asSlice (.integer 0) fun arr => .integer arr.length

def handleLindex (E : Access) (S : Store) (args : List Bytes) : RespValue :=
  if args.length ≠ 3 then wrongNumber (ascii "lindex")
  else match atoi (args.getD 2 []) with
    | none => notAnInteger
    | some idx =>
      readAs E S (topicOf args) listType asSlice nullBulk fun arr =>
        let size : ℤ := arr.length
        let idx := if idx < 0 then size + idx else idx
        if idx < 0 ∨ idx ≥ size then nullBulk
        else .bulk ((arr.map (sprint E.floats))[idx.toNat]?)

end MonsterMQ.Redis
