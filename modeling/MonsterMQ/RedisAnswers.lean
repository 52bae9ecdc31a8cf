import MonsterMQ.RedisFrames
import MonsterMQ.RedisGlob

/-!
# The answers of a Redis connection

The handlers that answer with one reply: those of `commands_conn.go` and `commands_kv.go`, the sorted
sets and JSON documents of `commands_struct.go` and `PUBLISH`. What a handler finds in the server is a
world of its own for every command.
-/

namespace MonsterMQ.Redis

open LittleEndian Auth JsonText FiniteMaps

structure World extends Access where
  store : Store
  /-- The group has a last-value store. -/
  hasStore : Bool
  /-- `Auth.Validate`. -/
  validate : Bytes → Bytes → Bool
  isMapped : ℤ → Bool
  version : Bytes
  id : ℤ
  clientName : Bytes
  dbs : List ℕ
  /-- The topic that a native value is set with. -/
  nativeValueWrite : Bytes → Option Bytes
  delError : Option Bytes
  /-- The topics that `FindMatchingTopics` calls back with, and its error. -/
  findMatchingTopics : Bytes → List Bytes × Option Bytes
  keysLimit : ℕ
  compile : Compile
  /-- Why the bus rejects a filter. -/
  rejects : Bytes → Option Bytes
  /-- `strconv.ParseFloat`, as the number is written in JSON. -/
  parseFloat : Bytes → Option (List Char)
  scoreLess : List Char → List Char → Bool
  formatScore : List Char → Bytes
  /-- The error of `json.Marshal` for a number that JSON does not have. -/
  marshalError : List Char → Option Bytes
  /-- `strings.ToUpper` of a name that is no command. -/
  upper : Bytes → Bytes

def ok : RespValue := .simple (ascii "OK")

/-- `strings.EqualFold` with a word in ASCII: besides the letters of ASCII, the long `s` and the Kelvin
sign fold. -/
def foldCase : Bytes → Bytes
  | [] => []
  | 0xc5 :: 0xbf :: s => 0x73 :: foldCase s
  | 0xe2 :: 0x84 :: 0xaa :: s => 0x6b :: foldCase s
  | b :: s => (if 0x41 ≤ b ∧ b ≤ 0x5a then b + 0x20 else b) :: foldCase s

def equalFold (arg : Bytes) (word : String) : Bool := foldCase arg = foldCase (ascii word)

def tryAuth (W : World) (username password : Bytes) : Bool :=
  username ≠ [] && (W.validate username password ||
    (username = ascii "default" && W.validate (ascii "Admin") password))

def wrongPass : RespValue := .error (ascii "WRONGPASS invalid username-password pair or user is disabled.")

def handleAuth (W : World) (args : List Bytes) : RespValue :=
  if args.length < 2 ∨ args.length > 3 then wrongNumber (ascii "auth")
  else
    let user := if args.length = 2 then ascii "default" else args.getD 1 []
    let pass := if args.length = 2 then args.getD 1 [] else args.getD 2 []
    if tryAuth W user pass then ok else wrongPass

def versionOf (W : World) : Bytes := if W.version = [] then ascii "0.0.0" else W.version

def writeHello (W : World) : RespValue :=
  .array [bulk (ascii "server"), bulk (ascii "monstermq"), bulk (ascii "version"), bulk (versionOf W),
    bulk (ascii "proto"), .integer 2, bulk (ascii "id"), .integer W.id, bulk (ascii "mode"), bulk (ascii "standalone"),
    bulk (ascii "role"), bulk (ascii "master"), bulk (ascii "modules"), .nullArray]

def handleHello (W : World) (args : List Bytes) : RespValue :=
  if 2 ≤ args.length ∧ (atoi (args.getD 1 [])).any (fun proto => 2 < proto) then
    .error (ascii "NOPROTO sorry, this protocol version is not supported.")
  else match args.findIdx? fun arg => equalFold arg "AUTH" with
    | none => writeHello W
    | some authIdx =>
      if authIdx + 2 < args.length then
        if tryAuth W (args.getD (authIdx + 1) []) (args.getD (authIdx + 2) []) then writeHello W else wrongPass
      else writeHello W

def handlePing (args : List Bytes) : RespValue :=
  if args.length > 2 then wrongNumber (ascii "ping")
  else if args.length = 2 then bulk (args.getD 1 [])
  else .simple (ascii "PONG")

def handleEcho (args : List Bytes) : RespValue :=
  if args.length ≠ 2 then wrongNumber (ascii "echo") else bulk (args.getD 1 [])

def handleSelect (W : World) (args : List Bytes) : RespValue :=
  if args.length ≠ 2 then wrongNumber (ascii "select")
  else match atoi (args.getD 1 []) with
    | none => .error (ascii "ERR invalid DB index")
    | some db =>
      if db < 0 then .error (ascii "ERR invalid DB index")
      else if W.isMapped db = false then .error (ascii "ERR DB index is not mapped to an archive group")
      else ok

def handleClient (W : World) (args : List Bytes) : RespValue :=
  if args.length < 2 then wrongNumber (ascii "client")
  else
    let subcmd := toUpper (args.getD 1 [])
    if subcmd = ascii "SETNAME" then ok
    else if subcmd = ascii "GETNAME" then if W.clientName ≠ [] then bulk W.clientName else nullBulk
    else if subcmd = ascii "SETINFO" then ok
    else if subcmd = ascii "ID" then .integer W.id
    else .error (ascii "ERR unsupported CLIENT subcommand")

def handleCommand (args : List Bytes) : RespValue :=
  if 2 ≤ args.length ∧ equalFold (args.getD 1 []) "COUNT" then .integer 30
  else if 2 ≤ args.length ∧ equalFold (args.getD 1 []) "INFO" ∧ 2 < args.length then
    .array ((args.drop 2).map fun _ => nullBulk)
  else .nullArray

def handleInfo (W : World) : RespValue :=
  bulk (ascii "# Server\r\nredis_version:7.0.0\r\nmonstermq_version:" ++ versionOf W ++
    ascii "\r\nredis_mode:standalone\r\n# Clients\r\nconnected_clients:1\r\n# Keyspace\r\n" ++
    W.dbs.flatMap fun db => ascii "db" ++ decimal db ++ ascii ":keys=0,expires=0,avg_ttl=0\r\n")

def noPermRead : RespValue := .error (ascii "NOPERM no permission to read topic")

def noPermReads : RespValue := .error (ascii "NOPERM no permission to read one or more topics")

def readingAll (W : World) (topics : List Bytes) (denied answer : RespValue) : RespValue :=
  if topics.all W.canRead = false then denied
  else if W.group = none then .error notMapped
  else answer

def handleGet (W : World) (args : List Bytes) : RespValue :=
  if args.length ≠ 2 then wrongNumber (ascii "get")
  else readingAll W [topicOf args] noPermRead (.bulk (W.store (topicOf args)))

def handleGetRange (W : World) (args : List Bytes) : RespValue :=
  if args.length ≠ 4 then wrongNumber (toLower (args.headD []))
  else match atoi (args.getD 2 []), atoi (args.getD 3 []) with
    | some start, some stop =>
      readingAll W [topicOf args] noPermRead
        (bulk (sliceAnyList ((W.store (topicOf args)).getD []) start stop))
    | _, _ => notAnInteger

def handleMget (W : World) (args : List Bytes) : RespValue :=
  if args.length < 2 then wrongNumber (ascii "mget")
  else readingAll W args.tail noPermReads (.array (args.tail.map fun t => .bulk (W.store t)))

/-- The group, its filter and the rules of a write that is no typed one. -/
def validateGroup (W : World) (topic : Bytes) (isPublish : Bool) : Option Bytes :=
  match W.group with
  | none =>
    if isPublish = false then some notMapped
    else if W.canWrite topic = false then some (ascii "NOPERM no permission to publish topic")
    else none
  | some group =>
    if W.matchesFilter topic = false then some (ascii "ERR topic is outside selected archive group topic filter")
    else if isPublish = false ∧ W.isGroupReadOnly = true then
      some (ascii "ERR last value store of archive group [" ++ group ++ ascii "] is read-only")
    else if W.canWrite topic = false then some (ascii "NOPERM no permission to publish topic")
    else none

def hasWildcard (topic : Bytes) : Bool := 0x2b ∈ topic ∨ 0x23 ∈ topic

def wildcardError : Bytes := ascii "ERR topic must not contain wildcard characters"

/-- `validateWrite` for `SET` and `MSET`: the topic to publish to. -/
def validateValue (W : World) (topic : Bytes) : Except Bytes Bytes :=
  if hasWildcard topic then .error wildcardError
  else match W.nativeValueWrite topic with
    | some setTopic =>
      if W.canWrite setTopic = false then .error (ascii "NOPERM no permission to publish topic") else .ok setTopic
    | none =>
      match validateGroup W topic false with
      | some err => .error err
      | none => .ok topic

def publishErr (W : World) (topic payload : Bytes) : Option Bytes :=
  match publishMessage W.toAccess W.store topic payload with
  | .error err => some err
  | .ok _ => none

def orOk : Option Bytes → RespValue
  | some err => .error err
  | none => ok

def handleSet (W : World) (args : List Bytes) : RespValue :=
  if args.length < 3 then wrongNumber (ascii "set")
  else match validateValue W (topicOf args) with
    | .error err => .error err
    | .ok topic => orOk (publishErr W topic (args.getD 2 []))

def handleMset (W : World) (args : List Bytes) : RespValue :=
  if args.length < 3 ∨ args.length % 2 = 0 then wrongNumber (ascii "mset")
  else match (pairsOf args.tail).mapM fun p => (validateValue W p.1).map fun t => (t, p.2) with
    | .error err => .error err
    | .ok writes => orOk (writes.findSome? fun w => publishErr W w.1 w.2)

def nativeError (cmd : String) : RespValue :=
  .error (ascii ("ERR '" ++ cmd ++ "' is not supported on WinCC OA topics, use SET or MSET"))

def readOnlyError (group : Bytes) : RespValue :=
  .error (ascii "ERR last value store of archive group [" ++ group ++ ascii "] is read-only")

def deleting (W : World) (cmd : String) (topics : List Bytes) (denied : RespValue) (answer : RespValue) : RespValue :=
  if topics.any W.isNative then nativeError cmd
  else if topics.all W.canWrite = false then denied
  else match W.group with
    | none => .error notMapped
    | some group =>
      if W.isGroupReadOnly then readOnlyError group else if W.hasStore = false then .integer 0 else answer

def deleted (W : World) (count : ℕ) : RespValue :=
  match W.delError with
  | some err => .error (ascii "ERR " ++ err)
  | none => .integer count

def handleDel (W : World) (args : List Bytes) : RespValue :=
  if args.length < 2 then wrongNumber (ascii "del")
  else deleting W "del" args.tail (.error (ascii "NOPERM no permission to delete one or more topics"))
    (deleted W (args.tail.countP fun t => (W.store t).isSome))

def handleExists (W : World) (args : List Bytes) : RespValue :=
  if args.length < 2 then wrongNumber (ascii "exists")
  else readingAll W args.tail noPermReads (.integer (args.tail.countP fun t => (W.store t).isSome))

def handleTtl (W : World) (args : List Bytes) : RespValue :=
  if args.length ≠ 2 then wrongNumber (toLower (args.headD []))
  else readingAll W [topicOf args] noPermRead (.integer (if (W.store (topicOf args)).isSome then -1 else -2))

def matchOf (options : List Bytes) : Bytes :=
  (pairsOf options).foldl (fun m p => if equalFold p.1 "MATCH" then p.2 else m) (ascii "#")

/-- The callback of `FindMatchingTopics` on one topic after the other; none when the post filter panics. -/
def collectTopics (W : World) (postFilter : Option (Bytes → Option Bool)) :
    List Bytes → List Bytes → Option (List Bytes)
  | topics, [] => some topics
  | topics, t :: ts => do
    let passes ← postFilter.elim (some true) fun f => f t
    let topics := if passes && W.canRead t then topics ++ [t] else topics
    if topics.length < W.keysLimit then collectTopics W postFilter topics ts else some topics

/-- The topics of a pattern; without a reply when the handler panics. -/
def findTopics (W : World) (pattern : Bytes) (page : List Bytes → RespValue) : Option RespValue :=
  let (topicPattern, postFilter) := redisPatternToMqtt W.compile pattern
  (collectTopics W postFilter [] (W.findMatchingTopics topicPattern).1).map fun topics =>
    match (W.findMatchingTopics topicPattern).2 with
    | some err => .error (ascii "ERR " ++ err)
    | none => page topics

def handleScan (W : World) (args : List Bytes) : Option RespValue :=
  if W.group = none then some (.error notMapped)
  else if W.hasStore = false then some (.array [bulk (ascii "0"), .nullArray])
  else findTopics W (matchOf (args.drop 2)) fun topics => .array [bulk (ascii "0"), bulks topics]

def handleKeys (W : World) (args : List Bytes) : Option RespValue :=
  if args.length ≠ 2 then some (wrongNumber (ascii "keys"))
  else if W.group = none then some (.error notMapped)
  else if W.hasStore = false then some .nullArray
  else findTopics W (args.getD 1 []) bulks

/-- The type of a key as `TYPE` answers it: what the stored document says. -/
def typeOf (W : World) (topic : Bytes) : Bytes :=
  match W.store topic with
  | none => ascii "none"
  | some payload => (decodeStoredValue W.floats payload).type

def handleType (W : World) (args : List Bytes) : RespValue :=
  if args.length ≠ 2 then wrongNumber (ascii "type")
  else readingAll W [topicOf args] noPermRead (.simple (typeOf W (topicOf args)))

def handlePublish (W : World) (args : List Bytes) : RespValue :=
  if args.length ≠ 3 then wrongNumber (ascii "publish")
  else if hasWildcard (topicOf args) then .error wildcardError
  else match validateGroup W (topicOf args) true with
    | some err => .error err
    | none =>
      match publishErr W (topicOf args) (args.getD 2 []) with
      | some err => .error err
      | none => .integer 0

def handleHmget (W : World) (args : List Bytes) : RespValue :=
  if args.length < 3 then wrongNumber (ascii "hmget")
  else readAs W.toAccess W.store (topicOf args) hash asMap (.array ((args.drop 2).map fun _ => nullBulk)) fun m =>
    .array ((args.drop 2).map fun f => .bulk ((m.lookup f).map (sprint W.floats)))

def handleHexists (W : World) (args : List Bytes) : RespValue :=
  if args.length ≠ 3 then wrongNumber (ascii "hexists")
  else readAs W.toAccess W.store (topicOf args) hash asMap (.integer 0) fun m =>
    .integer (if (m.lookup (args.getD 2 [])).isSome then 1 else 0)

def hscanMatch (options : List Bytes) : Bytes :=
  (pairsOf options).foldl (fun m p => if equalFold p.1 "MATCH" then p.2 else m) []

def hscanCount (options : List Bytes) : ℤ :=
  (pairsOf options).foldl (fun n p =>
    if equalFold p.1 "MATCH" then n else if equalFold p.1 "COUNT" then (atoi p.2).getD n else n) (-1)

/-- A sum of two `int` values, which wraps around. -/
@[grind =]
def addInt (a b : ℤ) : ℤ := (a + b + 9223372036854775808) % 18446744073709551616 - 9223372036854775808

/-- The names from a cursor on and the next cursor; the bounds of the slice may be out of range. -/
@[grind =] def hscanPage (keys : List Bytes) (cursor count : ℤ) : Option (List Bytes × ℤ) :=
  if cursor < keys.length then
    if 0 < count ∧ addInt cursor count < keys.length then
      if addInt cursor count < cursor then none
      else some ((keys.take (addInt cursor count).toNat).drop cursor.toNat, addInt cursor count)
    else some (keys.drop cursor.toNat, 0)
  else some ([], 0)

/-- The names that match; none when the pattern panics. -/
def hscanKeys (W : World) (pattern : Bytes) : List Bytes → Option (List Bytes)
  | [] => some []
  | k :: ks => do
    let hit ← if pattern = [] then some true else globMatch W.compile pattern k
    let keys ← hscanKeys W pattern ks
    return if hit then k :: keys else keys

/-- `HSCAN`; without a reply when the handler panics. -/
@[grind =] def handleHscan (W : World) (args : List Bytes) : Option RespValue :=
  if args.length < 3 then some (wrongNumber (ascii "hscan"))
  else match atoi (args.getD 2 []) with
    | none => some (.error (ascii "ERR invalid cursor"))
    | some cursor =>
      if cursor < 0 then some (.error (ascii "ERR invalid cursor"))
      else if W.canRead (topicOf args) = false then some noPermRead
      else if W.group = none then some (.error notMapped)
      else (readStored W.floats W.store (topicOf args) hash asMap).elim
        (some (.array [bulk (ascii "0"), .nullArray])) (some errWrongType) fun m =>
          (hscanKeys W (hscanMatch (args.drop 3)) (sortedKeys m)).bind fun keys =>
            (hscanPage keys cursor (hscanCount (args.drop 3))).map fun p =>
              .array [bulk (signed p.2), bulks (p.1.flatMap fun k => [k, valueAt W.floats m k])]

def zset : Bytes := ascii "zset"

def scores (ms : FMap Bytes Json) : List (Bytes × List Char) :=
  ms.entries.filterMap fun e =>
    match e.2 with
    | .number literal => some (e.1, literal)
    | _ => none

def zaddPairs (W : World) : List (Bytes × Bytes) → Option (List (Bytes × List Char))
  | [] => some []
  | (score, member) :: rest => do
    let literal ← W.parseFloat score
    let pairs ← zaddPairs W rest
    return (member, literal) :: pairs

def zaddLoop (m : FMap Bytes Json) (pairs : List (Bytes × List Char)) : FMap Bytes Json × ℤ :=
  pairs.foldl (fun acc p =>
    (acc.1.insert p.1 (.number p.2), if (acc.1.lookup p.1).isSome then acc.2 else acc.2 + 1)) (m, 0)

def zaddBody (W : World) (pairs : List (Bytes × List Char)) (m : FMap Bytes Json) : Option Json × RespValue :=
  let (m, added) := zaddLoop (mapOf ((scores m).map fun p => (p.1, .number p.2))) pairs
  match (scores m).findSome? fun p => W.marshalError p.2 with
  | some err => (none, .error (ascii "ERR " ++ err))
  | none => (some (ofMap m), .integer added)

def handleZadd (W : World) (args : List Bytes) : RespValue :=
  if args.length < 4 ∨ args.length % 2 ≠ 0 then wrongNumber (ascii "zadd")
  else match zaddPairs W (pairsOf (args.drop 2)) with
    | none => .error (ascii "ERR value is not a valid float")
    | some pairs =>
      (writeAs W.toAccess W.store (ascii "ZADD") (topicOf args) zset asMap (zaddBody W pairs ∅) (zaddBody W pairs)).2

/-- In the order of the scores, and of the members where they are equal. -/
def zsetEntries (W : World) (m : FMap Bytes Json) : List (Bytes × List Char) :=
  (scores m).mergeSort fun a b => W.scoreLess a.2 b.2 || (!W.scoreLess b.2 a.2 && decide (a.1 ≤ b.1))

def handleZrange (W : World) (args : List Bytes) : RespValue :=
  if args.length < 4 ∨ args.length > 5 then wrongNumber (ascii "zrange")
  else match atoi (args.getD 2 []), atoi (args.getD 3 []) with
    | some start, some stop =>
      if args.length = 5 ∧ equalFold (args.getD 4 []) "WITHSCORES" = false then .error (ascii "ERR syntax error")
      else readAs W.toAccess W.store (topicOf args) zset asMap .nullArray fun m =>
        let sliced := sliceAnyList (zsetEntries W m) start stop
        if args.length = 5 then bulks (sliced.flatMap fun e => [e.1, W.formatScore e.2])
        else bulks (sliced.map Prod.fst)
    | _, _ => notAnInteger

def handleZrem (W : World) (args : List Bytes) : RespValue :=
  if args.length < 3 then wrongNumber (ascii "zrem")
  else (writeAs W.toAccess W.store (ascii "ZREM") (topicOf args) zset asMap (none, .integer 0) fun m =>
    let (m, removed) := hdelLoop m (args.drop 2)
    (some (ofMap m), .integer removed)).2

def handleZscore (W : World) (args : List Bytes) : RespValue :=
  if args.length ≠ 3 then wrongNumber (ascii "zscore")
  else readAs W.toAccess W.store (topicOf args) zset asMap nullBulk fun m =>
    match m.lookup (args.getD 2 []) with
    | some (.number literal) => bulk (W.formatScore literal)
    | _ => nullBulk

def handleZcard (W : World) (args : List Bytes) : RespValue :=
  if args.length ≠ 2 then wrongNumber (ascii "zcard")
  else readAs W.toAccess W.store (topicOf args) zset asMap (.integer 0) fun m => .integer (size m)

def jsonType : Bytes := ascii "json"

def isRootJsonPath (p : Bytes) : Bool := p = ascii "$" || p = ascii "."

def notRoot : RespValue := .error (ascii "ERR only root JSON path '$' or '.' is supported")

def handleJsonSet (W : World) (args : List Bytes) : RespValue :=
  if args.length ≠ 4 then wrongNumber (ascii "json.set")
  else if isRootJsonPath (args.getD 2 []) = false then notRoot
  else match unmarshal W.floats (args.getD 3 []) with
    | none => .error (ascii "ERR invalid JSON")
    | some parsed =>
      match validateWrite W.toAccess (ascii "JSON.SET") (topicOf args) with
      | some err => .error err
      | none => (finish W.toAccess W.store (topicOf args) jsonType (some parsed, bulk (ascii "OK"))).2

def jsonArgs (cmd : Bytes) (args : List Bytes) (answer : RespValue) : RespValue :=
  if args.length < 2 ∨ args.length > 3 then wrongNumber cmd
  else if args.length = 3 ∧ isRootJsonPath (args.getD 2 []) = false then notRoot
  else answer

def handleJsonGet (W : World) (args : List Bytes) : RespValue :=
  jsonArgs (ascii "json.get") args
    (readAs W.toAccess W.store (topicOf args) jsonType some nullBulk fun v => bulk (utf8 (marshal W.floats v)))

def handleJsonDel (W : World) (args : List Bytes) : RespValue :=
  jsonArgs (ascii "json.del") args
    (deleting W "json.del" [topicOf args] (.error (ascii "NOPERM no permission to delete topic"))
      ((readStored W.floats W.store (topicOf args) jsonType some).elim (.integer 0) errWrongType fun _ => deleted W 1))

def getJsonTypeName : Json → Bytes
  | .null => ascii "null"
  | .obj _ => ascii "object"
  | .arr _ => ascii "array"
  | .str _ => ascii "string"
  | .bool _ => ascii "boolean"
  | .number _ => ascii "number"

def handleJsonType (W : World) (args : List Bytes) : RespValue :=
  jsonArgs (ascii "json.type") args
    (readAs W.toAccess W.store (topicOf args) jsonType some nullBulk fun v => bulk (getJsonTypeName v))

/-- The commands that have one reply and no pattern, as the `switch` of `dispatch` names them. -/
def handlers : List (String × (World → List Bytes → RespValue)) :=
  [("AUTH", fun W args => handleAuth W args),
    ("HELLO", fun W args => handleHello W args),
    ("PING", fun _ args => handlePing args),
    ("ECHO", fun _ args => handleEcho args),
    ("SELECT", fun W args => handleSelect W args),
    ("CLIENT", fun W args => handleClient W args),
    ("COMMAND", fun _ args => handleCommand args),
    ("INFO", fun W _ => handleInfo W),
    ("GET", fun W args => handleGet W args),
    ("GETRANGE", fun W args => handleGetRange W args),
    ("SUBSTR", fun W args => handleGetRange W args),
    ("MGET", fun W args => handleMget W args),
    ("SET", fun W args => handleSet W args),
    ("MSET", fun W args => handleMset W args),
    ("HSET", fun W args => (handleHset W.toAccess W.store args).2),
    ("HGET", fun W args => handleHget W.toAccess W.store args),
    ("HMGET", fun W args => handleHmget W args),
    ("HGETALL", fun W args => handleHgetall W.toAccess W.store args),
    ("HDEL", fun W args => (handleHdel W.toAccess W.store args).2),
    ("HEXISTS", fun W args => handleHexists W args),
    ("HLEN", fun W args => handleHlen W.toAccess W.store args),
    ("HKEYS", fun W args => handleHkeys W.toAccess W.store args),
    ("HVALS", fun W args => handleHvals W.toAccess W.store args),
    ("SADD", fun W args => (handleSadd W.toAccess W.store args).2),
    ("SREM", fun W args => (handleSrem W.toAccess W.store args).2),
    ("SMEMBERS", fun W args => handleSmembers W.toAccess W.store args),
    ("SISMEMBER", fun W args => handleSismember W.toAccess W.store args),
    ("SCARD", fun W args => handleScard W.toAccess W.store args),
    ("LPUSH", fun W args => (handleListPush W.toAccess W.store args true).2),
    ("RPUSH", fun W args => (handleListPush W.toAccess W.store args false).2),
    ("LPOP", fun W args => (handleListPop W.toAccess W.store args true).2),
    ("RPOP", fun W args => (handleListPop W.toAccess W.store args false).2),
    ("LRANGE", fun W args => handleLrange W.toAccess W.store args),
    ("LLEN", fun W args => handleLlen W.toAccess W.store args),
    ("LINDEX", fun W args => handleLindex W.toAccess W.store args),
    ("ZADD", fun W args => handleZadd W args),
    ("ZRANGE", fun W args => handleZrange W args),
    ("ZREM", fun W args => handleZrem W args),
    ("ZSCORE", fun W args => handleZscore W args),
    ("ZCARD", fun W args => handleZcard W args),
    ("JSON.SET", fun W args => handleJsonSet W args),
    ("JSON.GET", fun W args => handleJsonGet W args),
    ("JSON.DEL", fun W args => handleJsonDel W args),
    ("JSON.TYPE", fun W args => handleJsonType W args),
    ("DEL", fun W args => handleDel W args),
    ("EXISTS", fun W args => handleExists W args),
    ("TTL", fun W args => handleTtl W args),
    ("PTTL", fun W args => handleTtl W args),
    ("PUBLISH", fun W args => handlePublish W args),
    ("TYPE", fun W args => handleType W args)]

def respond (W : World) (args : List Bytes) : RespValue :=
  match handlers.find? fun h => toUpper (args.headD []) = ascii h.1 with
  | some h => h.2 W args
  | none => .error (ascii "ERR unknown command '" ++ W.upper (args.headD []) ++ ascii "'")

/-- The part of `dispatch` behind the check of `authenticated`, for the commands with one reply. -/
def answer (W : World) (args : List Bytes) : Option RespValue :=
  if toUpper (args.headD []) = ascii "HSCAN" then handleHscan W args
  else if toUpper (args.headD []) = ascii "SCAN" then handleScan W args
  else if toUpper (args.headD []) = ascii "KEYS" then handleKeys W args
  else some (respond W args)

def busFilters (W : World) (isPattern : Bool) (filters : List Bytes) : List Bytes :=
  if isPattern then filters.map fun f => (redisPatternToMqtt W.compile f).1 else filters

def rejection (W : World) (filters : List Bytes) : Option Bytes :=
  if filters.all W.canRead = false then some (ascii "NOPERM no permission to subscribe to one or more topics")
  else filters.findSome? fun f =>
    (W.rejects f).map fun why => ascii "ERR subscription rejected for " ++ f ++ ascii ": " ++ why

def refusal (W : World) (isPattern : Bool) (filters : List Bytes) : Option Bytes :=
  rejection W (busFilters W isPattern filters)

end MonsterMQ.Redis
