import MonsterMQ.AuthAcl
import MonsterMQ.BufferedReads

/-!
# Redis commands

`resp.go` of `internal/redisserver` reads a command from what a client sends: a multibulk of counted
strings, or a line of words.
-/

namespace MonsterMQ.Redis

open LittleEndian Auth BufferedReads

inductive ReadError where
  /-- The stream has ended or the connection is broken. -/
  | io
  | protocol (msg : Bytes)
  deriving DecidableEq, Repr

/-- What a reader gives: a value and the rest of the stream. -/
abbrev Read (α : Type) := Except ReadError (α × Bytes)

def errProtocol {α : Type} (msg : String) : Read α := .error (.protocol (ascii ("ERR Protocol error: " ++ msg)))

def readerSize : ℕ := 65536

/-- `ReadSlice('\n')`: the bytes up to the line feed, if there is one in the buffer. -/
def readSlice (r : Bytes) : Bytes × SliceEnd × Bytes := firstSlice readerSize 0x0a r

def tooBig {α : Type} : Read α := errProtocol "too big inline request"

/-- The loop of `readLine`, byte by byte: a lone carriage return and the byte behind it are kept. -/
def readOn (maxLen : ℕ) (buf : Bytes) : Bytes → Read Bytes
  | [] => if buf.length > maxLen then tooBig else .error .io
  | [b] =>
    if buf.length > maxLen then tooBig
    else if b = 0x0d then .error .io
    else if (buf ++ [b]).length > maxLen then tooBig
    else .error .io
  | b :: next :: rest =>
    if buf.length > maxLen then tooBig
    else if b = 0x0d then
      if next = 0x0a then .ok (buf, rest) else readOn maxLen (buf ++ [b, next]) rest
    else readOn maxLen (buf ++ [b]) (next :: rest)

def readLine (maxLen : ℕ) (r : Bytes) : Read Bytes :=
  let (slice, stop, rest) := readSlice r
  if stop = .delim ∧ 2 ≤ slice.length ∧ slice[slice.length - 2]? = some 0x0d then
    let res := slice.take (slice.length - 2)
    if res.length > maxLen then tooBig else .ok (res, rest)
  else if stop = .eof then .error .io
  else readOn maxLen slice rest

def digits : ℕ → Bytes → Option ℕ
  | n, [] => some n
  | n, b :: s => if 0x30 ≤ b ∧ b ≤ 0x39 then digits (10 * n + (b.toNat - 0x30)) s else none

@[grind =] def atoi (s : Bytes) : Option ℤ :=
  let (neg, s) := match s with
    | b :: s' => if b = 0x2d then (true, s') else if b = 0x2b then (false, s') else (false, s)
    | [] => (false, s)
  if s = [] then none
  else match digits 0 s with
    | none => none
    | some n =>
      let v : ℤ := if neg then -n else n
      if -9223372036854775808 ≤ v ∧ v ≤ 9223372036854775807 then some v else none

def charOf (b : UInt8) : Bytes :=
  if b < 0x80 then [b] else [(0xc0 : UInt8) ||| (b >>> 6), (0x80 : UInt8) ||| (b &&& 0x3f)]

def readBulk (effectiveMaxBulk : ℤ) (r : Bytes) : Except ReadError (Bytes × Bytes) :=
  match r with
  | [] => .error .io
  | firstByte :: r =>
    if firstByte ≠ 0x24 then
      .error (.protocol (ascii "ERR Protocol error: expected '$', got '" ++ charOf firstByte ++ ascii "'"))
    else do
      let (lenLine, r) ← readLine 65536 r
      match atoi lenLine with
      | none => errProtocol "invalid bulk length"
      | some bulkLen =>
        if bulkLen < 0 ∨ bulkLen > effectiveMaxBulk then errProtocol "invalid bulk length"
        else if r.length < bulkLen.toNat then .error .io
        else match r.drop bulkLen.toNat with
          | cr :: lf :: rest =>
            if cr ≠ 0x0d ∨ lf ≠ 0x0a then errProtocol "invalid bulk length"
            else .ok (r.take bulkLen.toNat, rest)
          | _ => .error .io

def readBulks (effectiveMaxBulk : ℤ) : ℕ → Bytes → Except ReadError (List Bytes × Bytes)
  | 0, r => .ok ([], r)
  | n + 1, r => do
    let (data, r) ← readBulk effectiveMaxBulk r
    let (args, r) ← readBulks effectiveMaxBulk n r
    return (data :: args, r)

def readMultibulk (maxMsgSize : ℤ) (r : Bytes) : Except ReadError (List Bytes × Bytes) := do
  let (line, r) ← readLine 65536 r
  if line.head? ≠ some 0x2a then errProtocol "invalid multibulk length"
  else match atoi (line.drop 1) with
    | none => errProtocol "invalid multibulk length"
    | some count =>
      if count < 0 ∨ count > 1048576 then errProtocol "invalid multibulk length"
      else readBulks (if maxMsgSize ≤ 0 then 512 * 1024 * 1024 else maxMsgSize) count.toNat r

/-- The length of the white space a text begins with, in UTF-8. No other character has such bytes in
the middle. -/
def spaceLen : Bytes → ℕ
  | [] => 0
  | b :: s =>
    if b ∈ [0x20, 0x09, 0x0a, 0x0b, 0x0c, 0x0d] then 1
    else if b = 0xc2 ∧ (s.head? = some 0x85 ∨ s.head? = some 0xa0) then 2
    else if (b :: s.take 2) ∈ [[0xe1, 0x9a, 0x80], [0xe2, 0x80, 0xa8], [0xe2, 0x80, 0xa9], [0xe2, 0x80, 0xaf],
        [0xe2, 0x81, 0x9f], [0xe3, 0x80, 0x80]] then 3
    else if b = 0xe2 ∧ s.head? = some 0x80 ∧ ∃ c ∈ s[1]?, 0x80 ≤ c ∧ c ≤ 0x8a then 3
    else 0

/-- `strings.Fields`, with the bytes of the word it is in and of the space it has yet to pass. -/
def fieldsFrom (word : Bytes) : ℕ → Bytes → List Bytes
  | _, [] => if word = [] then [] else [word]
  | skip + 1, _ :: s => fieldsFrom word skip s
  | 0, b :: s =>
    match spaceLen (b :: s) with
    | 0 => fieldsFrom (word ++ [b]) 0 s
    | n + 1 => if word = [] then fieldsFrom [] n s else word :: fieldsFrom [] n s

def fields (s : Bytes) : List Bytes := fieldsFrom [] 0 s

def readInline (r : Bytes) : Except ReadError (List Bytes × Bytes) := do
  let (line, r) ← readLine 65536 r
  return (fields line, r)

def readCommand (maxMsgSize : ℤ) (r : Bytes) : Read (List Bytes) :=
  match r with
  | [] => .error .io
  | leadByte :: _ => if leadByte = 0x2a then readMultibulk maxMsgSize r else readInline r

/-- A command that the connection treats in its own way; the others only answer. -/
inductive Command where
  | auth
  | hello
  | ping
  | client
  | quit
  | subscribe (isPattern : Bool)
  | unsubscribe (isPattern : Bool)
  | other
  deriving DecidableEq, Repr

/-- `strings.ToUpper` as far as the names of commands go: besides the letters of ASCII only the dotless
`i` and the long `s` have a capital in ASCII. -/
def toUpper : Bytes → Bytes
  | [] => []
  | [b] => [if 0x61 ≤ b ∧ b ≤ 0x7a then b - 0x20 else b]
  | b :: c :: s =>
    if b = 0xc4 ∧ c = 0xb1 then 0x49 :: toUpper s
    else if b = 0xc5 ∧ c = 0xbf then 0x53 :: toUpper s
    else (if 0x61 ≤ b ∧ b ≤ 0x7a then b - 0x20 else b) :: toUpper (c :: s)

def commandOf (cmd : Bytes) : Command :=
  let name := toUpper cmd
  if name = ascii "AUTH" then .auth
  else if name = ascii "HELLO" then .hello
  else if name = ascii "PING" then .ping
  else if name = ascii "CLIENT" then .client
  else if name = ascii "QUIT" then .quit
  else if name = ascii "SUBSCRIBE" then .subscribe false
  else if name = ascii "PSUBSCRIBE" then .subscribe true
  else if name = ascii "UNSUBSCRIBE" then .unsubscribe false
  else if name = ascii "PUNSUBSCRIBE" then .unsubscribe true
  else .other

def Command.allowedBeforeAuth (c : Command) : Bool := c ∈ [.auth, .hello, .ping, .quit, .client]

end MonsterMQ.Redis
