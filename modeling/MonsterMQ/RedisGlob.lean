import MonsterMQ.AuthAcl
import MonsterMQ.JsonText
import MonsterMQ.PeerLinkInterestTrie

/-!
# Patterns of Redis

`glob.go` of `internal/redisserver`. A pattern of keys becomes a topic filter with a test of the topics
behind it, and a glob becomes a regular expression. One that does not compile is taken as it is written,
and there is a panic when that does not compile either.
-/

namespace MonsterMQ.Redis

open LittleEndian Auth JsonText PeerLink

abbrev Compile := Bytes → Option (Bytes → Bool)

def hasUnescapedMeta : Bytes → Bool
  | [] => false
  | 0x5c :: _ :: s => hasUnescapedMeta s
  | b :: s => b ∈ ascii "*?[" || hasUnescapedMeta s

def unescape : Bytes → Bytes
  | [] => []
  | 0x5c :: b :: s => b :: unescape s
  | b :: s => b :: unescape s

def quoteMeta (s : Bytes) : Bytes :=
  s.flatMap fun b => if b ∈ ascii "\\.+*?()|[]\x7b\x7d^$" then [0x5c, b] else [b]

/-- `string(c)` of a byte, quoted: the character with its number. -/
def quoteByte (c : UInt8) : Bytes := quoteMeta (utf8 [Char.ofNat c.toNat])

/-- `escapeCharClass`; a dash that is not the first byte and not the last makes a range. -/
def escapeCharClass : Bool → Bytes → Bytes
  | _, [] => []
  | _, 0x5c :: b :: s => 0x5c :: b :: escapeCharClass false s
  | first, b :: s =>
    if b = 0x2d ∧ first = false ∧ s ≠ [] then b :: escapeCharClass false s
    else if b ∈ ascii "[]-&" then 0x5c :: b :: escapeCharClass false s
    else b :: escapeCharClass false s

/-- The bytes up to the bracket that closes, and those behind it. -/
def classEnd : Bytes → Option (Bytes × Bytes)
  | [] => none
  | 0x5c :: b :: s => (classEnd s).map fun p => (0x5c :: b :: p.1, p.2)
  | b :: s => if b = 0x5d then some ([], s) else (classEnd s).map fun p => (b :: p.1, p.2)

/-- What stands between brackets; the first byte, or the one behind `^`, does not close them. -/
def bracket (s : Bytes) : Option (Bytes × Bytes) :=
  let hat := s.take (if s.head? = some 0x5e then 1 else 0)
  let s := s.drop hat.length
  let first := s.take (if s.head? = some 0x5d then 1 else 0)
  (classEnd (s.drop first.length)).map fun p => (hat ++ first ++ p.1, p.2)

def globBody : ℕ → Bytes → Bytes
  | 0, _ => []
  | _, [] => []
  | fuel + 1, c :: s =>
    if c = 0x5c then
      match s with
      | [] => quoteMeta [0x5c]
      | b :: s => quoteByte b ++ globBody fuel s
    else if c = 0x2a then ascii ".*" ++ globBody fuel s
    else if c = 0x3f then ascii "." ++ globBody fuel s
    else if c = 0x5b then
      match bracket s with
      | none => quoteMeta [0x5b] ++ globBody fuel s
      | some (inner, rest) =>
        (if inner.head? = some 0x5e then ascii "[^" ++ escapeCharClass true inner.tail
          else ascii "[" ++ escapeCharClass true inner) ++ ascii "]" ++ globBody fuel rest
    else quoteByte c ++ globBody fuel s

def globText (pattern : Bytes) : Bytes := ascii "^" ++ globBody pattern.length pattern ++ ascii "$"

def exactText (pattern : Bytes) : Bytes := ascii "^" ++ quoteMeta pattern ++ ascii "$"

/-- `globToRegex`; none when `MustCompile` panics. -/
def globToRegex (compile : Compile) (pattern : Bytes) : Option (Bytes → Bool) :=
  (compile (globText pattern)).or (compile (exactText pattern))

def globMatch (compile : Compile) (pattern text : Bytes) : Option Bool :=
  (globToRegex compile pattern).map fun re => re text

/-- The filter and the test of the topics; none stands for a panic. -/
def redisPatternToMqtt (compile : Compile) (pattern : Bytes) : Bytes × Option (Bytes → Option Bool) :=
  if pattern = ascii "*" then (ascii "#", none)
  else if 0x2b ∈ pattern ∨ 0x23 ∈ pattern then (pattern, none)
  else if hasUnescapedMeta pattern = false then (unescape pattern, none)
  else
    let segments := levels pattern
    if segments.all fun seg => hasUnescapedMeta seg = false || seg = ascii "*" then
      let last := segments.getLastD []
      let filter := joinLevels
        ((segments.dropLast.map fun seg => if seg = ascii "*" then ascii "+" else unescape seg) ++
        [if last = ascii "*" then ascii "#" else unescape last])
      (filter, if last = ascii "*" then some fun topic => some (segments.length ≤ (levels topic).length) else none)
    else
      let front := joinLevels ((segments.takeWhile fun seg => hasUnescapedMeta seg = false).map unescape)
      (if front = [] then ascii "#" else front ++ ascii "/#", some (globMatch compile pattern))

/-- What is documented of `regexp`: an expression is UTF-8, and one of quoted text compiles unless it is
too large. -/
structure Compile.Documented (compile : Compile) : Prop where
  text : ∀ s, (compile s).isSome → none ∉ runes s
  quoted : ∀ s, none ∉ runes s → s.length ≤ 2 ^ 25 → (compile (exactText s)).isSome

variable {compile : Compile} {pattern : Bytes}

/-- There is no panic for a pattern in UTF-8. -/
theorem globToRegex_isSome (h : compile.Documented) (htext : none ∉ runes pattern)
    (hlen : pattern.length ≤ 2 ^ 25) : (globToRegex compile pattern).isSome := by
  rw [globToRegex, Option.isSome_or, h.quoted pattern htext hlen, Bool.or_true]

/-- There is one if neither expression is UTF-8. -/
theorem globToRegex_eq_none (h : compile.Documented) (hglob : none ∈ runes (globText pattern))
    (hexact : none ∈ runes (exactText pattern)) : globToRegex compile pattern = none := by
  rw [globToRegex, Option.or_eq_none_iff]
  constructor
  · exact Option.not_isSome_iff_eq_none.mp fun hsome => h.text _ hsome hglob
  · exact Option.not_isSome_iff_eq_none.mp fun hsome => h.text _ hsome hexact

end MonsterMQ.Redis
