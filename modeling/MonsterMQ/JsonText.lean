import MonsterMQ.LittleEndian
import Mathlib.Data.List.Sort

/-!
# JSON texts

The values that Go's `encoding/json` reads into an `any` and writes from one: strings are byte strings,
which are escaped rune by rune, and the members of an object are written in the order of their names.
-/

namespace MonsterMQ.JsonText

open LittleEndian List

@[grind =] def utf8 (cs : List Char) : Bytes := cs.flatMap String.utf8EncodeChar

/-- The runes of a byte string behind the next `n` bytes; a byte that begins none is one of its own. -/
@[grind =] def runesFrom : ℕ → Bytes → List (Option Char)
  | _, [] => []
  | n + 1, _ :: s => runesFrom n s
  | 0, b :: s =>
    match ByteArray.utf8DecodeChar? (b :: s).toByteArray 0 with
    | none => none :: runesFrom 0 s
    | some c => some c :: runesFrom (c.utf8Size - 1) s

@[grind =] def runes (s : Bytes) : List (Option Char) := runesFrom 0 s

def IsText (s : Bytes) : Prop := ∃ cs, s = utf8 cs

@[simp] theorem runes_nil : runes [] = [] := rfl

private theorem runesFrom_append (l s : Bytes) : runesFrom l.length (l ++ s) = runes s := by
  induction l with
  | nil => rfl
  | cons b l ih =>
    rw [length_cons, cons_append, runesFrom]
    exact ih

theorem runes_encode_append (c : Char) (s : Bytes) :
    runes (String.utf8EncodeChar c ++ s) = some c :: runes s := by
  have hdec : ByteArray.utf8DecodeChar? (String.utf8EncodeChar c ++ s).toByteArray 0 = some c := by
    rw [toByteArray_append]
    exact ByteArray.utf8DecodeChar?_utf8EncodeChar_append
  have hlen := String.length_utf8EncodeChar c
  cases henc : String.utf8EncodeChar c with
  | nil =>
    rw [henc, length_nil] at hlen
    exact absurd hlen.symm (Nat.pos_iff_ne_zero.mp c.utf8Size_pos)
  | cons b l =>
    rw [henc] at hdec hlen
    rw [cons_append] at hdec ⊢
    rw [runes, runesFrom, hdec]
    dsimp only
    have hl : c.utf8Size - 1 = l.length := by
      rw [← hlen, length_cons, Nat.add_sub_cancel]
    rw [hl, runesFrom_append]

theorem runes_utf8 (cs : List Char) : runes (utf8 cs) = cs.map some := by
  induction cs with
  | nil => rfl
  | cons c cs ih => rw [utf8, flatMap_cons, runes_encode_append, ← utf8, ih, map_cons]

@[grind =] def escapeCode (n : ℕ) : List Char :=
  ['\x5c', 'u', Nat.digitChar (n / 4096 % 16), Nat.digitChar (n / 256 % 16), Nat.digitChar (n / 16 % 16),
    Nat.digitChar (n % 16)]

def shortEscapes : List (Char × Char) :=
  [('\x22', '\x22'), ('\x5c', '\x5c'), ('\x08', 'b'), ('\x0c', 'f'), ('\n', 'n'), ('\r', 'r'), ('\t', 't')]

/-- A character that is written as the escape of its code: a control character, or one that HTML or
JavaScript would read. -/
@[grind =] def isCoded (c : Char) : Bool := c < ' ' || c ∈ ['<', '>', '&', '\u2028', '\u2029']

@[grind =] def escape : Option Char → List Char
  | none => escapeCode 0xfffd
  | some c =>
    match shortEscapes.find? fun e => e.1 = c with
    | some e => ['\x5c', e.2]
    | none => if isCoded c then escapeCode c.toNat else [c]

@[grind =] def quote (s : Bytes) : List Char := '\x22' :: (runes s).flatMap escape ++ ['\x22']

/-- What stands in a string: a character, or the code unit of an escape. -/
inductive Piece where
  | char (c : Char)
  | code (u : ℕ)
  deriving DecidableEq, Repr

def hexVal (c : Char) : Option ℕ :=
  if '0' ≤ c ∧ c ≤ '9' then some (c.toNat - 48)
  else if 'a' ≤ c ∧ c ≤ 'f' then some (c.toNat - 87)
  else if 'A' ≤ c ∧ c ≤ 'F' then some (c.toNat - 55)
  else none

@[grind =] def hex4 (a b c d : Char) : Option ℕ := do
  return (← hexVal a) * 4096 + (← hexVal b) * 256 + (← hexVal c) * 16 + (← hexVal d)

/-- The character behind a backslash, other than `u`. -/
def unescape (e : Char) : Option Char :=
  if e = '/' then some e else (shortEscapes.find? fun p => p.2 = e).map Prod.fst

/-- The pieces of a string up to its closing quotation mark, and what is behind it. -/
def pieces : List Char → Option (List Piece × List Char)
  | [] => none
  | c :: s =>
    if c = '\x22' then some ([], s)
    else if c = '\x5c' then
      match s with
      | [] => none
      | e :: s =>
        if e = 'u' then
          match s with
          | a :: b :: c :: d :: s => do
            let u ← hex4 a b c d
            let (ps, s) ← pieces s
            return (.code u :: ps, s)
          | _ => none
        else do
          let c ← unescape e
          let (ps, s) ← pieces s
          return (.char c :: ps, s)
    else if c < ' ' then none
    else do
      let (ps, s) ← pieces s
      return (.char c :: ps, s)

@[grind =] def isSurrogate (u : ℕ) : Bool := 0xd800 ≤ u && u < 0xe000

def pairOf (u v : ℕ) : Option Char :=
  if u < 0xdc00 ∧ 0xdc00 ≤ v ∧ v < 0xe000 then
    some (Char.ofNat ((u - 0xd800) * 1024 + (v - 0xdc00) + 0x10000))
  else none

/-- The characters of a string behind a surrogate, if there is one: without its other half it is
replaced. -/
@[grind =] def charsFrom : Option ℕ → List Piece → List Char
  | none, [] => []
  | some _, [] => ['\ufffd']
  | none, .char c :: ps => c :: charsFrom none ps
  | some _, .char c :: ps => '\ufffd' :: c :: charsFrom none ps
  | none, .code u :: ps => if isSurrogate u then charsFrom (some u) ps else Char.ofNat u :: charsFrom none ps
  | some u, .code v :: ps =>
    match pairOf u v with
    | some c => c :: charsFrom none ps
    | none => '\ufffd' :: if isSurrogate v then charsFrom (some v) ps else Char.ofNat v :: charsFrom none ps

@[grind =] def chars (ps : List Piece) : List Char := charsFrom none ps

@[grind =] def parseString (s : List Char) : Option (Bytes × List Char) :=
  (pieces s).map fun p => (utf8 (chars p.1), p.2)

private theorem hexVal_digitChar : ∀ n < 16, hexVal (Nat.digitChar n) = some n := by decide

private theorem hex4_escapeCode {n : ℕ} (h : n < 65536) :
    hex4 (Nat.digitChar (n / 4096 % 16)) (Nat.digitChar (n / 256 % 16)) (Nat.digitChar (n / 16 % 16))
      (Nat.digitChar (n % 16)) = some n := by
  have hdigit : ∀ m, hexVal (Nat.digitChar (m % 16)) = some (m % 16) := by
    intro m
    exact hexVal_digitChar _ (Nat.mod_lt _ (by norm_num))
  simp only [hex4, hdigit, bind, Option.bind, pure]
  congr 1
  omega

theorem pieces_cons (c : Char) (s : List Char) : pieces (c :: s) = if c = '\x22' then some ([], s)
    else if c = '\x5c' then
      match s with
      | [] => none
      | e :: s =>
        if e = 'u' then
          match s with
          | a :: b :: c :: d :: s => do
            let u ← hex4 a b c d
            let (ps, s) ← pieces s
            return (.code u :: ps, s)
          | _ => none
        else do
          let c ← unescape e
          let (ps, s) ← pieces s
          return (.char c :: ps, s)
    else if c < ' ' then none
    else do
      let (ps, s) ← pieces s
      return (.char c :: ps, s) := by
  rw [pieces.eq_def]

private theorem pieces_quotationMark (s : List Char) : pieces ('\x22' :: s) = some ([], s) := by
  rw [pieces_cons]
  exact if_pos rfl

private theorem pieces_escapeCode {n : ℕ} (h : n < 65536) (s : List Char) :
    pieces (escapeCode n ++ s) = (pieces s).map fun p => (.code n :: p.1, p.2) := by
  simp only [escapeCode, cons_append, nil_append]
  rw [pieces_cons]
  dsimp only
  rw [if_neg (by decide), if_pos rfl, if_pos rfl, hex4_escapeCode h]
  cases pieces s <;> rfl

private theorem pieces_backslash {e c : Char} (he : e ≠ 'u') (hc : unescape e = some c) (s : List Char) :
    pieces ('\x5c' :: e :: s) = (pieces s).map fun p => (.char c :: p.1, p.2) := by
  rw [pieces_cons]
  dsimp only
  rw [if_neg (by decide), if_pos rfl, if_neg he, hc]
  cases pieces s <;> rfl

private theorem pieces_char {c : Char} (hq : c ≠ '\x22') (hb : c ≠ '\x5c') (hc : ¬ c < ' ') (s : List Char) :
    pieces (c :: s) = (pieces s).map fun p => (.char c :: p.1, p.2) := by
  rw [pieces_cons]
  dsimp only
  rw [if_neg hq, if_neg hb, if_neg hc]
  cases pieces s <;> rfl

private theorem unescape_shortEscapes : ∀ p ∈ shortEscapes, p.2 ≠ 'u' ∧ unescape p.2 = some p.1 := by decide

private theorem toNat_lt_of_isCoded {c : Char} (h : isCoded c = true) : c.toNat < 0xd800 := by
  rw [isCoded, Bool.or_eq_true, decide_eq_true_eq, decide_eq_true_eq] at h
  rcases h with h | h
  · have hlt : c.toNat < 32 := h
    omega
  · simp only [mem_cons, not_mem_nil, or_false] at h
    rcases h with rfl | rfl | rfl | rfl | rfl <;> decide

theorem pieces_escape (c : Char) :
    ∃ x, (∀ s, pieces (escape (some c) ++ s) = (pieces s).map fun p => (x :: p.1, p.2)) ∧
      ∀ ps, charsFrom none (x :: ps) = c :: charsFrom none ps := by
  cases hshort : shortEscapes.find? fun e => e.1 = c with
  | some e =>
    have hc : e.1 = c := by simpa using List.find?_some hshort
    obtain ⟨hu, hun⟩ := unescape_shortEscapes e (mem_of_find?_eq_some hshort)
    rw [hc] at hun
    refine ⟨.char c, fun s => ?_, fun ps => rfl⟩
    rw [escape, hshort]
    exact pieces_backslash hu hun s
  | none =>
    have hne : ∀ p ∈ shortEscapes, p.1 ≠ c := by
      intro p hp
      simpa using List.find?_eq_none.mp hshort p hp
    by_cases hcode : isCoded c = true
    · have hlt := toNat_lt_of_isCoded hcode
      refine ⟨.code c.toNat, fun s => ?_, fun ps => ?_⟩
      · rw [escape, hshort]
        dsimp only
        rw [if_pos hcode]
        exact pieces_escapeCode (by omega) s
      · have hs : isSurrogate c.toNat = false := by
          rw [isSurrogate, decide_eq_false (by omega), Bool.false_and]
        rw [charsFrom, hs, if_neg (by decide), Char.ofNat_toNat]
    · refine ⟨.char c, fun s => ?_, fun ps => rfl⟩
      rw [escape, hshort]
      dsimp only
      rw [if_neg hcode]
      refine pieces_char ?_ ?_ ?_ s
      · exact (hne ('\x22', '\x22') (by decide)).symm
      · exact (hne ('\x5c', '\x5c') (by decide)).symm
      · intro hlt
        exact hcode (by rw [isCoded, decide_eq_true hlt, Bool.true_or])

private theorem pieces_escaped (cs : List Char) (s : List Char) :
    ∃ ps, pieces (cs.flatMap (fun c => escape (some c)) ++ '\x22' :: s) = some (ps, s) ∧ chars ps = cs := by
  induction cs with
  | nil => exact ⟨[], pieces_quotationMark s, rfl⟩
  | cons c cs ih =>
    obtain ⟨ps, hps, hcs⟩ := ih
    obtain ⟨x, hx, hchar⟩ := pieces_escape c
    refine ⟨x :: ps, ?_, ?_⟩
    · rw [flatMap_cons, append_assoc, hx, hps]
      rfl
    · rw [chars, hchar, ← chars, hcs]

theorem parseString_quote {b : Bytes} (hb : IsText b) (s : List Char) :
    parseString ((quote b).tail ++ s) = some (b, s) := by
  obtain ⟨cs, rfl⟩ := hb
  obtain ⟨ps, hps, hcs⟩ := pieces_escaped cs s
  rw [quote, cons_append, tail_cons, runes_utf8, flatMap_map, append_assoc,
    singleton_append, parseString, hps, Option.map_some, hcs]

inductive Json where
  | null
  | bool (b : Bool)
  | number (literal : List Char)
  | str (s : Bytes)
  | arr (items : List Json)
  | obj (members : List (Bytes × Json))

def isSpace (c : Char) : Bool := c ∈ [' ', '\t', '\r', '\n']

def skipSpace (s : List Char) : List Char := s.dropWhile isSpace

def parseDigits (s : List Char) : Option (List Char × List Char) :=
  if s.head?.any Char.isDigit then some (s.takeWhile Char.isDigit, s.dropWhile Char.isDigit) else none

/-- What follows the integral part of a number: a fraction behind a point. -/
def parseFraction (s : List Char) : Option (List Char × List Char) :=
  match s with
  | c :: s' => if c = '.' then (parseDigits s').map fun p => (c :: p.1, p.2) else some ([], s)
  | [] => some ([], s)

def parseExponent (s : List Char) : Option (List Char × List Char) :=
  match s with
  | c :: s' =>
    if c = 'e' ∨ c = 'E' then
      match s' with
      | sign :: s'' =>
        if sign = '+' ∨ sign = '-' then (parseDigits s'').map fun p => (c :: sign :: p.1, p.2)
        else (parseDigits s').map fun p => (c :: p.1, p.2)
      | [] => none
    else some ([], s)
  | [] => some ([], s)

/-- A number without its sign: its integral part is zero or begins with another digit. -/
def parseUnsigned (s : List Char) : Option (List Char × List Char) := do
  let (int, s) ← if s.head? = some '0' then some (['0'], s.tail) else parseDigits s
  let (frac, s) ← parseFraction s
  let (exp, s) ← parseExponent s
  return (int ++ frac ++ exp, s)

def parseNumber (s : List Char) : Option (Json × List Char) :=
  if s.head? = some '-' then (parseUnsigned s.tail).map fun p => (.number ('-' :: p.1), p.2)
  else (parseUnsigned s).map fun p => (.number p.1, p.2)

def parseWord (word : String) (v : Json) (s : List Char) : Option (Json × List Char) :=
  if s.take word.length = word.toList then some (v, s.drop word.length) else none

/-- The members of an object are put into a map one after the other. -/
@[grind =] def collect (members : List (Bytes × Json)) : List (Bytes × Json) :=
  members.foldl (fun m e => m.filter (fun p => p.1 ≠ e.1) ++ [e]) []

mutual

/-- A value and what is behind it; `depth` bounds the nesting. -/
@[grind =] def parseValue : ℕ → ℕ → List Char → Option (Json × List Char)
  | 0, _, _ => none
  | n + 1, depth, s =>
    match skipSpace s with
    | [] => none
    | c :: s =>
      if c = '\x22' then (parseString s).map fun p => (.str p.1, p.2)
      else if c = '[' then
        if depth = 0 then none
        else if (skipSpace s).head? = some ']' then some (.arr [], (skipSpace s).tail)
        else (parseElements n (depth - 1) s).map fun p => (.arr p.1, p.2)
      else if c = '\x7b' then
        if depth = 0 then none
        else if (skipSpace s).head? = some '\x7d' then some (.obj [], (skipSpace s).tail)
        else (parseMembers n (depth - 1) s).map fun p => (.obj (collect p.1), p.2)
      else if c = 'n' then parseWord "null" .null (c :: s)
      else if c = 't' then parseWord "true" (.bool true) (c :: s)
      else if c = 'f' then parseWord "false" (.bool false) (c :: s)
      else parseNumber (c :: s)

@[grind =] def parseElements : ℕ → ℕ → List Char → Option (List Json × List Char)
  | 0, _, _ => none
  | n + 1, depth, s =>
    match parseValue n depth s with
    | none => none
    | some (v, s) =>
      match skipSpace s with
      | [] => none
      | c :: s =>
        if c = ',' then (parseElements n depth s).map fun p => (v :: p.1, p.2)
        else if c = ']' then some ([v], s)
        else none

@[grind =] def parseMembers : ℕ → ℕ → List Char → Option (List (Bytes × Json) × List Char)
  | 0, _, _ => none
  | n + 1, depth, s =>
    if (skipSpace s).head? = some '\x22' then
      match parseString (skipSpace s).tail with
      | none => none
      | some (k, s) =>
        if (skipSpace s).head? = some ':' then
          match parseValue n depth (skipSpace s).tail with
          | none => none
          | some (v, s) =>
            match skipSpace s with
            | [] => none
            | c :: s =>
              if c = ',' then (parseMembers n depth s).map fun p => ((k, v) :: p.1, p.2)
              else if c = '\x7d' then some ([(k, v)], s)
              else none
        else none
    else none

end

def maxNestingDepth : ℕ := 10000

@[grind =] def parse (s : List Char) : Option Json :=
  match parseValue s.length maxNestingDepth s with
  | some (v, rest) => if skipSpace rest = [] then some v else none
  | none => none

/-- What Go's floats make of the numbers: whether one is in their range, and how it is written with
`%v` and by `json.Marshal`. -/
structure Floats where
  inRange : List Char → Bool
  sprint : List Char → Bytes
  marshal : List Char → List Char

@[grind =] def commas : List (List Char) → List Char
  | [] => []
  | [t] => t
  | t :: u :: ts => t ++ ',' :: commas (u :: ts)

def sortMembers {α : Type} (ms : List (Bytes × α)) : List (Bytes × α) := ms.mergeSort fun a b => a.1 ≤ b.1

def member (p : Bytes × List Char) : List Char := quote p.1 ++ ':' :: p.2

mutual

@[grind =] def marshal (F : Floats) : Json → List Char
  | .null => "null".toList
  | .bool b => if b then "true".toList else "false".toList
  | .number literal => F.marshal literal
  | .str s => quote s
  | .arr items => '[' :: commas (marshalItems F items) ++ [']']
  | .obj ms => '\x7b' :: commas ((sortMembers (marshalMembers F ms)).map member) ++ ['\x7d']

@[grind =] def marshalItems (F : Floats) : List Json → List (List Char)
  | [] => []
  | v :: vs => marshal F v :: marshalItems F vs

@[grind =] def marshalMembers (F : Floats) : List (Bytes × Json) → List (Bytes × List Char)
  | [] => []
  | (k, v) :: ms => (k, marshal F v) :: marshalMembers F ms

end

mutual

@[grind =] def numbersInRange (F : Floats) : Json → Bool
  | .number literal => F.inRange literal
  | .arr items => itemsInRange F items
  | .obj ms => membersInRange F ms
  | _ => true

@[grind =] def itemsInRange (F : Floats) : List Json → Bool
  | [] => true
  | v :: vs => numbersInRange F v && itemsInRange F vs

@[grind =] def membersInRange (F : Floats) : List (Bytes × Json) → Bool
  | [] => true
  | (_, v) :: ms => numbersInRange F v && membersInRange F ms

end

@[grind =] def unmarshal (F : Floats) (payload : Bytes) : Option Json := do
  let v ← parse ((runes payload).map fun r => r.getD '\ufffd')
  if numbersInRange F v then some v else none

/-- The text is read as the value, whatever is behind it. -/
structure Parses (d : ℕ) (v : Json) (t : List Char) : Prop where
  head : ∃ c t', t = c :: t' ∧ isSpace c = false ∧ c ≠ ']'
  value : ∀ n rest, t.length ≤ n → parseValue n d (t ++ rest) = some (v, rest)

theorem skipSpace_cons {c : Char} (hc : isSpace c = false) (s : List Char) : skipSpace (c :: s) = c :: s :=
  dropWhile_cons_of_neg (by rw [hc]; decide)

theorem quote_eq (b : Bytes) : quote b = '\x22' :: (quote b).tail := rfl

theorem parses_str {b : Bytes} (hb : IsText b) (d : ℕ) : Parses d (.str b) (quote b) where
  head := ⟨'\x22', (quote b).tail, rfl, by decide, by decide⟩
  value := by
    intro n rest hn
    obtain ⟨n, rfl⟩ : ∃ m, n = m + 1 := by
      refine ⟨n - 1, ?_⟩
      rw [quote_eq, length_cons] at hn
      omega
    rw [quote_eq, cons_append, parseValue, skipSpace_cons (by decide)]
    dsimp only
    rw [if_pos rfl, parseString_quote hb, Option.map_some]

theorem parses_null (d : ℕ) : Parses d .null "null".toList where
  head := ⟨'n', "ull".toList, rfl, by decide, by decide⟩
  value := by
    intro n rest hn
    obtain ⟨n, rfl⟩ : ∃ m, n = m + 1 := ⟨n - 1, by simp at hn; omega⟩
    rfl

variable {d : ℕ}

theorem parseElements_commas {vs : List Json} {ts : List (List Char)} (h : List.Forall₂ (Parses d) vs ts)
    (hne : ts ≠ []) (n : ℕ) (rest : List Char) (hn : (commas ts).length < n) :
    parseElements n d (commas ts ++ ']' :: rest) = some (vs, rest) := by
  induction h generalizing n with
  | nil => exact absurd rfl hne
  | @cons v t vs ts hv hvs ih =>
    obtain ⟨n, rfl⟩ : ∃ m, n = m + 1 := ⟨n - 1, by omega⟩
    cases ts with
    | nil =>
      cases hvs
      rw [commas] at hn ⊢
      rw [parseElements, hv.value n _ (by omega)]
      dsimp only
      rw [skipSpace_cons (by decide)]
      dsimp only
      rw [if_neg (by decide), if_pos rfl]
    | cons u ts =>
      rw [commas, length_append, length_cons] at hn
      rw [commas, append_assoc, cons_append, parseElements, hv.value n _ (by omega)]
      dsimp only
      rw [skipSpace_cons (by decide)]
      dsimp only
      rw [if_pos rfl, ih (by simp) n (by omega), Option.map_some]

theorem parses_arr {vs : List Json} {ts : List (List Char)} (h : List.Forall₂ (Parses d) vs ts) :
    Parses (d + 1) (.arr vs) ('[' :: commas ts ++ [']']) where
  head := ⟨'[', commas ts ++ [']'], rfl, by decide, by decide⟩
  value := by
    intro n rest hn
    obtain ⟨n, rfl⟩ : ∃ m, n = m + 1 := ⟨n - 1, by simp at hn; omega⟩
    rw [cons_append, cons_append, append_assoc, parseValue, skipSpace_cons (by decide)]
    dsimp only
    rw [if_neg (by decide), if_pos rfl, if_neg (Nat.succ_ne_zero d)]
    cases h with
    | nil => rfl
    | @cons v t vs ts hv hvs =>
      obtain ⟨c, t', rfl, hc, hne⟩ := hv.head
      have htext : ∃ x, commas ((c :: t') :: ts) ++ ([']'] ++ rest) = c :: x := by
        cases ts with
        | nil | cons u ts => exact ⟨_, rfl⟩
      obtain ⟨x, hx⟩ := htext
      have hhead : (skipSpace (commas ((c :: t') :: ts) ++ ([']'] ++ rest))).head? ≠ some ']' := by
        rw [hx, skipSpace_cons hc, List.head?_cons]
        intro heq
        exact hne (Option.some.inj heq)
      rw [if_neg hhead, Nat.add_sub_cancel, singleton_append,
        parseElements_commas (.cons hv hvs) (by simp) n rest, Option.map_some]
      simp only [cons_append, length_cons, length_append, length_nil] at hn
      omega

structure ParsesMember (d : ℕ) (m : Bytes × Json) (p : Bytes × List Char) : Prop where
  name : p.1 = m.1
  isText : IsText m.1
  value : Parses d m.2 p.2

theorem member_eq (p : Bytes × List Char) : member p = '\x22' :: ((quote p.1).tail ++ ':' :: p.2) := rfl

theorem parseMembers_member {n : ℕ} {m : Bytes × Json} {p : Bytes × List Char} (h : ParsesMember d m p)
    (hn : p.2.length ≤ n) (c : Char) (hc : isSpace c = false) (s : List Char) :
    parseMembers (n + 1) d (member p ++ c :: s) =
      if c = ',' then (parseMembers n d s).map fun q => (m :: q.1, q.2)
      else if c = '\x7d' then some ([m], s)
      else none := by
  have htext : IsText p.1 := by
    rw [h.name]
    exact h.isText
  rw [member_eq, cons_append, append_assoc, cons_append, parseMembers, skipSpace_cons (by decide),
    List.head?_cons, if_pos rfl, tail_cons, parseString_quote htext]
  dsimp only
  rw [skipSpace_cons (by decide), List.head?_cons, if_pos rfl, tail_cons, h.value.value n _ hn]
  dsimp only
  rw [skipSpace_cons hc, h.name]

private theorem length_value_lt_member (p : Bytes × List Char) : p.2.length < (member p).length := by
  rw [member_eq]
  simp only [length_cons, length_append]
  omega

variable {ms : List (Bytes × Json)}

theorem parseMembers_commas {ps : List (Bytes × List Char)}
    (h : List.Forall₂ (ParsesMember d) ms ps) (hne : ps ≠ []) (n : ℕ) (rest : List Char)
    (hn : (commas (ps.map member)).length < n) :
    parseMembers n d (commas (ps.map member) ++ '\x7d' :: rest) = some (ms, rest) := by
  induction h generalizing n with
  | nil => exact absurd rfl hne
  | @cons m p ms ps hm hms ih =>
    obtain ⟨n, rfl⟩ : ∃ m, n = m + 1 := ⟨n - 1, by omega⟩
    have hlen := length_value_lt_member p
    cases ps with
    | nil =>
      cases hms
      simp only [map_cons, map_nil, commas] at hn ⊢
      rw [parseMembers_member hm (by omega) _ (by decide), if_neg (by decide), if_pos rfl]
    | cons q ps =>
      simp only [map_cons, commas, length_append, length_cons] at hn ih ⊢
      rw [append_assoc, cons_append, parseMembers_member hm (by omega) _ (by decide), if_pos rfl,
        ih (by simp) n (by omega), Option.map_some]

private theorem foldl_collect (ms acc : List (Bytes × Json)) (hn : ((acc ++ ms).map Prod.fst).Nodup) :
    ms.foldl (fun m e => m.filter (fun p => p.1 ≠ e.1) ++ [e]) acc = acc ++ ms := by
  induction ms generalizing acc with
  | nil => rw [foldl_nil, append_nil]
  | cons e ms ih =>
    have hkeep : acc.filter (fun p => p.1 ≠ e.1) = acc := by
      rw [filter_eq_self]
      intro p hp
      rw [map_append, nodup_append] at hn
      have hne := hn.2.2 p.1 (mem_map_of_mem hp) e.1 (by simp)
      exact decide_eq_true hne
    rw [foldl_cons, hkeep, ih (acc ++ [e]) (by simpa using hn), append_assoc, singleton_append]

private theorem collect_eq (hn : (ms.map Prod.fst).Nodup) : collect ms = ms := by
  rw [collect, foldl_collect ms [] (by simpa using hn), nil_append]

theorem parses_obj {ps : List (Bytes × List Char)}
    (h : List.Forall₂ (ParsesMember d) ms ps) (hnodup : (ms.map Prod.fst).Nodup) :
    Parses (d + 1) (.obj ms) ('\x7b' :: commas (ps.map member) ++ ['\x7d']) where
  head := ⟨'\x7b', commas (ps.map member) ++ ['\x7d'], rfl, by decide, by decide⟩
  value := by
    intro n rest hn
    obtain ⟨n, rfl⟩ : ∃ m, n = m + 1 := ⟨n - 1, by simp at hn; omega⟩
    rw [cons_append, cons_append, append_assoc, parseValue, skipSpace_cons (by decide)]
    dsimp only
    rw [if_neg (by decide), if_neg (by decide), if_pos rfl, if_neg (Nat.succ_ne_zero d)]
    cases h with
    | nil => rfl
    | @cons m p ms ps hm hms =>
      have htext : ∃ x, commas ((p :: ps).map member) ++ (['\x7d'] ++ rest) = '\x22' :: x := by
        cases ps with
        | nil | cons q ps => exact ⟨_, rfl⟩
      obtain ⟨x, hx⟩ := htext
      have hhead : (skipSpace (commas ((p :: ps).map member) ++ (['\x7d'] ++ rest))).head? ≠ some '\x7d' := by
        rw [hx, skipSpace_cons (by decide), List.head?_cons]
        decide
      rw [if_neg hhead, Nat.add_sub_cancel, singleton_append,
        parseMembers_commas (.cons hm hms) (by simp) n rest, Option.map_some, collect_eq hnodup]
      simp only [cons_append, length_cons, length_append, length_nil] at hn
      omega

theorem unmarshal_of_parses {F : Floats} {v : Json} {t : List Char} (h : Parses maxNestingDepth v t)
    (hv : numbersInRange F v = true) : unmarshal F (utf8 t) = some v := by
  have hval := h.value t.length [] le_rfl
  rw [append_nil] at hval
  have hparse : parse t = some v := by
    rw [parse, hval]
    rfl
  have hrunes : (runes (utf8 t)).map (fun r => r.getD '\ufffd') = t := by
    rw [runes_utf8, map_map]
    exact map_id t
  rw [unmarshal, hrunes, hparse]
  exact if_pos hv

end MonsterMQ.JsonText
