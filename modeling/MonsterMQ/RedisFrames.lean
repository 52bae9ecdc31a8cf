import MonsterMQ.DecimalText
import MonsterMQ.RedisConn
import MonsterMQ.RedisStructs

/-!
# Replies on the wire

A client reads simple strings, errors, integers and counts up to the end of their line, and strings and
arrays by their counts. A reply is read back exactly when the texts of its lines have no line end.
-/

namespace MonsterMQ.Redis

open LittleEndian Auth DecimalText List

@[grind =] def signed (n : ℤ) : Bytes := if n < 0 then ascii "-" ++ decimal n.natAbs else decimal n.natAbs

mutual

@[grind =] def frame : RespValue → Bytes
  | .simple s => ascii "+" ++ s ++ crlf
  | .error s => ascii "-" ++ s ++ crlf
  | .integer n => ascii ":" ++ signed n ++ crlf
  | .bulk none => ascii "$-1" ++ crlf
  | .bulk (some b) => ascii "$" ++ decimal b.length ++ crlf ++ b ++ crlf
  | .nullArray => ascii "*-1" ++ crlf
  | .array items => ascii "*" ++ decimal items.length ++ crlf ++ frames items

@[grind =] def frames : List RespValue → Bytes
  | [] => []
  | v :: vs => frame v ++ frames vs

end

/-- A line: the bytes before its end, in which there is no part of another one. -/
def line : Bytes → Option (Bytes × Bytes)
  | [] => none
  | b :: s =>
    if b = 0x0d then if s.head? = some 0x0a then some ([], s.tail) else none
    else if b = 0x0a then none
    else (line s).map fun p => (b :: p.1, p.2)

@[grind =] def integer (s : Bytes) : Option ℤ :=
  if s.head? = some 0x2d then (number s.tail).map fun n : ℕ => -(n : ℤ)
  else (number s).map fun n : ℕ => (n : ℤ)

/-- A string of a known length and the end of its line. -/
def counted (n : ℕ) (s : Bytes) : Option (Bytes × Bytes) :=
  if (s.drop n).take 2 = crlf then some (s.take n, s.drop (n + 2)) else none

mutual

def readValue : ℕ → Bytes → Option (RespValue × Bytes)
  | _, [] => none
  | 0, _ => none
  | fuel + 1, t :: s =>
    match line s with
    | none => none
    | some (l, s) =>
      if t = 0x2b then some (.simple l, s)
      else if t = 0x2d then some (.error l, s)
      else match integer l with
        | none => none
        | some n =>
          if t = 0x3a then some (.integer n, s)
          else if t = 0x24 then
            if n = -1 then some (.bulk none, s)
            else if n < 0 then none
            else (counted n.toNat s).map fun p => (.bulk (some p.1), p.2)
          else if t = 0x2a then
            if n = -1 then some (.nullArray, s)
            else if n < 0 then none
            else (readValues fuel n.toNat s).map fun p => (.array p.1, p.2)
          else none

def readValues : ℕ → ℕ → Bytes → Option (List RespValue × Bytes)
  | _, 0, s => some ([], s)
  | 0, _ + 1, _ => none
  | fuel + 1, n + 1, s =>
    match readValue fuel s with
    | none => none
    | some (v, s) => (readValues fuel n s).map fun p => (v :: p.1, p.2)

end

def readAll : ℕ → Bytes → Option (List RespValue)
  | _, [] => some []
  | 0, _ :: _ => none
  | fuel + 1, b :: s =>
    match readValue (b :: s).length (b :: s) with
    | none => none
    | some (v, s) => (readAll fuel s).map fun vs => v :: vs

@[grind =] def Plain (s : Bytes) : Prop := 0x0d ∉ s ∧ 0x0a ∉ s
deriving Decidable

theorem plain_ascii {s : String} {cs : List Char} (h : s = String.ofList cs)
    (hcs : (cs.all fun c => c.toNat.toUInt8 != 0x0d && c.toNat.toUInt8 != 0x0a) = true) :
    Plain (ascii s) := by
  have hall := all_eq_true.mp hcs
  simp only [Bool.and_eq_true] at hall
  constructor
  · exact not_mem_ascii h (all_eq_true.mpr fun c hc => (hall c hc).1)
  · exact not_mem_ascii h (all_eq_true.mpr fun c hc => (hall c hc).2)

mutual

def Clean : RespValue → Prop
  | .simple s => Plain s
  | .error s => Plain s
  | .array items => CleanItems items
  | _ => True

def CleanItems : List RespValue → Prop
  | [] => True
  | v :: vs => Clean v ∧ CleanItems vs

end

theorem plain_append {s t : Bytes} : Plain (s ++ t) ↔ Plain s ∧ Plain t := by
  simp only [Plain, mem_append, not_or]
  tauto

private theorem plain_cons {b : UInt8} {s : Bytes} : Plain (b :: s) ↔ (b ≠ 0x0d ∧ b ≠ 0x0a) ∧ Plain s := by
  simp only [Plain, mem_cons, not_or, ne_eq, eq_comm (b := b)]
  tauto

theorem line_crlf {s : Bytes} (h : Plain s) (rest : Bytes) : line (s ++ (crlf ++ rest)) = some (s, rest) := by
  induction s with
  | nil => rfl
  | cons b s ih =>
    obtain ⟨⟨hcr, hlf⟩, hs⟩ := (plain_cons).mp h
    rw [cons_append, line, if_neg hcr, if_neg hlf, ih hs, Option.map_some]

theorem decimal_eq (n : ℕ) : decimal n = DecimalText.decimal n := by
  rw [decimal, ascii, DecimalText.decimal]
  congr 1
  exact Nat.toList_repr

private theorem plain_of_digits {s : Bytes} (h : ∀ b ∈ s, isDigit b = true) : Plain s := by
  constructor
  · intro hb
    exact absurd (h _ hb) (by decide)
  · intro hb
    exact absurd (h _ hb) (by decide)

theorem plain_decimal (n : ℕ) : Plain (decimal n) := by
  rw [decimal_eq]
  exact plain_of_digits fun b hb => isDigit_of_mem_decimal hb

private theorem head_decimal (n : ℕ) : (decimal n).head? ≠ some 0x2d := by
  intro h
  have hmem := mem_of_head? h
  rw [decimal_eq] at hmem
  exact absurd (isDigit_of_mem_decimal hmem) (by decide)

theorem integer_decimal (n : ℕ) : integer (decimal n) = some (n : ℤ) := by
  rw [integer, if_neg (head_decimal n), decimal_eq, number_decimal, Option.map_some]

private theorem plain_signed (n : ℤ) : Plain (signed n) := by
  rw [signed]
  split
  · exact (plain_append).mpr ⟨by decide, plain_decimal _⟩
  · exact plain_decimal _

private theorem integer_signed (n : ℤ) : integer (signed n) = some n := by
  rw [signed]
  split
  · next hneg =>
    rw [integer, show ascii "-" ++ decimal n.natAbs = 0x2d :: decimal n.natAbs from rfl, List.head?_cons, if_pos rfl,
      tail_cons, decimal_eq, number_decimal, Option.map_some]
    congr 1
    omega
  · next hpos =>
    rw [integer_decimal]
    congr 1
    omega

private theorem digits_eq (s : Bytes) : ∀ n, digits n s = DecimalText.digitsFrom n s := by
  induction s with
  | nil => exact fun _ => rfl
  | cons b s ih =>
    intro n
    rw [digits, DecimalText.digitsFrom, ih]
    simp only [DecimalText.isDigit, Bool.and_eq_true, decide_eq_true_eq]

theorem atoi_signed {n : ℤ} (hlow : 0 ≤ n) (hhigh : n ≤ 9223372036854775807) : atoi (signed n) = some n := by
  obtain ⟨k, rfl⟩ := Int.eq_ofNat_of_zero_le hlow
  have htext : signed (k : ℤ) = DecimalText.decimal k := by
    rw [signed, if_neg (by omega), Int.natAbs_natCast, decimal_eq]
  have hdigits : digits 0 (DecimalText.decimal k) = some k := by
    rw [digits_eq, DecimalText.digitsFrom_decimal]
  rw [htext]
  cases htail : DecimalText.decimal k with
  | nil => exact absurd htail (DecimalText.decimal_ne_nil k)
  | cons b s =>
    have hb : DecimalText.isDigit b = true :=
      DecimalText.isDigit_of_mem_decimal (n := k) (htail ▸ mem_cons_self)
    have hminus : b ≠ 0x2d := by
      rintro rfl
      exact absurd hb (by decide)
    have hplus : b ≠ 0x2b := by
      rintro rfl
      exact absurd hb (by decide)
    rw [atoi]
    dsimp only
    rw [if_neg hminus, if_neg hplus]
    dsimp only
    rw [if_neg (cons_ne_nil b s), ← htail, hdigits]
    dsimp only
    rw [if_neg Bool.false_ne_true, if_pos (by omega)]

theorem counted_crlf (b rest : Bytes) : counted b.length (b ++ (crlf ++ rest)) = some (b, rest) := by
  have htake : (crlf ++ rest).take 2 = crlf := rfl
  rw [counted, drop_left, if_pos htake, take_left, ← drop_drop, drop_left]
  rfl

theorem frame_ne_nil (v : RespValue) : frame v ≠ [] := by
  cases v with
  | bulk b => cases b <;> simp [frame, ascii]
  | _ => simp [frame, ascii]

theorem readValue_line {fuel : ℕ} {t : UInt8} {l : Bytes} (h : Plain l) (rest : Bytes) :
    readValue (fuel + 1) (t :: (l ++ (crlf ++ rest))) =
      if t = 0x2b then some (.simple l, rest)
      else if t = 0x2d then some (.error l, rest)
      else match integer l with
        | none => none
        | some n =>
          if t = 0x3a then some (.integer n, rest)
          else if t = 0x24 then
            if n = -1 then some (.bulk none, rest)
            else if n < 0 then none
            else (counted n.toNat rest).map fun p => (.bulk (some p.1), p.2)
          else if t = 0x2a then
            if n = -1 then some (.nullArray, rest)
            else if n < 0 then none
            else (readValues fuel n.toNat rest).map fun p => (.array p.1, p.2)
          else none := by
  rw [readValue, line_crlf h]

mutual

theorem readValue_frame (v : RespValue) (hv : Clean v) (fuel : ℕ) (hfuel : (frame v).length ≤ fuel) (rest : Bytes) :
    readValue fuel (frame v ++ rest) = some (v, rest) := by
  obtain ⟨fuel, rfl⟩ : ∃ n, fuel = n + 1 := by
    have hpos := length_pos_of_ne_nil (frame_ne_nil v)
    exact ⟨fuel - 1, by omega⟩
  cases v with
  | simple s | error s =>
    simp only [frame, append_assoc]
    exact (readValue_line hv rest).trans rfl
  | integer n =>
    simp only [frame, append_assoc]
    refine (readValue_line (plain_signed n) rest).trans ?_
    rw [integer_signed]
    rfl
  | bulk b =>
    cases b with
    | none => rfl
    | some b =>
      simp only [frame, append_assoc]
      refine (readValue_line (t := 0x24) (plain_decimal b.length) _).trans ?_
      rw [integer_decimal]
      dsimp only
      rw [if_neg (by decide), if_neg (by decide), if_neg (by decide), if_pos rfl, if_neg (by omega), if_neg (by omega),
        Int.toNat_natCast, counted_crlf, Option.map_some]
  | nullArray => rfl
  | array items =>
    simp only [frame, append_assoc] at hfuel ⊢
    refine (readValue_line (t := 0x2a) (plain_decimal items.length) _).trans ?_
    rw [integer_decimal]
    dsimp only
    rw [if_neg (by decide), if_neg (by decide), if_neg (by decide), if_neg (by decide), if_pos rfl, if_neg (by omega),
      if_neg (by omega), Int.toNat_natCast]
    rw [readValues_frames items hv fuel ?_ rest, Option.map_some]
    have hcrlf : crlf.length = 2 := rfl
    have hstar : (ascii "*").length = 1 := rfl
    simp only [length_append] at hfuel
    omega

theorem readValues_frames (vs : List RespValue) (hvs : CleanItems vs) (fuel : ℕ) (hfuel : (frames vs).length < fuel)
    (rest : Bytes) : readValues fuel vs.length (frames vs ++ rest) = some (vs, rest) := by
  cases vs with
  | nil =>
    rw [frames, nil_append, length_nil, readValues]
  | cons v vs =>
    obtain ⟨fuel, rfl⟩ : ∃ n, fuel = n + 1 := ⟨fuel - 1, by omega⟩
    rw [frames, length_append] at hfuel
    have hpos := length_pos_of_ne_nil (frame_ne_nil v)
    rw [frames, append_assoc, length_cons, readValues, readValue_frame v hvs.1 fuel (by omega)]
    dsimp only
    rw [readValues_frames vs hvs.2 fuel (by omega), Option.map_some]

end

theorem readAll_frames {vs : List RespValue} (hvs : ∀ v ∈ vs, Clean v) (fuel : ℕ) (hfuel : vs.length ≤ fuel) :
    readAll fuel (vs.flatMap frame) = some vs := by
  induction vs generalizing fuel with
  | nil =>
    rw [flatMap_nil, readAll]
  | cons v vs ih =>
    obtain ⟨fuel, rfl⟩ : ∃ n, fuel = n + 1 := by
      rw [length_cons] at hfuel
      exact ⟨fuel - 1, by omega⟩
    have hv := readValue_frame v (hvs v mem_cons_self) (frame v ++ vs.flatMap frame).length
      (by rw [length_append]; omega) (vs.flatMap frame)
    obtain ⟨b, t, hbt⟩ := exists_cons_of_ne_nil (frame_ne_nil v)
    rw [flatMap_cons]
    rw [hbt, cons_append] at hv ⊢
    rw [readAll, hv]
    dsimp only
    rw [ih (fun w hw => hvs w (mem_cons_of_mem v hw)) fuel (by rw [length_cons] at hfuel; omega),
      Option.map_some]

end MonsterMQ.Redis
