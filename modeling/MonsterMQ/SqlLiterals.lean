import Mathlib.Data.List.Basic

/-!
# String literals in SQL texts

A single quote opens a literal and ends it, unless another one follows, which stands for a quote in its
content. A text put together from fixed pieces and inputs keeps an input confined when it lies inside one
literal and leaves it open.
-/

namespace MonsterMQ.SqlLiterals

open List

abbrev Text := List UInt8

def quote : UInt8 := 0x27

inductive Token where
  | char (c : UInt8)
  | literal (content : Text)
  deriving DecidableEq, Repr

/-- Where the lexer is: after a quote inside a literal it does not know yet whether that ends. -/
inductive Mode where
  | outside
  | inside (content : Text)
  | closing (content : Text)
  deriving DecidableEq, Repr

@[grind =] def step : Mode → UInt8 → Mode × List Token
  | .outside, c => if c = quote then (.inside [], []) else (.outside, [.char c])
  | .inside content, c =>
    if c = quote then (.closing content, []) else (.inside (content ++ [c]), [])
  | .closing content, c =>
    if c = quote then (.inside (content ++ [quote]), []) else (.outside, [.literal content, .char c])

@[grind =] def scan : Mode → Text → Mode × List Token
  | m, [] => (m, [])
  | m, c :: s => ((scan (step m c).1 s).1, (step m c).2 ++ (scan (step m c).1 s).2)

theorem scan_append (m : Mode) (s t : Text) : scan m (s ++ t) =
    ((scan (scan m s).1 t).1, (scan m s).2 ++ (scan (scan m s).1 t).2) := by
  induction s generalizing m with
  | nil => rfl
  | cons c s ih =>
    rw [cons_append, scan, ih]
    simp only [scan, append_assoc]

variable {s : Text}

theorem scan_plain (h : quote ∉ s) : (scan .outside s).1 = .outside := by
  induction s with
  | nil => rfl
  | cons c s ih =>
    rw [mem_cons, not_or] at h
    rw [scan, step, if_neg (Ne.symm h.1)]
    exact ih h.2

theorem scan_append_outside {m : Mode} {t : Text} (h : (scan m s).1 = .outside) :
    (scan m (s ++ t)).1 = (scan .outside t).1 := by
  rw [scan_append, h]

theorem scan_close {content t : Text} {c : UInt8} (hc : c ≠ quote) :
    (scan (.inside content) (quote :: c :: t)).1 = (scan .outside t).1 := by
  have hclose : (step (.inside content) quote).1 = .closing content := rfl
  have hopen : (step (.closing content) c).1 = .outside := by
    rw [step, if_neg hc]
  rw [scan, scan]
  dsimp only
  rw [hclose, hopen]

def escape (content : Text) : Text := content.flatMap fun c => if c = quote then [quote, quote] else [c]

theorem escape_cons (c : UInt8) (s : Text) :
    escape (c :: s) = (if c = quote then [quote, quote] else [c]) ++ escape s := rfl

private theorem scan_escape (acc content : Text) :
    scan (.inside acc) (escape content) = (.inside (acc ++ content), []) := by
  induction content generalizing acc with
  | nil => rw [escape, flatMap_nil, append_nil, scan]
  | cons c s ih =>
    rw [escape_cons, scan_append]
    by_cases hc : c = quote
    · rw [if_pos hc, hc]
      have hpair : scan (.inside acc) [quote, quote] = (.inside (acc ++ [quote]), []) := rfl
      rw [hpair, ih, append_assoc]
      rfl
    · have hone : scan (.inside acc) [c] = (.inside (acc ++ [c]), []) := by
        rw [scan, step, if_neg hc]
        rfl
      rw [if_neg hc, hone, ih, append_assoc]
      rfl

/-- The quotes of the text come in adjacent pairs. -/
def quotesPaired : Text → Bool
  | [] => true
  | [c] => c ≠ quote
  | c :: d :: s => if c = quote then d = quote && quotesPaired s else quotesPaired (d :: s)

def unescape : Text → Text
  | [] => []
  | [c] => [c]
  | c :: d :: s => if c = quote then quote :: unescape s else c :: unescape (d :: s)

theorem escape_unescape (h : quotesPaired s = true) : escape (unescape s) = s := by
  fun_induction quotesPaired s with
  | case1 => rfl
  | case2 c =>
    have hc : c ≠ quote := by simpa using h
    rw [unescape, escape_cons, if_neg hc]
    rfl
  | case3 d s ih =>
    rw [Bool.and_eq_true, decide_eq_true_eq] at h
    rw [unescape, if_pos rfl, escape_cons, if_pos rfl, ih h.2, h.1]
    rfl
  | case4 c d s hc ih =>
    rw [unescape, if_neg hc, escape_cons, if_neg hc, ih h]
    rfl

theorem scan_paired {acc : Text} (h : quotesPaired s = true) :
    scan (.inside acc) s = (.inside (acc ++ unescape s), []) := by
  have hscan := scan_escape acc (unescape s)
  rwa [escape_unescape h] at hscan

theorem quotesPaired_of_scan {acc content : Text}
    (h : scan (.inside acc) s = (.inside content, [])) : quotesPaired s = true := by
  fun_induction quotesPaired s generalizing acc with
  | case1 => rfl
  | case2 c =>
    rw [decide_eq_true_eq]
    rintro rfl
    have hmode := congrArg Prod.fst h
    cases hmode
  | case3 d s ih =>
    have hclose : (step (.inside acc) quote) = (.closing acc, []) := rfl
    rw [scan, hclose, scan, nil_append] at h
    by_cases hd : d = quote
    · subst hd
      have hpair : step (.closing acc) quote = (.inside (acc ++ [quote]), []) := rfl
      rw [hpair] at h
      rw [decide_eq_true rfl, Bool.true_and]
      exact ih h
    · have htokens := congrArg Prod.snd h
      rw [step, if_neg hd] at htokens
      cases htokens
  | case4 c d s hc ih =>
    rw [scan, step, if_neg hc] at h
    exact ih h

inductive Piece where
  | fixed (s : Text)
  | input (s : Text)
  deriving DecidableEq, Repr

@[grind =] def Piece.text : Piece → Text
  | fixed s => s
  | input s => s

@[grind =] def render (ps : List Piece) : Text := ps.flatMap Piece.text

theorem render_append (ps qs : List Piece) : render (ps ++ qs) = render ps ++ render qs :=
  flatMap_append

/-- Each input begins inside a literal and only adds to the content of that literal. -/
@[grind =] def Confined : Mode → List Piece → Prop
  | _, [] => True
  | m, .fixed s :: ps => Confined (scan m s).1 ps
  | m, .input s :: ps => (∃ acc content, m = .inside acc ∧
      scan (.inside acc) s = (.inside content, [])) ∧ Confined (scan m s).1 ps

variable {ps : List Piece}

theorem confined_append {qs : List Piece} : ∀ {m : Mode}, Confined m (ps ++ qs) ↔
    Confined m ps ∧ Confined (scan m (render ps)).1 qs := by
  induction ps with
  | nil =>
    intro m
    exact (and_iff_right trivial).symm
  | cons p ps ih =>
    intro m
    have hscan : (scan m (render (p :: ps))).1 = (scan (scan m p.text).1 (render ps)).1 := by
      rw [render, flatMap_cons, scan_append]
      rfl
    rw [cons_append, hscan]
    cases p with
    | fixed s => exact ih
    | input s =>
      rw [Confined, Confined, and_assoc]
      exact and_congr_right fun _ => ih

theorem confined_input_iff {acc : Text} : Confined (.inside acc) (.input s :: ps) ↔
      quotesPaired s = true ∧ Confined (.inside (acc ++ unescape s)) ps := by
  rw [Confined]
  constructor
  · rintro ⟨⟨acc', content, heq, hscan⟩, hrest⟩
    obtain rfl := Mode.inside.inj heq
    have hpaired := quotesPaired_of_scan hscan
    rw [scan_paired hpaired] at hrest
    exact ⟨hpaired, hrest⟩
  · rintro ⟨hpaired, hrest⟩
    refine ⟨⟨acc, _, rfl, scan_paired hpaired⟩, ?_⟩
    rw [scan_paired hpaired]
    exact hrest

theorem not_confined_outside : ¬ Confined .outside (.input s :: ps) := by
  rintro ⟨⟨acc, content, heq, -⟩, -⟩
  cases heq

end MonsterMQ.SqlLiterals
