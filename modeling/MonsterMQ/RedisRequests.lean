import MonsterMQ.RedisReader
import Mathlib.Data.List.DropRight
import Mathlib.Algebra.Group.Nat.Even

/-!
# Requests on the wire

A client sends a command as an array of counted strings, or as a line of words. `readLine` takes a carriage
return together with the byte behind it and so misses an end whose carriage return is the second of such a
pair.
-/

namespace MonsterMQ.Redis

open LittleEndian Auth BufferedReads List

def encodeBulk (b : Bytes) : Bytes := ascii "$" ++ (decimal b.length ++ (crlf ++ (b ++ crlf)))

def encodeCommand (args : List Bytes) : Bytes :=
  ascii "*" ++ (decimal args.length ++ (crlf ++ args.flatMap encodeBulk))

def maxBulk (maxMsgSize : ℤ) : ℤ := if maxMsgSize ≤ 0 then 512 * 1024 * 1024 else maxMsgSize

def ConnReader.readCommands (maxMsgSize : ℤ) :
    ℕ → ConnReader → Except ReadError (List (List Bytes) × ConnReader)
  | 0, b => .ok ([], b)
  | n + 1, b => do
    let (args, b) ← ConnReader.readCommand maxMsgSize b
    let (cmds, b) ← readCommands maxMsgSize n b
    return (args :: cmds, b)

/-- The end of a line is seen: the buffer is not cut between its two bytes, and behind a line feed the
carriage returns before it go in pairs. -/
def EndSeen (l : Bytes) : Prop :=
  if 0x0a ∈ l then Even ((l.dropWhile (· ≠ 0x0a)).tail.rtakeWhile (· = 0x0d)).length else l.length ≠ 65535

variable {l buf : Bytes}

theorem findIdx?_line (h : 0x0a ∉ l) (t : Bytes) :
    (l ++ 0x0a :: t).findIdx? (· = (0x0a : UInt8)) = some l.length := by
  induction l with
  | nil => rfl
  | cons b l ih =>
    rw [mem_cons, not_or] at h
    rw [cons_append, List.findIdx?_cons, if_neg (by simpa using Ne.symm h.1), ih h.2]
    rfl

theorem readSlice_line (h : 0x0a ∉ l) (hlen : l.length < readerSize) (t : Bytes) :
    readSlice (l ++ 0x0a :: t) = (l ++ [0x0a], .delim, t) := by
  have htake : (l ++ 0x0a :: t).take readerSize = l ++ 0x0a :: t.take (readerSize - l.length - 1) := by
    rw [take_append, take_of_length_le (Nat.le_of_lt hlen),
      show readerSize - l.length = (readerSize - l.length - 1) + 1 by omega, take_succ_cons]
    rfl
  have hsplit : l ++ 0x0a :: t = (l ++ [0x0a]) ++ t := by rw [append_assoc, singleton_append]
  have hlength : (l ++ [(0x0a : UInt8)]).length = l.length + 1 := by rw [length_append, length_singleton]
  rw [readSlice, BufferedReads.firstSlice, htake, findIdx?_line h]
  dsimp only
  rw [hsplit, take_left' hlength, drop_left' hlength]

variable {maxLen : ℕ}

theorem readLine_fast {s : Bytes} (h : 0x0a ∉ s) (hlen : s.length + 2 ≤ readerSize)
    (hmax : s.length ≤ maxLen) (rest : Bytes) : readLine maxLen (s ++ (crlf ++ rest)) = .ok (s, rest) := by
  have hsplit : s ++ (crlf ++ rest) = (s ++ [0x0d]) ++ 0x0a :: rest := by
    rw [append_assoc]
    rfl
  have hno : (0x0a : UInt8) ∉ s ++ [0x0d] := by
    rw [mem_append, mem_singleton, not_or]
    exact ⟨h, by decide⟩
  have hlength : (s ++ [(0x0d : UInt8)] ++ [0x0a]).length = s.length + 2 := by
    rw [append_assoc, length_append]
    rfl
  rw [hsplit, readLine, readSlice_line hno (by rw [length_append]; exact hlen)]
  dsimp only
  rw [hlength, Nat.add_sub_cancel, if_pos, append_assoc, take_left, if_neg (by omega)]
  refine ⟨rfl, by omega, ?_⟩
  rw [append_assoc, List.getElem?_append_right (Nat.le_refl _), Nat.sub_self]
  rfl

private theorem readLine_lone (h : 0x0a ∉ l) (hlen : l.length < readerSize) (hlast : l.getLast? ≠ some 0x0d)
    (maxLen : ℕ) (t : Bytes) : readLine maxLen (l ++ 0x0a :: t) = readOn maxLen (l ++ [0x0a]) t := by
  rw [readLine, readSlice_line h hlen]
  dsimp only
  rw [if_neg, if_neg (by decide)]
  rintro ⟨-, htwo, hcr⟩
  rw [length_append, length_singleton] at htwo hcr
  rw [List.getElem?_append_left (by omega)] at hcr
  rw [List.getLast?_eq_getElem?] at hlast
  exact hlast hcr

theorem readLine_full (h : 0x0a ∉ l) (hlen : l.length = readerSize) (maxLen : ℕ) (t : Bytes) :
    readLine maxLen (l ++ t) = readOn maxLen l t := by
  have hfind : l.findIdx? (· = (0x0a : UInt8)) = none := by
    rw [List.findIdx?_eq_none_iff]
    intro b hb
    rw [decide_eq_false_iff_not]
    rintro rfl
    exact h hb
  have hslice : readSlice (l ++ t) = (l, .bufferFull, t) := by
    rw [readSlice, BufferedReads.firstSlice, take_left' hlen, hfind]
    dsimp only
    rw [if_neg (by rw [length_append]; omega), drop_left' hlen]
  rw [readLine, hslice]
  dsimp only
  rw [if_neg (fun h => by cases h.1), if_neg (by decide)]

theorem readOn_tooBig (h : buf.length > maxLen) (s : Bytes) : readOn maxLen buf s = tooBig := by
  cases s with
  | nil => rw [readOn, if_pos h]
  | cons b s =>
    cases s with
    | nil | cons next s => rw [readOn, if_pos h]

theorem readOn_other {b : UInt8} (hb : b ≠ 0x0d) (s : Bytes)
    (h : ¬ buf.length > maxLen) : readOn maxLen buf (b :: s) = readOn maxLen (buf ++ [b]) s := by
  cases s with
  | nil =>
    conv_lhs => rw [readOn, if_neg h, if_neg hb]
    rw [readOn]
  | cons next s => rw [readOn, if_neg h, if_neg hb]

theorem readOn_crlf (h : ¬ buf.length > maxLen) (rest : Bytes) :
    readOn maxLen buf (crlf ++ rest) = .ok (buf, rest) := by
  rw [crlf, cons_append, cons_append, nil_append, readOn, if_neg h, if_pos rfl, if_pos rfl]

theorem readOn_pair {next : UInt8} (hnext : next ≠ 0x0a) (s : Bytes)
    (h : ¬ buf.length > maxLen) : readOn maxLen buf (0x0d :: next :: s) = readOn maxLen (buf ++ [0x0d, next]) s := by
  rw [readOn, if_neg h, if_pos rfl, if_neg hnext]

theorem readOn_shorter {s x t : Bytes} (h : readOn maxLen buf s = .ok (x, t)) : t.length + 2 ≤ s.length := by
  induction hn : s.length using Nat.strong_induction_on generalizing buf s with
  | _ n ih =>
    by_cases hbuf : buf.length > maxLen
    · rw [readOn_tooBig hbuf] at h
      cases h
    cases s with
    | nil =>
      rw [readOn, if_neg hbuf] at h
      cases h
    | cons b s =>
      rw [length_cons] at hn
      by_cases hb : b = 0x0d
      · subst hb
        cases s with
        | nil =>
          rw [readOn, if_neg hbuf, if_pos rfl] at h
          cases h
        | cons next s =>
          rw [length_cons] at hn
          by_cases hnext : next = 0x0a
          · subst hnext
            rw [readOn, if_neg hbuf, if_pos rfl, if_pos rfl] at h
            cases h
            omega
          · rw [readOn_pair hnext s hbuf] at h
            have := ih s.length (by omega) h rfl
            omega
      · rw [readOn_other hb s hbuf] at h
        have := ih s.length (by omega) h rfl
        omega

/-- The carriage returns of a part of a line go in pairs with the byte behind them. -/
def paired : Bytes → Bool
  | [] => true
  | [b] => b ≠ 0x0d
  | b :: next :: s => if b = 0x0d then paired s else paired (next :: s)

theorem readOn_line (t : Bytes) (rest : Bytes) : ∀ buf : Bytes, ¬ crlf <:+: t →
    buf.length + t.length ≤ maxLen → readOn maxLen buf (t ++ (crlf ++ rest)) =
      if paired t then .ok (buf ++ t, rest) else readOn maxLen (buf ++ t ++ crlf) rest := by
  induction t using paired.induct with
  | case1 =>
    intro buf hno hlen
    rw [nil_append, readOn_crlf (by rw [length_nil] at hlen; omega), paired, if_pos rfl, append_nil]
  | case2 b =>
    intro buf hno hlen
    rw [length_singleton] at hlen
    by_cases hb : b = 0x0d
    · subst hb
      have hsplit : [0x0d] ++ (crlf ++ rest) = 0x0d :: 0x0d :: 0x0a :: rest := rfl
      have hjoin : buf ++ [0x0d, 0x0d] ++ [0x0a] = buf ++ [0x0d] ++ crlf := by
        rw [append_assoc, append_assoc]
        rfl
      rw [hsplit, readOn_pair (by decide) _ (by omega), if_neg (by decide), ← hjoin]
      by_cases hbig : (buf ++ [0x0d, 0x0d]).length > maxLen
      · rw [readOn_tooBig hbig, readOn_tooBig]
        rw [length_append]
        omega
      · exact readOn_other (by decide) rest hbig
    · have hpaired : paired [b] = true := decide_eq_true hb
      rw [singleton_append, readOn_other hb _ (by omega), readOn_crlf, if_pos hpaired]
      rw [length_append, length_singleton]
      omega
  | case3 next s ih =>
    intro buf hno hlen
    have hnext : next ≠ 0x0a := by
      rintro rfl
      exact hno ⟨[], s, rfl⟩
    have hrest : ¬ crlf <:+: s := fun h => hno (h.trans (suffix_append [0x0d, next] s).isInfix)
    rw [length_cons, length_cons] at hlen
    rw [cons_append, cons_append, readOn_pair hnext _ (by omega), paired, if_pos rfl, ih _ hrest,
      append_assoc buf]
    · rfl
    · rw [length_append]
      simp only [length_cons, length_nil]
      omega
  | case4 b next s hb ih =>
    intro buf hno hlen
    have hrest : ¬ crlf <:+: next :: s := fun h => hno (h.trans (suffix_cons b (next :: s)).isInfix)
    rw [length_cons] at hlen
    rw [cons_append, readOn_other hb _ (by omega), paired, if_neg hb, ih _ hrest, append_assoc buf]
    · rfl
    · rw [length_append, length_singleton]
      omega

theorem rtakeWhile_cons (p : UInt8 → Bool) (b : UInt8) (s : Bytes) :
    (b :: s).rtakeWhile p = if s.all p && p b then b :: s else s.rtakeWhile p := by
  rw [List.rtakeWhile, List.rtakeWhile, reverse_cons, takeWhile_append]
  simp only [Bool.and_eq_true, all_eq_true]
  by_cases hall : ∀ x ∈ s, p x
  · have htake : s.reverse.takeWhile p = s.reverse :=
      takeWhile_eq_self_iff.mpr fun x hx => hall x (mem_reverse.mp hx)
    rw [htake, if_pos rfl]
    by_cases hb : p b
    · rw [if_pos ⟨hall, hb⟩, takeWhile_cons_of_pos hb, takeWhile_nil, reverse_append, reverse_reverse]
      rfl
    · rw [if_neg fun h => hb h.2, takeWhile_cons_of_neg hb, append_nil]
  · have hshort : ¬ (s.reverse.takeWhile p).length = s.reverse.length := by
      intro hlen
      apply hall
      have htake : s.reverse.takeWhile p = s.reverse := (List.takeWhile_prefix p).eq_of_length hlen
      intro x hx
      exact takeWhile_eq_self_iff.mp htake x (mem_reverse.mpr hx)
    rw [if_neg hshort, if_neg fun h => hall h.1]

private theorem rtakeWhile_of_all {p : UInt8 → Bool} {s : Bytes} (h : ∀ x ∈ s, p x) : s.rtakeWhile p = s :=
  rtakeWhile_eq_self_iff.mpr h

theorem paired_iff (t : Bytes) : paired t = true ↔ Even (t.rtakeWhile (· = 0x0d)).length := by
  induction t using paired.induct with
  | case1 => exact iff_of_true rfl ⟨0, rfl⟩
  | case2 b =>
    rw [paired, decide_eq_true_eq, rtakeWhile_cons]
    simp only [Bool.and_eq_true, all_eq_true]
    by_cases hb : b = 0x0d
    · rw [if_pos ⟨fun x hx => absurd hx not_mem_nil, decide_eq_true hb⟩, length_singleton]
      exact iff_of_false (not_not_intro hb) (by decide)
    · rw [if_neg fun h => hb (of_decide_eq_true h.2)]
      exact iff_of_true hb ⟨0, rfl⟩
  | case3 next s ih =>
    rw [paired, if_pos rfl, ih, rtakeWhile_cons, rtakeWhile_cons]
    simp only [Bool.and_eq_true, all_eq_true]
    by_cases hall : ∀ x ∈ s, decide (x = (0x0d : UInt8)) = true
    · by_cases hnext : next = 0x0d
      · have hall' : ∀ x ∈ next :: s, decide (x = (0x0d : UInt8)) = true := by
          intro x hx
          rcases mem_cons.mp hx with rfl | hx
          · exact decide_eq_true hnext
          · exact hall x hx
        rw [if_pos ⟨hall', rfl⟩, rtakeWhile_of_all hall, length_cons, length_cons]
        exact (Nat.even_add (m := s.length) (n := 2)).trans (by simp) |>.symm
      · have hnot : ¬ ∀ x ∈ next :: s, decide (x = (0x0d : UInt8)) = true :=
          fun h => hnext (of_decide_eq_true (h next mem_cons_self))
        rw [if_neg fun h => hnot h.1, if_neg fun h => hnext (of_decide_eq_true h.2)]
    · have hnot : ¬ ∀ x ∈ next :: s, decide (x = (0x0d : UInt8)) = true :=
        fun h => hall fun x hx => h x (mem_cons_of_mem next hx)
      rw [if_neg fun h => hnot h.1, if_neg fun h => hall h.1]
  | case4 b next s hb ih =>
    rw [paired, if_neg hb, ih, rtakeWhile_cons _ b,
      if_neg fun h => hb (of_decide_eq_true ((Bool.and_eq_true _ _).mp h).2)]

private theorem split_lf (h : 0x0a ∈ l) :
    ∃ l₁ l₂, l = l₁ ++ 0x0a :: l₂ ∧ 0x0a ∉ l₁ ∧ (l.dropWhile (· ≠ 0x0a)).tail = l₂ := by
  induction l with
  | nil => cases h
  | cons b l ih =>
    by_cases hb : b = 0x0a
    · subst hb
      exact ⟨[], l, rfl, not_mem_nil, rfl⟩
    · have hmem : 0x0a ∈ l := (mem_cons.mp h).resolve_left (Ne.symm hb)
      obtain ⟨l₁, l₂, hl, hno, htail⟩ := ih hmem
      refine ⟨b :: l₁, l₂, by rw [hl]; rfl, ?_, ?_⟩
      · rw [mem_cons, not_or]
        exact ⟨Ne.symm hb, hno⟩
      · rw [dropWhile_cons_of_pos (p := fun x => decide (x ≠ 0x0a)) (decide_eq_true hb), htail]

theorem getLast?_ne_cr {l₁ l₂ : Bytes} (h : ¬ crlf <:+: l₁ ++ 0x0a :: l₂) : l₁.getLast? ≠ some 0x0d := by
  intro hlast
  obtain ⟨l, rfl⟩ := List.getLast?_eq_some_iff.mp hlast
  exact h ⟨l, l₂, by simp [crlf]⟩

theorem readLine_iff (hlen : l.length ≤ 65536) (hno : ¬ crlf <:+: l) (rest : Bytes) :
    (EndSeen l → readLine 65536 (l ++ (crlf ++ rest)) = .ok (l, rest)) ∧
    (¬ EndSeen l → ∀ x, readLine 65536 (l ++ (crlf ++ rest)) ≠ .ok (x, rest)) := by
  rw [EndSeen]
  by_cases hlf : 0x0a ∈ l
  · rw [if_pos hlf]
    obtain ⟨l₁, l₂, rfl, hl₁, htail⟩ := split_lf hlf
    rw [htail, ← paired_iff]
    rw [length_append, length_cons] at hlen
    have hno₂ : ¬ crlf <:+: l₂ := fun h => hno (h.trans ⟨l₁ ++ [0x0a], [], by simp⟩)
    have hread : readLine 65536 (l₁ ++ 0x0a :: l₂ ++ (crlf ++ rest)) = _ :=
      calc readLine 65536 (l₁ ++ 0x0a :: l₂ ++ (crlf ++ rest))
          = readLine 65536 (l₁ ++ 0x0a :: (l₂ ++ (crlf ++ rest))) := by rw [append_assoc, cons_append]
        _ = readOn 65536 (l₁ ++ [0x0a]) (l₂ ++ (crlf ++ rest)) :=
          readLine_lone hl₁ (show l₁.length < 65536 by omega) (getLast?_ne_cr hno) _ _
        _ = _ := readOn_line l₂ rest (l₁ ++ [0x0a]) hno₂ (by rw [length_append, length_singleton]; omega)
    rw [hread, append_assoc l₁, singleton_append]
    refine ⟨fun h => if_pos h, fun h x hx => ?_⟩
    rw [if_neg h] at hx
    have := readOn_shorter hx
    omega
  · rw [if_neg hlf]
    rcases Nat.lt_trichotomy l.length 65535 with hshort | hcut | hfull
    · have hread := readLine_fast hlf (show l.length + 2 ≤ 65536 by omega) hlen rest
      exact ⟨fun _ => hread, fun h => absurd (by omega) h⟩
    · refine ⟨fun h => absurd hcut h, fun _ x => ?_⟩
      have hsplit : l ++ (crlf ++ rest) = (l ++ [0x0d]) ++ 0x0a :: rest := by
        rw [append_assoc]
        rfl
      have hno' : (0x0a : UInt8) ∉ l ++ [0x0d] := by
        rw [mem_append, mem_singleton, not_or]
        exact ⟨hlf, by decide⟩
      have hlen' : (l ++ [(0x0d : UInt8)]).length = 65536 := by
        rw [length_append, length_singleton, hcut]
      rw [hsplit, readLine_full hno' hlen', readOn_other (by decide) rest (by omega), readOn_tooBig]
      · intro h
        cases h
      · rw [length_append, hlen', length_singleton]
        omega
    · have hlen' : l.length = 65536 := by omega
      have hread : readLine 65536 (l ++ (crlf ++ rest)) = .ok (l, rest) := by
        rw [readLine_full hlf hlen', readOn_crlf (by omega)]
      exact ⟨fun _ => hread, fun h => absurd (by omega) h⟩

private theorem readCommand_inline (hstar : l.head? ≠ some 0x2a) (maxMsgSize : ℤ) (rest : Bytes) :
    readCommand maxMsgSize (l ++ (crlf ++ rest)) = readInline (l ++ (crlf ++ rest)) := by
  cases l with
  | nil => rfl
  | cons b l =>
    rw [List.head?_cons, Ne, Option.some.injEq] at hstar
    rw [cons_append, readCommand, if_neg hstar]

private theorem readInline_iff (hlen : l.length ≤ 65536) (hno : ¬ crlf <:+: l) (rest : Bytes) :
    readInline (l ++ (crlf ++ rest)) = .ok (fields l, rest) ↔ EndSeen l := by
  obtain ⟨hok, hmiss⟩ := readLine_iff hlen hno rest
  constructor
  · intro h
    by_contra hnot
    have hne := hmiss hnot
    rw [readInline] at h
    cases hread : readLine 65536 (l ++ (crlf ++ rest)) with
    | error e =>
      rw [hread] at h
      cases h
    | ok p =>
      obtain ⟨x, t⟩ := p
      rw [hread] at h
      have ht : t = rest := congrArg Prod.snd (Except.ok.inj h)
      exact hne x (by rw [hread, ht])
  · intro h
    rw [readInline, hok h]
    rfl

theorem decimal_length_le {n : ℕ} (h : n ≤ 9223372036854775807) : (decimal n).length ≤ 19 := by
  rw [decimal_eq, DecimalText.decimal, length_map, Nat.length_toDigits_le_iff (by omega) (by omega)]
  omega

theorem atoi_decimal {n : ℕ} (h : n ≤ 9223372036854775807) : atoi (decimal n) = some (n : ℤ) := by
  have hread := atoi_signed (n := (n : ℤ)) (by omega) (by omega)
  rwa [signed, if_neg (by omega), Int.natAbs_natCast] at hread

private theorem readLine_decimal {n : ℕ} (h : n ≤ 9223372036854775807) (rest : Bytes) :
    readLine 65536 (decimal n ++ (crlf ++ rest)) = .ok (decimal n, rest) := by
  have hlen := decimal_length_le h
  exact readLine_fast (plain_decimal n).2 (show _ ≤ 65536 by omega) (by omega) rest

theorem readBulk_encode {effectiveMaxBulk : ℤ} (hmax : effectiveMaxBulk ≤ 9223372036854775807) {a : Bytes}
    (ha : (a.length : ℤ) ≤ effectiveMaxBulk) (rest : Bytes) :
    readBulk effectiveMaxBulk (encodeBulk a ++ rest) = .ok (a, rest) := by
  have hsplit : encodeBulk a ++ rest = 0x24 :: (decimal a.length ++ (crlf ++ (a ++ (crlf ++ rest)))) := by
    rw [encodeBulk]
    simp only [append_assoc]
    rfl
  rw [hsplit, readBulk, if_neg (not_not_intro rfl), readLine_decimal (by omega)]
  dsimp only [bind, Except.bind]
  rw [atoi_decimal (by omega)]
  dsimp only
  rw [if_neg (by omega), Int.toNat_natCast, if_neg (by rw [length_append]; omega), drop_left, take_left]
  rfl

theorem readBulks_encode {effectiveMaxBulk : ℤ} (hmax : effectiveMaxBulk ≤ 9223372036854775807) {args : List Bytes}
    (hargs : ∀ a ∈ args, (a.length : ℤ) ≤ effectiveMaxBulk) (rest : Bytes) :
    readBulks effectiveMaxBulk args.length (args.flatMap encodeBulk ++ rest) = .ok (args, rest) := by
  induction args with
  | nil => rfl
  | cons a args ih =>
    rw [flatMap_cons, append_assoc, length_cons, readBulks,
      readBulk_encode hmax (hargs a mem_cons_self)]
    dsimp only [bind, Except.bind]
    rw [ih fun a ha => hargs a (mem_cons_of_mem _ ha)]
    rfl

theorem readCommand_encode {maxMsgSize : ℤ} (hmax : maxMsgSize ≤ 9223372036854775807) {args : List Bytes}
    (hcount : args.length ≤ 1048576) (hargs : ∀ a ∈ args, (a.length : ℤ) ≤ maxBulk maxMsgSize) (rest : Bytes) :
    readCommand maxMsgSize (encodeCommand args ++ rest) = .ok (args, rest) := by
  have hbulk : maxBulk maxMsgSize ≤ 9223372036854775807 := by
    rw [maxBulk]
    split
    · decide
    · exact hmax
  have hsplit : encodeCommand args ++ rest =
      (0x2a :: decimal args.length) ++ (crlf ++ (args.flatMap encodeBulk ++ rest)) := by
    rw [encodeCommand]
    simp only [append_assoc]
    rfl
  have hlf : (0x0a : UInt8) ∉ 0x2a :: decimal args.length := by
    rw [mem_cons, not_or]
    exact ⟨by decide, (plain_decimal _).2⟩
  have hlen := decimal_length_le (n := args.length) (by omega)
  have hshort : (0x2a :: decimal args.length).length ≤ 20 := by
    rw [length_cons]
    omega
  have hline := readLine_fast hlf (show _ ≤ 65536 by omega) (show _ ≤ 65536 by omega) (args.flatMap encodeBulk ++ rest)
  rw [hsplit, cons_append, readCommand, if_pos rfl, ← cons_append, readMultibulk, hline]
  dsimp only [bind, Except.bind]
  rw [List.head?_cons, if_neg (not_not_intro rfl), drop_one, tail_cons, atoi_decimal (by omega)]
  dsimp only
  rw [if_neg (by omega), Int.toNat_natCast]
  exact readBulks_encode hbulk hargs rest

theorem readCommands_encode {maxMsgSize : ℤ} (hmax : maxMsgSize ≤ 9223372036854775807) {cmds : List (List Bytes)}
    (hcmds : ∀ args ∈ cmds, args.length ≤ 1048576 ∧ ∀ a ∈ args, (a.length : ℤ) ≤ maxBulk maxMsgSize) (rest : Bytes)
    {b : ConnReader} (hb : b.stream = cmds.flatMap encodeCommand ++ rest) :
    flat (ConnReader.readCommands maxMsgSize cmds.length b) = .ok (cmds, rest) := by
  induction cmds generalizing b with
  | nil =>
    rw [flatMap_nil, nil_append] at hb
    rw [length_nil, ConnReader.readCommands, flat, ← hb]
    rfl
  | cons args cmds ih =>
    rw [flatMap_cons, append_assoc] at hb
    obtain ⟨hcount, hargs⟩ := hcmds args mem_cons_self
    have hread := readCommand_flat maxMsgSize b
    rw [hb, readCommand_encode hmax hcount hargs] at hread
    rw [length_cons, ConnReader.readCommands]
    cases hcmd : ConnReader.readCommand maxMsgSize b with
    | error e =>
      rw [hcmd] at hread
      cases hread
    | ok p =>
      obtain ⟨args', b'⟩ := p
      rw [hcmd] at hread
      have hargs' : args' = args := congrArg Prod.fst (Except.ok.inj hread)
      have hb' : b'.stream = cmds.flatMap encodeCommand ++ rest := congrArg Prod.snd (Except.ok.inj hread)
      have hrest := ih (fun args ha => hcmds args (mem_cons_of_mem _ ha)) hb'
      have hbind := flat_bind hrest
        (f := fun q => (.ok (args' :: q.1, q.2) : Except ReadError (List (List Bytes) × ConnReader)))
        (g := fun q => .ok (args' :: q.1, q.2)) fun _ _ => rfl
      rw [hargs'] at hbind
      rw [hargs']
      exact hbind

/-- For every way in which the bytes arrive: a pipeline of arrays is read back, and the words of a line
are read and the line consumed exactly when its end is seen. -/
theorem readCommand_inverts_iff {maxMsgSize : ℤ} (hmax : maxMsgSize ≤ 9223372036854775807) (b : ConnReader)
    (rest : Bytes) :
    (∀ cmds, (∀ args ∈ cmds, args.length ≤ 1048576 ∧ ∀ a ∈ args, (a.length : ℤ) ≤ maxBulk maxMsgSize) →
      b.stream = cmds.flatMap encodeCommand ++ rest →
        flat (ConnReader.readCommands maxMsgSize cmds.length b) = .ok (cmds, rest)) ∧
    ∀ l : Bytes, l.length ≤ 65536 → ¬ crlf <:+: l → l.head? ≠ some 0x2a → b.stream = l ++ (crlf ++ rest) →
      (flat (ConnReader.readCommand maxMsgSize b) = .ok (fields l, rest) ↔ EndSeen l) := by
  constructor
  · intro cmds hcmds hb
    exact readCommands_encode hmax hcmds rest hb
  · intro l hlen hno hstar hb
    rw [readCommand_flat, hb, readCommand_inline hstar, readInline_iff hlen hno]

def fresh (pieces : List Bytes) : ConnReader := ⟨[], pieces, Nat.zero_le _⟩

def twoCommands : ConnReader :=
  fresh [ascii "*1\r\n$4\r\nPI", ascii "NG\r\n*2\r\n$3\r", ascii "\nGET\r\n$1\r\nk\r\n"]

private theorem twoCommands_stream :
    twoCommands.stream = [[ascii "PING"], [ascii "GET", ascii "k"]].flatMap encodeCommand ++ [] := by decide

/-- The two commands are read back, and so is a line in two pieces. -/
theorem twoCommands_read :
    flat (ConnReader.readCommands 1048576 [[ascii "PING"], [ascii "GET", ascii "k"]].length twoCommands) =
      .ok ([[ascii "PING"], [ascii "GET", ascii "k"]], []) ∧
    flat (ConnReader.readCommand 1048576 (fresh [ascii "GET k\r", ascii "\n"])) = .ok (fields (ascii "GET k"), []) := by
  have hmax : (1048576 : ℤ) ≤ 9223372036854775807 := by decide
  have hcmds : ∀ args ∈ [[ascii "PING"], [ascii "GET", ascii "k"]],
      args.length ≤ 1048576 ∧ ∀ a ∈ args, (a.length : ℤ) ≤ maxBulk 1048576 := by
    intro args hargs
    rcases mem_pair.mp hargs with rfl | rfl
    · decide
    · decide
  have hline : EndSeen (ascii "GET k") := by
    rw [EndSeen, if_neg (by decide)]
    decide
  exact ⟨(readCommand_inverts_iff hmax twoCommands []).1 _ hcmds twoCommands_stream,
    ((readCommand_inverts_iff hmax (fresh [ascii "GET k\r", ascii "\n"]) []).2 (ascii "GET k") (by decide) (by decide)
      (by decide) (by decide)).mpr hline⟩

/-- Behind a line feed the two carriage returns are taken as a pair, and the end of the line is missed. -/
theorem inline_end_missed : ¬ crlf <:+: ascii "PING\nx\r" ∧
    (fresh [ascii "PING\nx\r\r\n"]).stream = ascii "PING\nx\r" ++ (crlf ++ []) ∧
    fields (ascii "PING\nx\r") = [ascii "PING", ascii "x"] ∧
    flat (ConnReader.readCommand 1048576 (fresh [ascii "PING\nx\r\r\n"])) = .error .io := by
  have hno : ¬ crlf <:+: ascii "PING\nx\r" := by decide +kernel
  have hstream : (fresh [ascii "PING\nx\r\r\n"]).stream = ascii "PING\nx\r" ++ (crlf ++ []) := by decide
  have hfields : fields (ascii "PING\nx\r") = [ascii "PING", ascii "x"] := by decide
  refine ⟨hno, hstream, hfields, ?_⟩
  rw [readCommand_flat]
  decide

end MonsterMQ.Redis
