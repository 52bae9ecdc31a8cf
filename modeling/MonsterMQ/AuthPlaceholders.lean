import MonsterMQ.AuthAcl

/-!
# What a placeholder grants

A rule pattern read with its placeholders as literal texts, and when the rule covers exactly
the topics of that reading. The bytes a name puts into the pattern are marked, so that only the
pattern's own `/`, `+` and `#` separate levels and stand for others.
-/

namespace MonsterMQ.Auth

open LittleEndian PeerLink List

/-- A byte of a pattern, and whether a name put it there. -/
abbrev Marked := UInt8 × Bool

def named (s : Bytes) : List Marked := s.map (·, true)

@[grind =] def erase (s : List Marked) : Bytes := s.map Prod.fst

/-- The pattern with both placeholders replaced at once by the marked names. -/
def literal (username clientID : Bytes) : Bytes → List Marked
  | [] => []
  | [x] => [(x, false)]
  | x :: y :: s =>
    if x = percentByte ∧ y = userByte then named username ++ literal username clientID s
    else if x = percentByte ∧ y = clientByte then named clientID ++ literal username clientID s
    else (x, false) :: literal username clientID (y :: s)

/-- The levels between the separators of the pattern itself. -/
@[grind =] def markedLevels : List Marked → List (List Marked)
  | [] => [[]]
  | b :: bs =>
    if b = (slashByte, false) then [] :: markedLevels bs
    else match markedLevels bs with
      | [] => [[b]]
      | l :: ls => (b :: l) :: ls

inductive Level where
  | rest
  | any
  | text (s : Bytes)
  deriving DecidableEq, Repr

@[grind =] def readLevel (p : Bytes) : Level :=
  if p = hashLevel then .rest else if p = plusLevel then .any else .text p

@[grind =] def readMarked (l : List Marked) : Level :=
  if l = [(0x23, false)] then .rest else if l = [(0x2B, false)] then .any else .text (erase l)

@[grind =] def covered : List Level → List Bytes → Bool
  | [], tt => tt.isEmpty
  | .rest :: _, _ => true
  | .any :: ls, tt => match tt with
    | [] => false
    | t :: tt => t ≠ hashLevel && covered ls tt
  | .text s :: ls, tt => match tt with
    | [] => false
    | t :: tt => s = t && covered ls tt

/-- A leading wildcard does not cover topics that start with `$`. -/
@[grind =] def reading (ls : List Level) (tt : List Bytes) : Bool :=
  if (tt.headD []).head? = some dollarByte && (ls.head? = some .any || ls.head? = some .rest) then false
  else covered ls tt

/-- The topic matches the pattern of the rule read with each placeholder as a literal text. -/
def AclRule.literallyCovers (r : AclRule) (username clientID topic : Bytes) : Bool :=
  reading ((markedLevels (literal username clientID r.topicPattern)).map readMarked) (levels topic)

def Concrete (topic : Bytes) : Prop := 0x23 ∉ topic ∧ 0x2B ∉ topic
deriving Decidable

theorem levelsMatch_eq_covered (pp tt : List Bytes) : levelsMatch pp tt = covered (pp.map readLevel) tt := by
  induction pp generalizing tt with
  | nil => rfl
  | cons p pp ih =>
    rw [levelsMatch.eq_def]
    by_cases hh : p = hashLevel
    · simp [hh, readLevel, covered]
    · by_cases hp : p = plusLevel
      · cases tt with
        | nil => simp [hp, readLevel, covered, hashLevel, plusLevel]
        | cons t tt =>
          have hne : plusLevel ≠ hashLevel := by decide
          by_cases ht : t = hashLevel <;> simp [hp, readLevel, covered, hne, ht, ih]
      · cases tt with
        | nil => simp [hh, hp, readLevel, covered]
        | cons t tt =>
          have hr : readLevel p = .text p := by simp [readLevel, hh, hp]
          by_cases ht : p = t
          · subst ht
            simp [hh, hp, covered, hr, ih]
          · simp [hh, hp, covered, hr, ht]

private theorem topicMatches_eq_reading (pattern topic : Bytes) :
    topicMatches pattern topic = reading ((levels pattern).map readLevel) (levels topic) := by
  unfold topicMatches reading
  simp only [levelsMatch_eq_covered]
  rcases hls : levels pattern with _ | ⟨p, pp⟩
  · exact absurd hls (levels_ne_nil pattern)
  · by_cases hh : p = hashLevel
    · simp [hh, readLevel, hashLevel, dollarByte, plusLevel]
    · by_cases hp : p = plusLevel
      · simp [hp, readLevel, hashLevel, dollarByte, plusLevel]
      · simp [hh, hp, readLevel]

/-- The pattern with the username in place of `%u`; nothing stands for a `%c` of its own. -/
def usernameFilled (username : Bytes) : Bytes → List (Option UInt8)
  | [] => []
  | [x] => [some x]
  | x :: y :: s =>
    if x = percentByte ∧ y = userByte then username.map some ++ usernameFilled username s
    else if x = percentByte ∧ y = clientByte then none :: usernameFilled username s
    else some x :: usernameFilled username (y :: s)

/-- No `%c` arises from the bytes of the username. -/
def NoneFormed : List (Option UInt8) → Prop
  | [] => True
  | [_] => True
  | x :: y :: s => ¬ (x = some percentByte ∧ y = some clientByte) ∧ NoneFormed (y :: s)

instance : (s : List (Option UInt8)) → Decidable (NoneFormed s)
  | [] => .isTrue trivial
  | [_] => .isTrue trivial
  | _ :: y :: s =>
    have := instDecidableNoneFormed (y :: s)
    inferInstanceAs (Decidable (_ ∧ _))

/-- The text with `client` at the placeholders. -/
@[grind =] def filled (client : Bytes) (s : List (Option UInt8)) : Bytes :=
  s.flatMap fun
    | none => client
    | some b => [b]

theorem filled_map_some (client s : Bytes) : filled client (s.map some) = s := by
  induction s with
  | nil => rfl
  | cons b s ih => simpa [filled] using ih

theorem filled_append (client : Bytes) (s s' : List (Option UInt8)) :
    filled client (s ++ s') = filled client s ++ filled client s' := by
  simp [filled]

theorem filled_none (client : Bytes) (s : List (Option UInt8)) :
    filled client (none :: s) = client ++ filled client s := rfl

theorem filled_some (client : Bytes) (b : UInt8) (s : List (Option UInt8)) :
    filled client (some b :: s) = b :: filled client s := rfl

variable {b : UInt8}

theorem replaceAll_cons_ne {a x : UInt8} (new s : Bytes) (h : x ≠ a) :
    replaceAll a b new (x :: s) = x :: replaceAll a b new s := by
  cases s with
  | nil => rfl
  | cons y s => rw [replaceAll, if_neg fun hx => h hx.1]

theorem replaceAll_username (username pattern : Bytes) : replaceAll percentByte userByte username pattern =
      filled [percentByte, clientByte] (usernameFilled username pattern) := by
  fun_induction usernameFilled username pattern with
  | case1 => rfl
  | case2 _ => rfl
  | case3 x y s h ih => rw [replaceAll, if_pos h, filled_append, filled_map_some, ih]
  | case4 x y s hu h ih =>
    obtain ⟨rfl, rfl⟩ := h
    rw [replaceAll, if_neg hu, replaceAll_cons_ne _ _ (by decide), ih, filled_none]
    rfl
  | case5 x y s hu hc ih => rw [replaceAll, if_neg hu, ih, filled_some]

theorem erase_named_append (s : Bytes) (l : List Marked) : erase (named s ++ l) = s ++ erase l := by
  simp [erase, named, Function.comp_def]

theorem erase_literal (username clientID pattern : Bytes) : erase (literal username clientID pattern) =
      filled clientID (usernameFilled username pattern) := by
  fun_induction usernameFilled username pattern with
  | case1 => rfl
  | case2 _ => rfl
  | case3 x y s h ih =>
    rw [literal, if_pos h, filled_append, filled_map_some, erase_named_append, ih]
  | case4 x y s hu h ih =>
    rw [literal, if_neg hu, if_pos h, erase_named_append, filled_none, ih]
  | case5 x y s hu hc ih =>
    rw [literal, if_neg hu, if_neg hc, filled_some, ← ih]
    rfl

/-- Replacing `%c` touches the pattern's own placeholders only. -/
theorem replaceAll_clientID {s : List (Option UInt8)} (clientID : Bytes) (h : NoneFormed s) :
    replaceAll percentByte clientByte clientID (filled [percentByte, clientByte] s) =
      filled clientID s := by
  induction s with
  | nil => rfl
  | cons x s ih =>
    have ih' := ih (by
      cases s with
      | nil => trivial
      | cons y s => exact h.2)
    cases x with
    | none =>
      rw [filled_none, filled_none, ← ih']
      simp [replaceAll]
    | some b =>
      rw [filled_some, filled_some, ← ih']
      by_cases hb : b = percentByte
      · subst hb
        cases s with
        | nil => rfl
        | cons y s =>
          cases y with
          | none =>
            rw [filled_none]
            exact if_neg (by decide)
          | some y =>
            rw [filled_some]
            have hy : y ≠ clientByte := fun hy => h.1 ⟨rfl, by rw [hy]⟩
            exact if_neg fun hx => hy hx.2
      · exact replaceAll_cons_ne _ _ hb

variable {s : Bytes}

private theorem replaceAll_of_not_contains {a : UInt8} (new : Bytes)
    (h : containsPair a b s = false) : replaceAll a b new s = s := by
  fun_induction containsPair a b s with
  | case1 => rfl
  | case2 _ => rfl
  | case3 x y s ih =>
    simp only [Bool.or_eq_false_iff, decide_eq_false_iff_not] at h
    rw [replaceAll, if_neg h.1, ih h.2]

theorem replaceAll_of_not_mem {a : UInt8} (new : Bytes) (h : a ∉ s) :
    replaceAll a b new s = s := by
  induction s with
  | nil => rfl
  | cons x s ih =>
    simp only [mem_cons, not_or] at h
    rw [replaceAll_cons_ne _ _ (Ne.symm h.1), ih h.2]

theorem resolvePattern_eq {username clientID pattern : Bytes}
    (hf : NoneFormed (usernameFilled username pattern)) (hc : clientID ≠ []) :
    resolvePattern pattern username clientID =
      some (erase (literal username clientID pattern)) := by
  have key : replaceAll percentByte clientByte clientID
      (replaceAll percentByte userByte username pattern) =
        erase (literal username clientID pattern) := by
    rw [replaceAll_username, replaceAll_clientID clientID hf, erase_literal]
  unfold resolvePattern
  split
  · rename_i hp
    have hp' : percentByte ∉ pattern := by simpa using hp
    rw [replaceAll_of_not_mem _ hp', replaceAll_of_not_mem _ hp'] at key
    exact congrArg some key
  · simp only
    split
    · rw [key]
    · rename_i hn
      rw [replaceAll_of_not_contains _ (by simpa using hn)] at key
      exact congrArg some key

/-- Splitting the text splits each level of the reading at the separators its names hold. -/
theorem levels_erase (s : List Marked) :
    levels (erase s) = (markedLevels s).flatMap fun l => levels (erase l) := by
  induction s with
  | nil => rfl
  | cons b s ih =>
    by_cases hb : b = (slashByte, false)
    · subst hb
      rw [markedLevels, if_pos rfl, flatMap_cons, ← ih]
      simp [erase, levels]
    · rcases hls : markedLevels s with _ | ⟨l, ls⟩
      · exact absurd (ih.trans (by rw [hls]; rfl)) (levels_ne_nil _)
      · rw [hls, flatMap_cons] at ih
        rw [markedLevels, if_neg hb, hls, flatMap_cons]
        have hcons : ∀ r : List Marked, erase (b :: r) = b.1 :: erase r := fun _ => rfl
        rw [hcons, hcons, levels, levels, ih]
        split
        · rfl
        · rcases hl : levels (erase l) with _ | ⟨m, ms⟩
          · exact absurd hl (levels_ne_nil _)
          · rfl

variable {l : List Marked}

theorem not_mem_markedLevels {s : List Marked} (hl : l ∈ markedLevels s) : (slashByte, false) ∉ l := by
  induction s generalizing l with
  | nil => simp_all [markedLevels]
  | cons b s ih =>
    rw [markedLevels] at hl
    split at hl
    · rcases mem_cons.mp hl with rfl | hl
      · simp
      · exact ih hl
    · rename_i hb
      split at hl
      · simp only [mem_singleton] at hl
        subst hl
        simpa using Ne.symm hb
      · rename_i m ms hms
        rw [hms] at ih
        rcases mem_cons.mp hl with rfl | hl
        · simp only [mem_cons, not_or]
          exact ⟨Ne.symm hb, ih mem_cons_self⟩
        · exact ih (mem_cons_of_mem _ hl)

theorem slash_not_mem_levels {l : Bytes} (hl : l ∈ levels s) : slashByte ∉ l := by
  induction s generalizing l with
  | nil => simp_all [levels]
  | cons b s ih =>
    rw [levels] at hl
    split at hl
    · rcases mem_cons.mp hl with rfl | hl
      · simp
      · exact ih hl
    · rename_i hb
      split at hl
      · simp only [mem_singleton] at hl
        subst hl
        simpa using Ne.symm hb
      · rename_i m ms hms
        rw [hms] at ih
        rcases mem_cons.mp hl with rfl | hl
        · simp only [mem_cons, not_or]
          exact ⟨Ne.symm hb, ih mem_cons_self⟩
        · exact ih (mem_cons_of_mem _ hl)

theorem mem_of_mem_levels {l : Bytes} (hl : l ∈ levels s) (hb : b ∈ l) : b ∈ s := by
  induction s generalizing l with
  | nil => simp_all [levels]
  | cons c s ih =>
    rw [levels] at hl
    split at hl
    · rcases mem_cons.mp hl with rfl | hl
      · simp at hb
      · exact mem_cons_of_mem _ (ih hl hb)
    · split at hl
      · simp only [mem_singleton] at hl
        subst hl
        rw [mem_singleton.mp hb]
        exact mem_cons_self
      · rename_i m ms hms
        rw [hms] at ih
        rcases mem_cons.mp hl with rfl | hl
        · rcases mem_cons.mp hb with rfl | hb
          · exact mem_cons_self
          · exact mem_cons_of_mem _ (ih mem_cons_self hb)
        · exact mem_cons_of_mem _ (ih (mem_cons_of_mem _ hl) hb)

theorem levels_of_slash_not_mem (h : slashByte ∉ s) : levels s = [s] := by
  induction s with
  | nil => rfl
  | cons b s ih =>
    simp only [mem_cons, not_or] at h
    rw [levels, if_neg (Ne.symm h.1), ih h.2]

theorem levels_append (a b : Bytes) : levels (a ++ slashByte :: b) = levels a ++ levels b := by
  induction a with
  | nil =>
    have hslash : levels (slashByte :: b) = [] :: levels b := if_pos rfl
    exact hslash
  | cons x a ih =>
    rw [cons_append, levels]
    by_cases hx : x = slashByte
    · rw [if_pos hx, ih, levels, if_pos hx, cons_append]
    · rw [if_neg hx, ih, levels, if_neg hx]
      rcases ha : levels a with _ | ⟨l, ls⟩
      · exact absurd ha (levels_ne_nil a)
      · rfl

theorem levels_append_slash {l : Bytes} (s : Bytes) (h : slashByte ∉ l) :
    levels (l ++ slashByte :: s) = l :: levels s := by
  rw [levels_append, levels_of_slash_not_mem h]
  rfl

theorem joinLevels_append {us ts : List Bytes} (hu : us ≠ []) (ht : ts ≠ []) :
    joinLevels (us ++ ts) = joinLevels us ++ slashByte :: joinLevels ts := by
  induction us with
  | nil => exact absurd rfl hu
  | cons u us ih =>
    obtain ⟨t, ts, rfl⟩ := exists_cons_of_ne_nil ht
    cases us with
    | nil => rfl
    | cons v vs =>
      have ih := ih (cons_ne_nil _ _)
      rw [cons_append, cons_append, joinLevels, ← cons_append, ih, joinLevels, append_assoc, cons_append]

theorem levels_joinLevels {ls : List Bytes} (hne : ls ≠ []) (h : ∀ l ∈ ls, slashByte ∉ l) :
    levels (joinLevels ls) = ls := by
  induction ls with
  | nil => exact absurd rfl hne
  | cons l ls ih =>
    have hl := h l mem_cons_self
    cases ls with
    | nil => exact levels_of_slash_not_mem hl
    | cons m ms =>
      rw [joinLevels, levels_append_slash _ hl,
        ih (cons_ne_nil _ _) fun k hk => h k (mem_cons_of_mem _ hk)]

/-- Up to the pattern's own `#`, no name holds a separator or makes up a level that is a
wildcard. -/
def NamesInert : List (List Marked) → Prop
  | [] => True
  | l :: ls =>
    l = [(0x23, false)] ∨
      (slashByte, true) ∉ l ∧ l ≠ [(0x2B, true)] ∧ l ≠ [(0x23, true)] ∧ NamesInert ls

instance : (ls : List (List Marked)) → Decidable (NamesInert ls)
  | [] => .isTrue trivial
  | _ :: ls =>
    have := instDecidableNamesInert ls
    inferInstanceAs (Decidable (_ ∨ _))

/-- A level before any `#` mixes a wildcard with other bytes, so that no topic matches. -/
def Barren : List Bytes → Prop
  | [] => False
  | l :: ls => l ≠ hashLevel ∧ ((l ≠ plusLevel ∧ (0x23 ∈ l ∨ 0x2B ∈ l)) ∨ Barren ls)

instance : (ls : List Bytes) → Decidable (Barren ls)
  | [] => .isFalse id
  | _ :: ls =>
    have := instDecidableBarren ls
    inferInstanceAs (Decidable (_ ∧ _))

private theorem readLevel_erase (hp : l ≠ [(0x2B, true)]) (hh : l ≠ [(0x23, true)]) :
    readLevel (erase l) = readMarked l := by
  rcases l with _ | ⟨⟨b, m⟩, _ | ⟨c, l⟩⟩
  · rfl
  · cases m with
    | false => simp [readLevel, readMarked, erase, hashLevel, plusLevel]
    | true =>
      have hh' : b ≠ 0x23 := by simpa using hh
      have hp' : b ≠ 0x2B := by simpa using hp
      simp [readLevel, readMarked, erase, hashLevel, plusLevel, hh', hp']
  · simp [readLevel, readMarked, erase, hashLevel, plusLevel]

private theorem slash_not_mem_erase (hown : (slashByte, false) ∉ l)
    (hname : (slashByte, true) ∉ l) : slashByte ∉ erase l := by
  intro h
  obtain ⟨⟨b, m⟩, hm, hb⟩ := mem_map.mp h
  simp only at hb
  subst hb
  cases m with
  | false => exact hown hm
  | true => exact hname hm

theorem levels_erase_of_inert (hown : (slashByte, false) ∉ l) (h : l = [(0x23, false)] ∨
      (slashByte, true) ∉ l ∧ l ≠ [(0x2B, true)] ∧ l ≠ [(0x23, true)]) :
    (levels (erase l)).map readLevel = [readMarked l] := by
  rcases h with rfl | ⟨hs, hp, hh⟩
  · rfl
  · rw [levels_of_slash_not_mem (slash_not_mem_erase hown hs), map_singleton,
      readLevel_erase hp hh]

theorem covered_of_inert {ls : List (List Marked)} (hown : ∀ l ∈ ls, (slashByte, false) ∉ l)
    (h : NamesInert ls) (tt : List Bytes) :
    covered ((ls.flatMap fun l => levels (erase l)).map readLevel) tt =
      covered (ls.map readMarked) tt := by
  induction ls generalizing tt with
  | nil => rfl
  | cons l ls ih =>
    have hl := hown l mem_cons_self
    rw [flatMap_cons, map_append, map_cons]
    rcases h with rfl | ⟨hs, hp, hh, hrest⟩
    · rfl
    · rw [levels_erase_of_inert hl (.inr ⟨hs, hp, hh⟩)]
      have ih' := ih (fun k hk => hown k (mem_cons_of_mem _ hk)) hrest
      rw [singleton_append]
      cases readMarked l with
      | rest => rfl
      | any | text s =>
        cases tt with
        | nil => rfl
        | cons t tt => simp only [covered, ih']

theorem reading_of_inert {s : List Marked} (h : NamesInert (markedLevels s)) (tt : List Bytes) :
    reading ((levels (erase s)).map readLevel) tt = reading ((markedLevels s).map readMarked) tt := by
  have hown : ∀ l ∈ markedLevels s, (slashByte, false) ∉ l := fun l hl => not_mem_markedLevels hl
  have hhead : ((levels (erase s)).map readLevel).head? = ((markedLevels s).map readMarked).head? := by
    rw [levels_erase]
    rcases hls : markedLevels s with _ | ⟨l, ls⟩
    · rfl
    · rw [hls] at h hown
      rw [flatMap_cons, map_append, levels_erase_of_inert (hown l mem_cons_self)]
      · rfl
      · rcases h with h | ⟨hs, hp, hh, -⟩
        · exact .inl h
        · exact .inr ⟨hs, hp, hh⟩
  rw [reading, reading, hhead, levels_erase, covered_of_inert hown h]

def ConcreteLevels (tt : List Bytes) : Prop := ∀ t ∈ tt, slashByte ∉ t ∧ 0x23 ∉ t ∧ 0x2B ∉ t

theorem concreteLevels_levels {topic : Bytes} (h : Concrete topic) : ConcreteLevels (levels topic) := by
  intro t ht
  exact ⟨slash_not_mem_levels ht, fun hb => h.1 (mem_of_mem_levels ht hb),
    fun hb => h.2 (mem_of_mem_levels ht hb)⟩

variable {tt pp : List Bytes}

theorem ConcreteLevels.tail {t : Bytes} (h : ConcreteLevels (t :: tt)) :
    ConcreteLevels tt := fun s hs => h s (mem_cons_of_mem _ hs)

theorem not_covered_of_not_inert {ls : List (List Marked)} (h : ¬ NamesInert ls)
    (ht : ConcreteLevels tt) : covered (ls.map readMarked) tt = false := by
  induction ls generalizing tt with
  | nil => exact absurd trivial h
  | cons l ls ih =>
    simp only [NamesInert, not_or] at h
    obtain ⟨hrest, h⟩ := h
    rw [map_cons]
    cases tt with
    | nil =>
      by_cases hany : l = [(0x2B, false)]
      · simp [hany, readMarked, covered]
      · simp [readMarked, hrest, hany, covered]
    | cons t tt =>
      by_cases hany : l = [(0x2B, false)]
      · subst hany
        have hn : ¬ NamesInert ls := fun hi => h ⟨by decide, by decide, by decide, hi⟩
        simp [readMarked, covered, ih hn ht.tail]
      · have hr : readMarked l = .text (erase l) := by simp [readMarked, hrest, hany]
        rw [hr, covered, Bool.and_eq_false_iff, decide_eq_false_iff_not]
        by_cases hn : NamesInert ls
        · refine .inl ?_
          rintro rfl
          obtain ⟨h1, h2, h3⟩ := ht _ mem_cons_self
          refine h ⟨fun hs => h1 (mem_map.mpr ⟨_, hs, rfl⟩), ?_, ?_, hn⟩
          · rintro rfl
            exact h3 (by decide)
          · rintro rfl
            exact h2 (by decide)
        · exact .inr (ih hn ht.tail)

theorem not_covered_of_barren (h : Barren pp)
    (ht : ConcreteLevels tt) : covered (pp.map readLevel) tt = false := by
  induction pp generalizing tt with
  | nil => exact h.elim
  | cons p pp ih =>
    obtain ⟨hh, h⟩ := h
    rw [map_cons]
    by_cases hp : p = plusLevel
    · have hr : readLevel p = .any := by simp [readLevel, hp, plusLevel, hashLevel]
      rcases h with ⟨hne, -⟩ | h
      · exact absurd hp hne
      · cases tt with
        | nil => simp [hr, covered]
        | cons t tt => simp [hr, covered, ih h ht.tail]
    · have hr : readLevel p = .text p := by simp [readLevel, hh, hp]
      cases tt with
      | nil => simp [hr, covered]
      | cons t tt =>
        rw [hr, covered, Bool.and_eq_false_iff, decide_eq_false_iff_not]
        rcases h with ⟨-, hw⟩ | h
        · refine .inl ?_
          rintro rfl
          obtain ⟨-, h2, h3⟩ := ht _ mem_cons_self
          exact hw.elim h2 h3
        · exact .inr (ih h ht.tail)

/-- A topic the levels of a pattern cover: `x` for each wildcard. -/
@[grind =] def sample : List Bytes → List Bytes
  | [] => []
  | p :: pp =>
    if p = hashLevel then [[0x78]]
    else if p = plusLevel then [0x78] :: sample pp
    else p :: sample pp

private theorem covered_sample (pp : List Bytes) : covered (pp.map readLevel) (sample pp) = true := by
  induction pp with
  | nil => rfl
  | cons p pp ih =>
    by_cases hh : p = hashLevel
    · simp [hh, readLevel, covered]
    · by_cases hp : p = plusLevel
      · have hne : plusLevel ≠ hashLevel := by decide
        have hx : [0x78] ≠ hashLevel := by decide
        simp [hp, hne, hx, readLevel, sample, covered, ih]
      · simp [hh, hp, readLevel, sample, covered, ih]

private theorem sample_ne_nil (h : pp ≠ []) : sample pp ≠ [] := by
  cases pp with
  | nil => exact absurd rfl h
  | cons p pp =>
    rw [sample]
    split
    · simp
    · split <;> simp

theorem concrete_sample (hs : ∀ p ∈ pp, slashByte ∉ p) (h : ¬ Barren pp) : ConcreteLevels (sample pp) := by
  have hx : slashByte ∉ [(0x78 : UInt8)] ∧ 0x23 ∉ [(0x78 : UInt8)] ∧ 0x2B ∉ [(0x78 : UInt8)] := by
    decide
  induction pp with
  | nil => simp [sample, ConcreteLevels]
  | cons p pp ih =>
    rw [sample]
    split
    · intro t ht
      rw [mem_singleton.mp ht]
      exact hx
    · rename_i hh
      simp only [Barren, not_and, not_or] at h
      obtain ⟨h, hrest⟩ := h hh
      have ih' := ih (fun q hq => hs q (mem_cons_of_mem _ hq)) hrest
      split
      · intro t ht
        rcases mem_cons.mp ht with rfl | ht
        · exact hx
        · exact ih' t ht
      · rename_i hp
        intro t ht
        rcases mem_cons.mp ht with rfl | ht
        · exact ⟨hs _ mem_cons_self, h hp⟩
        · exact ih' t ht

private theorem reading_sample (pp : List Bytes) : reading (pp.map readLevel) (sample pp) = true := by
  have hc := covered_sample pp
  rw [reading, if_neg]
  · exact hc
  · cases pp with
    | nil => simp [sample]
    | cons p pp =>
      by_cases hh : p = hashLevel
      · simp [sample, hh, dollarByte]
      · by_cases hp : p = plusLevel
        · simp [sample, hp, dollarByte, plusLevel, hashLevel]
        · simp [readLevel, hh, hp]

theorem concrete_joinLevels {ls : List Bytes} (h : ConcreteLevels ls) : Concrete (joinLevels ls) := by
  induction ls with
  | nil => exact ⟨by simp [joinLevels], by simp [joinLevels]⟩
  | cons l ls ih =>
    obtain ⟨-, h2, h3⟩ := h l mem_cons_self
    cases ls with
    | nil => exact ⟨h2, h3⟩
    | cons m ms =>
      obtain ⟨i2, i3⟩ := ih h.tail
      rw [joinLevels]
      constructor
      · simp [h2, i2, slashByte]
      · simp [h3, i3, slashByte]

/-- The names put into the pattern stand for themselves, or the pattern covers no topic with
them either way. -/
def AclRule.NamesHarmless (r : AclRule) (username clientID : Bytes) : Prop :=
  let s := literal username clientID r.topicPattern
  NamesInert (markedLevels s) ∨ Barren (levels (erase s))
deriving Decidable

section Rules

variable {r : AclRule} {username clientID : Bytes}

theorem covers_eq_reading (hc : clientID ≠ [])
    (hf : NoneFormed (usernameFilled username r.topicPattern)) (topic : Bytes) :
    r.covers username clientID topic =
      reading ((levels (erase (literal username clientID r.topicPattern))).map readLevel)
        (levels topic) := by
  simp only [AclRule.covers, resolvePattern_eq hf hc, topicMatches_eq_reading]

theorem literallyCovers_of_not_inert
    (h : ¬ NamesInert (markedLevels (literal username clientID r.topicPattern)))
    {topic : Bytes} (ht : Concrete topic) : r.literallyCovers username clientID topic = false := by
  rw [AclRule.literallyCovers, reading]
  split
  · rfl
  · exact not_covered_of_not_inert h (concreteLevels_levels ht)

section

variable (hc : clientID ≠ [])
include hc

private theorem covers_of_barren (hf : NoneFormed (usernameFilled username r.topicPattern))
    (h : Barren (levels (erase (literal username clientID r.topicPattern))))
    {topic : Bytes} (ht : Concrete topic) : r.covers username clientID topic = false := by
  rw [covers_eq_reading hc hf, reading]
  split
  · rfl
  · exact not_covered_of_barren h (concreteLevels_levels ht)

private theorem covers_eq_of_inert (hf : NoneFormed (usernameFilled username r.topicPattern))
    (h : NamesInert (markedLevels (literal username clientID r.topicPattern))) (topic : Bytes) :
    r.covers username clientID topic = r.literallyCovers username clientID topic := by
  rw [covers_eq_reading hc hf, reading_of_inert h]
  rfl

private theorem covers_eq_of_harmless (hf : NoneFormed (usernameFilled username r.topicPattern))
    (h : r.NamesHarmless username clientID) {topic : Bytes} (ht : Concrete topic) :
    r.covers username clientID topic = r.literallyCovers username clientID topic := by
  by_cases hi : NamesInert (markedLevels (literal username clientID r.topicPattern))
  · exact covers_eq_of_inert hc hf hi topic
  · rw [literallyCovers_of_not_inert hi ht]
    exact covers_of_barren hc hf (h.resolve_left hi) ht

theorem exists_covers_of_not_harmless (hf : NoneFormed (usernameFilled username r.topicPattern))
    (h : ¬ r.NamesHarmless username clientID) :
    ∃ topic, Concrete topic ∧ r.covers username clientID topic = true ∧
      r.literallyCovers username clientID topic = false := by
  simp only [AclRule.NamesHarmless, not_or] at h
  obtain ⟨hi, hb⟩ := h
  set pp := levels (erase (literal username clientID r.topicPattern)) with hpp
  have hcl : ConcreteLevels (sample pp) := concrete_sample (fun p hp => slash_not_mem_levels hp) hb
  have hl : levels (joinLevels (sample pp)) = sample pp :=
    levels_joinLevels (sample_ne_nil (levels_ne_nil _)) fun l hl => (hcl l hl).1
  have ht := concrete_joinLevels hcl
  refine ⟨joinLevels (sample pp), ht, ?_, literallyCovers_of_not_inert hi ht⟩
  rw [covers_eq_reading hc hf, hl]
  exact reading_sample pp

end

/-- Unless the username completes a `%c`, a rule covers exactly the concrete topics of its
literal reading when the names are harmless, and only then. -/
theorem covers_literally_iff (hc : clientID ≠ []) (hf : NoneFormed (usernameFilled username r.topicPattern)) :
    (∀ topic, Concrete topic →
      (r.covers username clientID topic = true ↔ r.literallyCovers username clientID topic = true)) ↔
      r.NamesHarmless username clientID := by
  constructor
  · intro h
    by_contra hn
    obtain ⟨topic, ht, hcov, hlit⟩ := exists_covers_of_not_harmless hc hf hn
    have := (h topic ht).mp hcov
    rw [hlit] at this
    cases this
  · intro h topic ht
    rw [covers_eq_of_harmless hc hf h ht]

end Rules

def devicesRule : AclRule := ⟨ascii "devices/%c/#", true, true⟩

theorem devicesRule_sensor : ascii "sensor-42" ≠ [] ∧
      ∀ topic, Concrete topic →
        (devicesRule.covers (ascii "alice") (ascii "sensor-42") topic = true ↔
          devicesRule.literallyCovers (ascii "alice") (ascii "sensor-42") topic = true) :=
  ⟨by decide, (covers_literally_iff (by decide) (by decide)).mpr (by decide)⟩

/-- A client that calls itself `+` reaches the topics of every other device. -/
theorem devicesRule_plus_covers_others :
    ¬ ∀ (r : AclRule) (username clientID topic : Bytes), clientID ≠ [] → Concrete topic →
      (r.covers username clientID topic = true ↔
        r.literallyCovers username clientID topic = true) := by
  intro h
  have hc : devicesRule.covers (ascii "alice") (ascii "+") (ascii "devices/sensor-99/data") = true := by
    decide
  have hl := (h devicesRule (ascii "alice") (ascii "+") (ascii "devices/sensor-99/data")
    (by decide) (by decide)).mp hc
  revert hl
  decide

end MonsterMQ.Auth
