import MonsterMQ.ArchiveTables
import MonsterMQ.TopicFilters
import Mathlib.Data.List.Induction

/-!
# What the pattern of a topic filter selects

`Reaches` says on the bytes of the filter which topics the pattern selects. A wildcard of the pattern stands
for one or more levels, where `+` stands for one level and `#` for any number of them.
-/

namespace MonsterMQ.Archive

open LittleEndian PeerLink Auth SqlSelects Topics List

inductive ArchiveType where
  | sqlite
  | postgres
  deriving DecidableEq, Repr

namespace ArchiveType

/-- `LIKE`: SQLite does not tell the letters' cases apart, PostgreSQL knows the backslash. -/
def like : ArchiveType → Bytes → Bytes → Bool
  | .sqlite => sqliteLike
  | .postgres => SqlSelects.like (fun c d => c = d) true

/-- Two bytes that `LIKE` takes for the same. -/
def same : ArchiveType → UInt8 → UInt8 → Bool
  | .sqlite => sameFold
  | .postgres => fun c d => c = d

def escapes : ArchiveType → Bool
  | .sqlite => false
  | .postgres => true

def Letter (type : ArchiveType) (c : UInt8) : Prop :=
  c ≠ 0x2B ∧ c ≠ 0x23 ∧ c ≠ 0x25 ∧ c ≠ 0x5F ∧ (type.escapes = true → c ≠ 0x5C)

end ArchiveType

/-- The topic is the filter with any text, levels included, in place of each `+`, `#` and `%`, with a
character in place of each `_`, and otherwise with the same letters: in SQLite up to their case, in
PostgreSQL without the backslash before a letter. -/
inductive Reaches (type : ArchiveType) : Bytes → Bytes → Prop where
  | done : Reaches type [] []
  | text {c : UInt8} {filter topic : Bytes} (u : Bytes) : c = 0x2B ∨ c = 0x23 ∨ c = 0x25 →
      CharStart topic → Reaches type filter topic → Reaches type (c :: filter) (u ++ topic)
  | character {filter topic : Bytes} (d : UInt8) : Reaches type filter (topic.dropWhile continues) →
      Reaches type (0x5F :: filter) (d :: topic)
  | escaped {filter topic : Bytes} (c : UInt8) : type.escapes = true → Reaches type filter topic →
      Reaches type (0x5C :: c :: filter) ((if c = 0x23 ∨ c = 0x2B then 0x25 else c) :: topic)
  | letter {c d : UInt8} {filter topic : Bytes} : type.Letter c → type.same c d = true →
      Reaches type filter topic → Reaches type (c :: filter) (d :: topic)

section Patterns

variable {type : ArchiveType} {filter topic : Bytes} {c : UInt8}

theorem like_eq (type : ArchiveType) : type.like = SqlSelects.like type.same type.escapes := by
  cases type with
  | sqlite => rfl
  | postgres => rfl

theorem likePattern_cons (c : UInt8) (filter : Bytes) : likePattern (c :: filter) =
    (if c = 0x23 ∨ c = 0x2B then 0x25 else c) :: likePattern filter := rfl

theorem reaches_text_iff (hc : c = 0x2B ∨ c = 0x23 ∨ c = 0x25) : Reaches type (c :: filter) topic ↔
    ∃ u t, topic = u ++ t ∧ CharStart t ∧ Reaches type filter t := by
  constructor
  · intro h
    cases h with
    | text u _ hstart h => exact ⟨u, _, rfl, hstart, h⟩
    | character d h | escaped e he h => exact absurd hc (by decide)
    | letter hl _ _ =>
      rcases hc with rfl | rfl | rfl
      · exact absurd rfl hl.1
      · exact absurd rfl hl.2.1
      · exact absurd rfl hl.2.2.1
  · rintro ⟨u, t, rfl, hstart, h⟩
    exact .text u hc hstart h

private theorem reaches_character_iff : Reaches type (0x5F :: filter) topic ↔
    ∃ d t, topic = d :: t ∧ Reaches type filter (t.dropWhile continues) := by
  constructor
  · intro h
    cases h with
    | text u hc _ _ => exact absurd hc (by decide)
    | character d h => exact ⟨d, _, rfl, h⟩
    | letter hl _ _ => exact absurd rfl hl.2.2.2.1
  · rintro ⟨d, t, rfl, h⟩
    exact .character d h

theorem reaches_letter_iff (hl : type.Letter c) : Reaches type (c :: filter) topic ↔
    ∃ d t, topic = d :: t ∧ type.same c d = true ∧ Reaches type filter t := by
  constructor
  · intro h
    cases h with
    | text u hc _ _ =>
      rcases hc with rfl | rfl | rfl
      · exact absurd rfl hl.1
      · exact absurd rfl hl.2.1
      · exact absurd rfl hl.2.2.1
    | character d h => exact absurd rfl hl.2.2.2.1
    | escaped e he h => exact absurd rfl (hl.2.2.2.2 he)
    | letter _ hs h => exact ⟨_, _, rfl, hs, h⟩
  · rintro ⟨d, t, rfl, hs, h⟩
    exact .letter hl hs h

/-- One byte of the filter, given what the rest of its pattern selects. -/
theorem like_cons_iff (ih : ∀ t, type.like (likePattern filter) t = true ↔ Reaches type filter t)
    (hc : type.escapes = true → c ≠ 0x5C) :
    type.like (likePattern (c :: filter)) topic = true ↔ Reaches type (c :: filter) topic := by
  rw [like_eq] at ih ⊢
  rw [likePattern_cons]
  by_cases htext : c = 0x2B ∨ c = 0x23 ∨ c = 0x25
  · have hbyte : (if c = 0x23 ∨ c = 0x2B then 0x25 else c) = 0x25 := by
      rcases htext with rfl | rfl | rfl
      · rfl
      · rfl
      · rfl
    rw [hbyte, like_percent_cons, any_eq_true, reaches_text_iff htext]
    constructor
    · rintro ⟨t, hmem, hlike⟩
      obtain ⟨u, rfl, hstart⟩ := mem_rests_iff.mp hmem
      exact ⟨u, t, rfl, hstart, (ih t).mp hlike⟩
    · rintro ⟨u, t, rfl, hstart, h⟩
      exact ⟨t, mem_rests_iff.mpr ⟨u, rfl, hstart⟩, (ih t).mpr h⟩
  · simp only [not_or] at htext
    rw [if_neg (not_or.mpr ⟨htext.2.1, htext.1⟩)]
    by_cases hone : c = 0x5F
    · subst hone
      rw [reaches_character_iff]
      cases topic with
      | nil =>
        rw [like_empty _ (by decide)]
        simp
      | cons d t =>
        rw [like_underscore_cons, ih]
        simp
    · have hl : type.Letter c := ⟨htext.1, htext.2.1, htext.2.2, hone, hc⟩
      rw [reaches_letter_iff hl]
      cases topic with
      | nil =>
        rw [like_empty _ htext.2.2]
        simp
      | cons d t =>
        have hescape : (type.escapes && c = 0x5C) = false := by
          rw [Bool.and_eq_false_imp]
          intro he
          exact decide_eq_false (hc he)
        rw [like_letter_cons _ htext.2.2 hone hescape, Bool.and_eq_true, ih]
        simp

theorem like_backslash_iff (he : type.escapes = true)
    (ih : ∀ t, type.like (likePattern filter) t = true ↔ Reaches type filter t) :
    type.like (likePattern (0x5C :: c :: filter)) topic = true ↔
      Reaches type (0x5C :: c :: filter) topic := by
  obtain rfl : type = .postgres := by
    cases type with
    | sqlite => cases he
    | postgres => rfl
  rw [like_eq] at ih ⊢
  rw [likePattern_cons, likePattern_cons, if_neg (by decide)]
  constructor
  · intro h
    cases topic with
    | nil => cases h
    | cons d t =>
      have h := (Bool.and_eq_true _ _).mp h
      rw [← of_decide_eq_true h.1]
      exact .escaped c rfl ((ih t).mp h.2)
  · intro h
    cases h with
    | text u hc _ _ => exact absurd hc (by decide)
    | escaped e _ h => exact (Bool.and_eq_true _ _).mpr ⟨decide_eq_true rfl, (ih _).mpr h⟩
    | letter hl _ _ => exact absurd rfl (hl.2.2.2.2 rfl)

/-- The pattern of a filter selects the topics that the filter reaches. -/
theorem like_likePattern_iff (type : ArchiveType) (filter topic : Bytes) :
    type.like (likePattern filter) topic = true ↔ Reaches type filter topic := by
  have hnil : ∀ t, type.like (likePattern []) t = true ↔ Reaches type [] t := by
    intro t
    have hlike : type.like (likePattern []) t = t.isEmpty := by
      rw [like_eq]
      rfl
    rw [hlike, List.isEmpty_iff]
    constructor
    · rintro rfl
      exact .done
    · intro h
      cases h with
      | done => rfl
  induction filter using List.twoStepInduction generalizing topic with
  | nil => exact hnil topic
  | singleton c =>
    by_cases hc : type.escapes = true ∧ c = 0x5C
    · obtain ⟨he, rfl⟩ := hc
      have hlike : type.like (likePattern [0x5C]) topic = false := by
        cases type with
        | sqlite => cases he
        | postgres =>
          cases topic with
          | nil => rfl
          | cons d t => rfl
      rw [hlike]
      constructor
      · intro h
        cases h
      · intro h
        cases h with
        | text u hc _ _ => exact absurd hc (by decide)
        | letter hl _ _ => exact absurd rfl (hl.2.2.2.2 he)
    · exact like_cons_iff hnil fun he hb => hc ⟨he, hb⟩
  | cons_cons c e filter ih ih' =>
    by_cases hc : type.escapes = true ∧ c = 0x5C
    · obtain ⟨he, rfl⟩ := hc
      exact like_backslash_iff he ih
    · exact like_cons_iff (ih' e) fun he hb => hc ⟨he, hb⟩

instance decidableReaches (type : ArchiveType) (filter topic : Bytes) :
    Decidable (Reaches type filter topic) :=
  decidable_of_iff (type.like (likePattern filter) topic = true) (like_likePattern_iff type filter topic)

end Patterns

/-- Level by level, a wildcard stands for one or more levels and the others for the same ones. -/
inductive Stretches (type : ArchiveType) : List Bytes → List Bytes → Prop where
  | done : Stretches type [] []
  | wildcard {l : Bytes} {fs ts : List Bytes} (us : List Bytes) : l = plusLevel ∨ l = hashLevel →
      us ≠ [] → Stretches type fs ts → Stretches type (l :: fs) (us ++ ts)
  | level {l t : Bytes} {fs ts : List Bytes} : Forall₂ (fun c d => type.same c d = true) l t →
      Stretches type fs ts → Stretches type (l :: fs) (t :: ts)

def PlainLevel (type : ArchiveType) (l : Bytes) : Prop :=
  slashByte ∉ l ∧ (l = plusLevel ∨ l = hashLevel ∨ ∀ c ∈ l, type.Letter c)

section Levels

variable {type : ArchiveType}

theorem same_slash {c d : UInt8} (h : type.same c d = true) : c = slashByte ↔ d = slashByte := by
  cases type with
  | sqlite =>
    rw [ArchiveType.same, sameFold, decide_eq_true_eq] at h
    rw [slashByte]
    grind
  | postgres => rw [of_decide_eq_true h]

private theorem letter_slash : type.Letter slashByte := by
  refine ⟨by decide, by decide, by decide, by decide, fun _ => by decide⟩

variable {l rest topic : Bytes}

theorem slash_not_mem_of_same {t : Bytes} (h : Forall₂ (fun c d => type.same c d = true) l t)
    (hl : slashByte ∉ l) : slashByte ∉ t := by
  induction h with
  | nil => exact hl
  | cons hs _ ih =>
    rw [mem_cons, not_or] at hl ⊢
    exact ⟨fun heq => hl.1 ((same_slash hs).mpr heq.symm).symm, ih hl.2⟩

theorem reaches_letters_iff (hl : ∀ c ∈ l, type.Letter c) :
    Reaches type (l ++ rest) topic ↔ ∃ t u, topic = t ++ u ∧
      Forall₂ (fun c d => type.same c d = true) l t ∧ Reaches type rest u := by
  induction l generalizing topic with
  | nil => simp
  | cons c l ih =>
    rw [forall_mem_cons] at hl
    rw [cons_append, reaches_letter_iff hl.1]
    constructor
    · rintro ⟨d, t, rfl, hs, h⟩
      obtain ⟨t, u, rfl, hsame, h⟩ := (ih hl.2).mp h
      exact ⟨d :: t, u, rfl, .cons hs hsame, h⟩
    · rintro ⟨t, u, rfl, hall, h⟩
      obtain ⟨d, t, hs, hsame, rfl⟩ := forall₂_cons_left_iff.mp hall
      exact ⟨d, t ++ u, rfl, hs, (ih hl.2).mpr ⟨t, u, rfl, hsame, h⟩⟩

theorem reaches_slash_iff : Reaches type (slashByte :: rest) topic ↔
    ∃ t, topic = slashByte :: t ∧ Reaches type rest t := by
  rw [reaches_letter_iff letter_slash]
  constructor
  · rintro ⟨d, t, rfl, hs, h⟩
    rw [(same_slash hs).mp rfl]
    exact ⟨t, rfl, h⟩
  · rintro ⟨t, rfl, h⟩
    refine ⟨slashByte, t, rfl, ?_, h⟩
    cases type with
    | sqlite => rfl
    | postgres => rfl

variable {fs ts : List Bytes}

theorem Stretches.ne_nil (h : Stretches type fs ts) (hne : fs ≠ []) : ts ≠ [] := by
  cases h with
  | done => exact absurd rfl hne
  | wildcard us _ hus _ => exact append_ne_nil_of_left_ne_nil hus _
  | level _ _ => exact cons_ne_nil _ _

/-- A wildcard before further levels. -/
theorem reaches_wildcard_iff (hw : l = plusLevel ∨ l = hashLevel)
    (hne : fs ≠ []) (ih : ∀ t, Reaches type rest t ↔ Stretches type fs (levels t)) :
    Reaches type (l ++ slashByte :: rest) topic ↔ Stretches type (l :: fs) (levels topic) := by
  have hbyte : ∃ c, l = [c] ∧ (c = 0x2B ∨ c = 0x23 ∨ c = 0x25) := by
    rcases hw with rfl | rfl
    · exact ⟨0x2B, rfl, .inl rfl⟩
    · exact ⟨0x23, rfl, .inr (.inl rfl)⟩
  have hstretch : Stretches type (l :: fs) (levels topic) ↔
      ∃ us ts, us ≠ [] ∧ levels topic = us ++ ts ∧ Stretches type fs ts := by
    constructor
    · intro h
      cases hts : levels topic with
      | nil => exact absurd hts (levels_ne_nil topic)
      | cons t ts =>
        rw [hts] at h
        generalize hall : t :: ts = all at h
        cases h with
        | wildcard us _ hus h => exact ⟨us, _, hus, rfl, h⟩
        | level _ h => exact ⟨[_], _, cons_ne_nil _ _, rfl, h⟩
    · rintro ⟨us, ts, hus, heq, h⟩
      rw [heq]
      exact .wildcard us hw hus h
  obtain ⟨c, rfl, hc⟩ := hbyte
  rw [hstretch, singleton_append, reaches_text_iff hc]
  constructor
  · rintro ⟨u, s, rfl, -, hs⟩
    obtain ⟨t, rfl, h⟩ := reaches_slash_iff.mp hs
    exact ⟨levels u, levels t, levels_ne_nil u, levels_append u t, (ih t).mp h⟩
  · rintro ⟨us, ts, hus, heq, h⟩
    have hts := h.ne_nil hne
    have hslash : ∀ l ∈ ts, slashByte ∉ l := fun l hl =>
      slash_not_mem_levels (heq ▸ mem_append_right _ hl)
    refine ⟨joinLevels us, slashByte :: joinLevels ts, ?_, ?_, ?_⟩
    · rw [← joinLevels_append hus hts, ← heq, joinLevels_levels]
    · rintro d ⟨⟩
      rfl
    · rw [← levels_joinLevels hts hslash] at h
      exact reaches_slash_iff.mpr ⟨_, rfl, (ih _).mpr h⟩

theorem stretches_letters_iff (hl : ∀ c ∈ l, type.Letter c) :
    Stretches type (l :: fs) ts ↔ ∃ t us, ts = t :: us ∧
      Forall₂ (fun c d => type.same c d = true) l t ∧ Stretches type fs us := by
  constructor
  · intro h
    cases h with
    | wildcard us hw _ _ =>
      rcases hw with rfl | rfl
      · exact absurd rfl (hl 0x2B (by decide)).1
      · exact absurd rfl (hl 0x23 (by decide)).2.1
    | level hsame h => exact ⟨_, _, rfl, hsame, h⟩
  · rintro ⟨t, us, rfl, hsame, h⟩
    exact .level hsame h

/-- A level of letters before further levels. -/
theorem reaches_level_iff (hslash : slashByte ∉ l)
    (hl : ∀ c ∈ l, type.Letter c) (hne : fs ≠ [])
    (ih : ∀ t, Reaches type rest t ↔ Stretches type fs (levels t)) :
    Reaches type (l ++ slashByte :: rest) topic ↔ Stretches type (l :: fs) (levels topic) := by
  rw [reaches_letters_iff hl, stretches_letters_iff hl]
  constructor
  · rintro ⟨t, u, rfl, hsame, hu⟩
    obtain ⟨u, rfl, h⟩ := reaches_slash_iff.mp hu
    exact ⟨t, levels u, levels_append_slash u (slash_not_mem_of_same hsame hslash), hsame, (ih u).mp h⟩
  · rintro ⟨t, us, heq, hsame, h⟩
    have hus := h.ne_nil hne
    have hslash : ∀ l ∈ us, slashByte ∉ l := fun l hl =>
      slash_not_mem_levels (heq ▸ mem_cons_of_mem _ hl)
    refine ⟨t, slashByte :: joinLevels us, ?_, hsame, ?_⟩
    · have hjoin : joinLevels ([t] ++ us) = t ++ slashByte :: joinLevels us :=
        joinLevels_append (cons_ne_nil t []) hus
      rw [← hjoin, singleton_append, ← heq, joinLevels_levels]
    · rw [← levels_joinLevels hus hslash] at h
      exact reaches_slash_iff.mpr ⟨_, rfl, (ih _).mpr h⟩

theorem reaches_last_iff (hl : PlainLevel type l) :
    Reaches type l topic ↔ Stretches type [l] (levels topic) := by
  have hwild : ∀ c, c = 0x2B ∨ c = 0x23 ∨ c = 0x25 → Reaches type [c] topic := by
    intro c hc
    have hall := Reaches.text topic hc (fun d hd => by cases hd) (@Reaches.done type)
    rwa [append_nil] at hall
  have hstretch : ∀ l, l = plusLevel ∨ l = hashLevel → Stretches type [l] (levels topic) := by
    intro l hw
    have hall := Stretches.wildcard (levels topic) hw (levels_ne_nil topic) (@Stretches.done type)
    rwa [append_nil] at hall
  obtain ⟨hslash, rfl | rfl | hletters⟩ := hl
  · exact iff_of_true (hwild 0x2B (.inl rfl)) (hstretch _ (.inl rfl))
  · exact iff_of_true (hwild 0x23 (.inr (.inl rfl))) (hstretch _ (.inr rfl))
  · rw [← append_nil l, reaches_letters_iff hletters, append_nil, stretches_letters_iff hletters]
    constructor
    · rintro ⟨t, u, rfl, hsame, h⟩
      cases h with
      | done =>
        rw [append_nil, levels_of_slash_not_mem (slash_not_mem_of_same hsame hslash)]
        exact ⟨t, [], rfl, hsame, .done⟩
    · rintro ⟨t, us, heq, hsame, h⟩
      cases h with
      | done =>
        refine ⟨t, [], ?_, hsame, .done⟩
        rw [append_nil, ← joinLevels_levels topic, heq]
        rfl

/-- A filter whose levels are wildcards or plain reaches, level by level, what it stretches to. -/
theorem reaches_iff_stretches {filter : Bytes} (h : ∀ l ∈ levels filter, PlainLevel type l) :
    Reaches type filter topic ↔ Stretches type (levels filter) (levels topic) := by
  have hmain : ∀ fs : List Bytes, fs ≠ [] → (∀ l ∈ fs, PlainLevel type l) → ∀ topic,
      Reaches type (joinLevels fs) topic ↔ Stretches type fs (levels topic) := by
    intro fs
    induction fs with
    | nil => exact fun hne => absurd rfl hne
    | cons l fs ih =>
      intro _ hplain topic
      rw [forall_mem_cons] at hplain
      cases fs with
      | nil => exact reaches_last_iff hplain.1
      | cons m ls =>
        have hne : m :: ls ≠ [] := cons_ne_nil m ls
        have ih := ih hne hplain.2
        obtain ⟨hslash, hp | hh | hletters⟩ := hplain.1
        · exact reaches_wildcard_iff (.inl hp) hne ih
        · exact reaches_wildcard_iff (.inr hh) hne ih
        · exact reaches_level_iff hslash hletters hne ih
  have hfilter := hmain (levels filter) (levels_ne_nil filter) h topic
  rwa [joinLevels_levels] at hfilter

theorem Stretches.length_le (h : Stretches type fs ts) : fs.length ≤ ts.length := by
  induction h with
  | done => exact Nat.le_refl _
  | wildcard us _ hus _ ih =>
    have hpos := length_pos_iff.mpr hus
    rw [length_cons, length_append]
    omega
  | level _ _ ih => exact Nat.succ_le_succ ih

private theorem stretches_of_covers (h : Covers fs ts) (hle : fs.length ≤ ts.length) :
    Stretches type fs ts := by
  induction h with
  | done => exact .done
  | rest ts =>
    have hall := Stretches.wildcard ts (.inr rfl) (length_pos_iff.mp hle) (@Stretches.done type)
    rwa [append_nil] at hall
  | any t _ ih => exact .wildcard [t] (.inl rfl) (cons_ne_nil t []) (ih (Nat.le_of_succ_le_succ hle))
  | same l _ ih =>
    refine .level (forall₂_same.mpr fun c _ => ?_) (ih (Nat.le_of_succ_le_succ hle))
    cases type with
    | sqlite | postgres => exact decide_eq_true rfl

/-- The pattern misses, of the topics that match, the parent level of a `#` and no other. -/
theorem reaches_iff_of_matches {filter : Bytes} (h : ∀ l ∈ levels filter, PlainLevel type l)
    (hm : Matches filter topic) :
    Reaches type filter topic ↔ (levels filter).length ≤ (levels topic).length := by
  rw [reaches_iff_stretches h]
  exact ⟨Stretches.length_le, stretches_of_covers hm.1⟩

/-- Without a `+` and with the letters' cases told apart, the pattern selects no other topics but
those that start with `$`. -/
theorem matches_of_reaches {filter : Bytes} (h : ∀ l ∈ levels filter, PlainLevel .postgres l)
    (hw : WholeLevels (levels filter)) (hplus : plusLevel ∉ levels filter)
    (hdollar : topic.head? ≠ some dollarByte) (hr : Reaches .postgres filter topic) :
    Matches filter topic := by
  refine ⟨?_, fun hd => absurd hd hdollar⟩
  have hstretch := (reaches_iff_stretches h).mp hr
  have hlast := hw.hashLast
  generalize levels filter = fs at hstretch hlast hplus
  generalize levels topic = ts at hstretch
  induction hstretch with
  | done => exact .done
  | wildcard us hwild _ hrest _ =>
    rcases hwild with rfl | rfl
    · exact absurd mem_cons_self hplus
    · rw [hlast.1 rfl]
      exact .rest _
  | @level l t fs ts hsame _ ih =>
    have heq : l = t := forall₂_eq_eq_eq ▸ hsame.imp fun _ _ hs => of_decide_eq_true hs
    rw [heq]
    exact .same t (ih hlast.2 fun hmem => hplus (mem_cons_of_mem _ hmem))

end Levels

end MonsterMQ.Archive
