import MonsterMQ.TopicFilters
import MonsterMQ.Utf8

/-!
# Names and filters of MQTT

The texts that MQTT allows as topic names and topic filters, level by level: whether a text
is valid and how long it is can be read off its levels.
-/

namespace MonsterMQ.Topics

open LittleEndian PeerLink Auth List

/-- `validName` of `internal/virtualtrees/rules.go`: what every name and filter of MQTT is. -/
def validName (s : Bytes) : Bool :=
  s ≠ [] && s.length ≤ 65535 && Utf8.valid s && !s.contains 0

structure ValidName (s : Bytes) : Prop where
  nonempty : s ≠ []
  length : s.length ≤ 65535
  utf8 : Utf8.valid s = true
  noNul : 0 ∉ s

variable {s : Bytes}

theorem validName_iff : validName s = true ↔ ValidName s := by
  rw [validName]
  simp only [Bool.and_eq_true, decide_eq_true_eq, Bool.not_eq_true', contains_eq_mem,
    decide_eq_false_iff_not]
  constructor
  · rintro ⟨⟨⟨hne, hlen⟩, hutf⟩, hnul⟩
    exact ⟨hne, hlen, hutf, hnul⟩
  · intro h
    exact ⟨⟨⟨h.nonempty, h.length⟩, h.utf8⟩, h.noNul⟩

structure ValidTopic (topic : Bytes) : Prop where
  name : ValidName topic
  concrete : Concrete topic

structure ValidFilter (filter : Bytes) : Prop where
  name : ValidName filter
  whole : WholeLevels (levels filter)

def levelsSize (ls : List Bytes) : ℕ := (ls.map fun l => l.length + 1).sum

@[simp] theorem levelsSize_cons (l : Bytes) (ls : List Bytes) :
    levelsSize (l :: ls) = l.length + 1 + levelsSize ls := rfl

variable {ls : List Bytes}

theorem joinLevels_length (h : ls ≠ []) : (joinLevels ls).length + 1 = levelsSize ls := by
  induction ls with
  | nil => exact absurd rfl h
  | cons l ls ih =>
    cases ls with
    | nil => rfl
    | cons m ms =>
      have ih := ih (cons_ne_nil _ _)
      rw [joinLevels, length_append, length_cons, levelsSize_cons, ← ih]
      omega

theorem levels_length (s : Bytes) : s.length + 1 = levelsSize (levels s) := by
  rw [← joinLevels_length (levels_ne_nil s), joinLevels_levels]

def TextLevel (l : Bytes) : Prop := Utf8.valid l = true ∧ 0 ∉ l

theorem text_joinLevels (h : ∀ l ∈ ls, TextLevel l) : TextLevel (joinLevels ls) := by
  induction ls with
  | nil => exact ⟨rfl, not_mem_nil⟩
  | cons l ls ih =>
    have hl := h l mem_cons_self
    cases ls with
    | nil => exact hl
    | cons m ms =>
      have hm := ih fun k hk => h k (mem_cons_of_mem _ hk)
      rw [joinLevels]
      constructor
      · rw [Utf8.valid_append_ascii (by decide), hl.1, hm.1]
        rfl
      · simp only [mem_append, mem_cons, not_or]
        exact ⟨hl.2, by decide, hm.2⟩

private theorem text_of_joinLevels (h : TextLevel (joinLevels ls)) : ∀ l ∈ ls, TextLevel l := by
  induction ls with
  | nil => exact fun l hl => absurd hl not_mem_nil
  | cons l ls ih =>
    cases ls with
    | nil =>
      intro k hk
      rw [mem_singleton.mp hk]
      exact h
    | cons m ms =>
      rw [joinLevels] at h
      obtain ⟨hutf, hnul⟩ := h
      rw [Utf8.valid_append_ascii (by decide), Bool.and_eq_true] at hutf
      simp only [mem_append, mem_cons, not_or] at hnul
      intro k hk
      rcases mem_cons.mp hk with rfl | hk
      · exact ⟨hutf.1, hnul.1⟩
      · exact ih ⟨hutf.2, hnul.2.2⟩ k hk

theorem ValidName.text (h : ValidName s) : ∀ l ∈ levels s, TextLevel l := by
  apply text_of_joinLevels
  rw [joinLevels_levels]
  exact ⟨h.utf8, h.noNul⟩

private theorem joinLevels_ne_nil (h : ls ≠ []) (hone : ls ≠ [[]]) : joinLevels ls ≠ [] := by
  cases ls with
  | nil => exact absurd rfl h
  | cons l ls =>
    cases ls with
    | nil =>
      intro hnil
      rw [show l = [] from hnil] at hone
      exact hone rfl
    | cons m ms =>
      rw [joinLevels]
      exact append_ne_nil_of_right_ne_nil _ (cons_ne_nil _ _)

theorem levels_ne_singleton (h : s ≠ []) : levels s ≠ [[]] := by
  intro heq
  rw [← joinLevels_levels s, heq] at h
  exact h rfl

theorem validTopic_joinLevels (hne : ls ≠ []) (hone : ls ≠ [[]])
    (hsize : levelsSize ls ≤ 65536) (htext : ∀ l ∈ ls, TextLevel l) (hc : ConcreteLevels ls) :
    ValidTopic (joinLevels ls) where
  name := {
    nonempty := joinLevels_ne_nil hne hone
    length := by
      have := joinLevels_length hne
      omega
    utf8 := (text_joinLevels htext).1
    noNul := (text_joinLevels htext).2 }
  concrete := concrete_joinLevels hc

theorem covers_cons_iff {p t : Bytes} {ps ts : List Bytes} (hp : p ≠ hashLevel) :
    Covers (p :: ps) (t :: ts) ↔ (p = plusLevel ∨ p = t) ∧ Covers ps ts := by
  constructor
  · intro h
    cases h with
    | rest => exact absurd rfl hp
    | any _ h => exact ⟨.inl rfl, h⟩
    | same _ h => exact ⟨.inr rfl, h⟩
  · rintro ⟨rfl | rfl, h⟩
    · exact .any t h
    · exact .same p h

theorem not_covers_nil {p : Bytes} {ps : List Bytes} (hp : p ≠ hashLevel) : ¬ Covers (p :: ps) [] := by
  intro h
  cases h
  exact hp rfl

@[grind =] def DollarFirst (ls : List Bytes) : Prop := (ls.headD []).head? = some dollarByte

theorem dollarFirst_levels : DollarFirst (levels s) ↔ s.head? = some dollarByte := by
  cases s with
  | nil => exact Iff.rfl
  | cons b s =>
    rw [DollarFirst, levels]
    by_cases hb : b = slashByte
    · rw [if_pos hb]
      refine iff_of_false (by simp) ?_
      rw [hb, List.head?_cons]
      decide
    · rw [if_neg hb]
      rcases hls : levels s with _ | ⟨l, ls⟩
      · exact absurd hls (levels_ne_nil s)
      · exact Iff.rfl

theorem matches_iff_levels {filter topic : Bytes} :
    Matches filter topic ↔ Covers (levels filter) (levels topic) ∧
      (DollarFirst (levels topic) →
        (levels filter).head? ≠ some plusLevel ∧ (levels filter).head? ≠ some hashLevel) := by
  rw [dollarFirst_levels]
  rfl

/-- The first level of a filter that matches a topic with `$` is that of the topic. -/
theorem dollarFirst_of_matches {filter topic : Bytes} (h : Matches filter topic)
    (hd : DollarFirst (levels topic)) : DollarFirst (levels filter) := by
  obtain ⟨hc, hw⟩ := (matches_iff_levels).mp h
  obtain ⟨hplus, hhash⟩ := hw hd
  generalize levels filter = fs at hc hplus hhash ⊢
  generalize levels topic = ts at hc hd
  cases hc with
  | done => exact hd
  | rest => exact absurd rfl hhash
  | any => exact absurd rfl hplus
  | same => exact hd

end MonsterMQ.Topics
