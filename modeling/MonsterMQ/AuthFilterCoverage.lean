import MonsterMQ.TopicNames

/-!
# Patterns that cover a filter

A pattern that `topicMatches` accepts covers the filter. It turns down one that covers the filter in three
cases only, where `+` stands against a `#` that cannot be empty.
-/

namespace MonsterMQ.Auth

open LittleEndian PeerLink Topics List

def Included (filter pattern : Bytes) : Prop :=
  ∀ topic, ValidTopic topic → Matches filter topic → Matches pattern topic

@[grind =] def aLevel : Bytes := [0x61]
def bLevel : Bytes := [0x62]

/-- The levels of a topic that a filter matches, no longer than the filter. -/
inductive Instance : List Bytes → List Bytes → Prop where
  | done : Instance [] []
  | none : Instance [hashLevel] []
  | one : Instance [hashLevel] [aLevel]
  | plus (t : Bytes) {fs ts : List Bytes} : t = aLevel ∨ t = bLevel → Instance fs ts →
      Instance (plusLevel :: fs) (t :: ts)
  | same (l : Bytes) {fs ts : List Bytes} : l ≠ plusLevel → l ≠ hashLevel → Instance fs ts →
      Instance (l :: fs) (l :: ts)

variable {fs ts ps : List Bytes}

theorem Instance.covers (h : Instance fs ts) : Covers fs ts := by
  induction h with
  | done => exact .done
  | none => exact .rest _
  | one => exact .rest _
  | plus t _ _ ih => exact .any t ih
  | same l _ _ _ ih => exact .same l ih

theorem Instance.size_le (h : Instance fs ts) : levelsSize ts ≤ levelsSize fs := by
  induction h with
  | done => exact le_rfl
  | none => exact Nat.zero_le _
  | one => exact le_rfl
  | plus t ht _ ih =>
    rcases ht with rfl | rfl
    · exact Nat.add_le_add_left ih 2
    · exact Nat.add_le_add_left ih 2
  | same l _ _ _ ih =>
    rw [levelsSize_cons, levelsSize_cons]
    omega

theorem Instance.mem (h : Instance fs ts) {t : Bytes} (ht : t ∈ ts) :
    t = aLevel ∨ t = bLevel ∨ t ∈ fs ∧ t ≠ plusLevel ∧ t ≠ hashLevel := by
  induction h with
  | done | none => exact absurd ht not_mem_nil
  | one => exact .inl (mem_singleton.mp ht)
  | plus u hu _ ih =>
    rcases mem_cons.mp ht with rfl | ht
    · exact hu.imp_right .inl
    · rcases ih ht with h | h | h
      · exact .inl h
      · exact .inr (.inl h)
      · exact .inr (.inr ⟨mem_cons_of_mem _ h.1, h.2⟩)
  | same l hp hh _ ih =>
    rcases mem_cons.mp ht with rfl | ht
    · exact .inr (.inr ⟨mem_cons_self, hp, hh⟩)
    · rcases ih ht with h | h | h
      · exact .inl h
      · exact .inr (.inl h)
      · exact .inr (.inr ⟨mem_cons_of_mem _ h.1, h.2⟩)

theorem exists_instance (fs : List Bytes) (h : HashLast fs) : ∃ ts, Instance fs ts ∧ (fs ≠ [] → ts ≠ []) := by
  induction fs with
  | nil => exact ⟨[], .done, fun h => h⟩
  | cons f fs ih =>
    obtain ⟨ts, hts, -⟩ := ih h.2
    by_cases hh : f = hashLevel
    · rw [h.1 hh, hh]
      exact ⟨_, .one, fun _ => cons_ne_nil _ _⟩
    · by_cases hp : f = plusLevel
      · rw [hp]
        exact ⟨_, .plus aLevel (.inl rfl) hts, fun _ => cons_ne_nil _ _⟩
      · exact ⟨_, .same f hp hh hts, fun _ => cons_ne_nil _ _⟩

theorem covers_of_levelsMatch (hps : HashLast ps)
    (h : levelsMatch ps fs = true) (hf : Covers fs ts) : Covers ps ts := by
  induction ps generalizing fs ts with
  | nil =>
    have hnil : fs = [] := by simpa [levelsMatch] using h
    subst hnil
    exact hf
  | cons p ps ih =>
    rw [levelsMatch.eq_def] at h
    dsimp only at h
    by_cases hh : p = hashLevel
    · rw [hps.1 hh, hh]
      exact .rest ts
    rw [if_neg hh] at h
    cases fs with
    | nil => cases h
    | cons f fs =>
      dsimp only at h
      by_cases hp : p = plusLevel
      · rw [if_pos hp] at h
        by_cases hfh : f = hashLevel
        · rw [if_pos hfh] at h
          cases h
        rw [if_neg hfh] at h
        rw [hp]
        cases hf with
        | rest => exact absurd rfl hfh
        | any t hf => exact .any t (ih hps.2 h hf)
        | same _ hf => exact .any f (ih hps.2 h hf)
      · rw [if_neg hp] at h
        by_cases hne : p ≠ f
        · rw [if_pos hne] at h
          cases h
        rw [if_neg hne] at h
        have heq : p = f := not_not.mp hne
        subst heq
        cases hf with
        | rest => exact absurd rfl hh
        | any t hf => exact absurd rfl hp
        | same _ hf => exact .same p (ih hps.2 h hf)

/-- What the loop turns down misses a topic of the filter, as far as a topic may be without
levels. -/
theorem exists_missed (hfs : HashLast fs) (h : levelsMatch ps fs = false) :
    ∃ ts, Instance fs ts ∧ ¬ Covers ps ts := by
  induction ps generalizing fs with
  | nil =>
    obtain ⟨ts, hts, hne⟩ := exists_instance fs hfs
    refine ⟨ts, hts, ?_⟩
    intro hc
    cases hc
    cases fs with
    | nil => cases h
    | cons f fs => exact hne (cons_ne_nil _ _) rfl
  | cons p ps ih =>
    rw [levelsMatch.eq_def] at h
    dsimp only at h
    by_cases hh : p = hashLevel
    · rw [if_pos hh] at h
      cases h
    rw [if_neg hh] at h
    cases fs with
    | nil => exact ⟨[], .done, not_covers_nil hh⟩
    | cons f fs =>
      by_cases hfh : f = hashLevel
      · rw [hfs.1 hfh, hfh]
        exact ⟨[], .none, not_covers_nil hh⟩
      dsimp only at h
      by_cases hp : p = plusLevel
      · rw [if_pos hp, if_neg hfh] at h
        obtain ⟨ts, hts, hmiss⟩ := ih hfs.2 h
        by_cases hfp : f = plusLevel
        · rw [hfp]
          exact ⟨_, .plus aLevel (.inl rfl) hts, fun hc => hmiss ((covers_cons_iff hh).mp hc).2⟩
        · exact ⟨_, .same f hfp hfh hts, fun hc => hmiss ((covers_cons_iff hh).mp hc).2⟩
      · rw [if_neg hp] at h
        obtain ⟨us, hus, -⟩ := exists_instance fs hfs.2
        by_cases hne : p ≠ f
        · by_cases hfp : f = plusLevel
          · have hab : p ≠ aLevel ∨ p ≠ bLevel := by
              by_contra hno
              simp only [not_or, not_not] at hno
              exact absurd (hno.1.symm.trans hno.2) (by decide)
            rw [hfp]
            rcases hab with ha | hb
            · exact ⟨_, .plus aLevel (.inl rfl) hus,
                fun hc => ((covers_cons_iff hh).mp hc).1.elim hp ha⟩
            · exact ⟨_, .plus bLevel (.inr rfl) hus,
                fun hc => ((covers_cons_iff hh).mp hc).1.elim hp hb⟩
          · exact ⟨_, .same f hfp hfh hus, fun hc => ((covers_cons_iff hh).mp hc).1.elim hp hne⟩
        · rw [if_neg hne] at h
          obtain ⟨ts, hts, hmiss⟩ := ih hfs.2 h
          have heq : p = f := not_not.mp hne
          subst heq
          exact ⟨_, .same p hp hh hts, fun hc => hmiss ((covers_cons_iff hh).mp hc).2⟩

/-- A topic that is not without levels, for the filter `#`. -/
theorem exists_missed_hash (hps : HashLast ps)
    (h : levelsMatch ps [hashLevel] = false) (hne : ps ≠ [plusLevel, hashLevel]) :
    ∃ ts, (ts = [aLevel] ∨ ts = [bLevel] ∨ ts = [aLevel, aLevel]) ∧ ¬ Covers ps ts := by
  cases ps with
  | nil => exact ⟨_, .inl rfl, by intro hc; cases hc⟩
  | cons p ps =>
    have hh : p ≠ hashLevel := by
      intro hh
      rw [levelsMatch.eq_def] at h
      dsimp only at h
      rw [if_pos hh] at h
      cases h
    by_cases hp : p = plusLevel
    · cases ps with
      | nil =>
        refine ⟨_, .inr (.inr rfl), ?_⟩
        intro hc
        have := ((covers_cons_iff hh).mp hc).2
        cases this
      | cons q qs =>
        have hq : q ≠ hashLevel := by
          intro hq
          rw [hps.2.1 hq, hq, hp] at hne
          exact hne rfl
        exact ⟨_, .inl rfl, fun hc => not_covers_nil hq ((covers_cons_iff hh).mp hc).2⟩
    · by_cases ha : p = aLevel
      · refine ⟨_, .inr (.inl rfl), ?_⟩
        intro hc
        rcases ((covers_cons_iff hh).mp hc).1 with h | h
        · exact hp h
        · exact absurd (ha.symm.trans h) (by decide)
      · exact ⟨_, .inl rfl, fun hc => ((covers_cons_iff hh).mp hc).1.elim hp ha⟩

/-- The pattern covers the filter because the `#` of the filter cannot be empty. -/
def HashNotEmpty (pattern filter : Bytes) : Prop :=
  (filter = ascii "#" ∧ pattern = ascii "+/#") ∨
    (filter = ascii "/#" ∧ (pattern = ascii "/+/#" ∨ pattern = ascii "+/+/#"))

/-- The first check of `topicMatches`: a leading wildcard against a level that starts with
`$`. -/
def LeadingWildcard (ps fs : List Bytes) : Prop :=
  DollarFirst fs ∧ (ps.headD [] = plusLevel ∨ ps.headD [] = hashLevel)

theorem topicMatches_eq {pattern filter : Bytes} :
    (LeadingWildcard (levels pattern) (levels filter) → topicMatches pattern filter = false) ∧
    (¬ LeadingWildcard (levels pattern) (levels filter) →
      topicMatches pattern filter = levelsMatch (levels pattern) (levels filter)) := by
  have hcond : ((((levels filter).headD []).head? = some dollarByte &&
      ((levels pattern).headD []).head? ≠ some dollarByte &&
      ((levels pattern).headD [] = plusLevel || (levels pattern).headD [] = hashLevel)) = true) ↔
      LeadingWildcard (levels pattern) (levels filter) := by
    simp only [Bool.and_eq_true, Bool.or_eq_true, decide_eq_true_eq]
    constructor
    · rintro ⟨⟨hd, -⟩, hw⟩
      exact ⟨hd, hw⟩
    · rintro ⟨hd, hw⟩
      refine ⟨⟨hd, ?_⟩, hw⟩
      rcases hw with hw | hw
      · rw [hw]
        decide
      · rw [hw]
        decide
  constructor
  · intro h
    exact if_pos (hcond.mpr h)
  · intro h
    exact if_neg (fun hc => h (hcond.mp hc))

section Coverage

variable {pattern filter : Bytes}

theorem included_of_topicMatches (hp : WholeLevels (levels pattern))
    (h : topicMatches pattern filter = true) : Included filter pattern := by
  intro topic _ hm
  have hlead : ¬ LeadingWildcard (levels pattern) (levels filter) := by
    intro hlead
    rw [topicMatches_eq.1 hlead] at h
    cases h
  rw [topicMatches_eq.2 hlead] at h
  apply (matches_iff_levels).mpr
  refine ⟨covers_of_levelsMatch hp.hashLast h hm.1, ?_⟩
  intro hd
  have hdf := dollarFirst_of_matches hm hd
  rcases hps : levels pattern with _ | ⟨p, ps⟩
  · exact absurd hps (levels_ne_nil pattern)
  · rw [LeadingWildcard, hps] at hlead
    constructor
    · intro heq
      exact hlead ⟨hdf, .inl (Option.some.inj heq)⟩
    · intro heq
      exact hlead ⟨hdf, .inr (Option.some.inj heq)⟩

theorem text_aLevel : TextLevel aLevel := by
  constructor <;> decide

theorem text_bLevel : TextLevel bLevel := by
  constructor <;> decide

section

variable (hf : ValidFilter filter)
include hf

theorem Instance.text {ts : List Bytes} (h : Instance (levels filter) ts) : ∀ t ∈ ts, TextLevel t := by
  intro t ht
  rcases h.mem ht with rfl | rfl | ⟨hm, -⟩
  · exact text_aLevel
  · exact text_bLevel
  · exact hf.name.text t hm

theorem Instance.concrete {ts : List Bytes} (h : Instance (levels filter) ts) : ConcreteLevels ts := by
  intro t ht
  rcases h.mem ht with rfl | rfl | ⟨hm, hp, hh⟩
  · decide
  · decide
  · exact ⟨slash_not_mem_levels hm, fun hb => hh (hf.whole.hash t hm hb),
      fun hb => hp (hf.whole.plus t hm hb)⟩

theorem Instance.validTopic {ts : List Bytes}
    (h : Instance (levels filter) ts) (hne : ts ≠ []) (hone : ts ≠ [[]]) : ValidTopic (joinLevels ts) := by
  apply validTopic_joinLevels hne hone _ (h.text hf) (h.concrete hf)
  have hsize := h.size_le
  have hlen := levels_length filter
  have := hf.name.length
  omega

theorem Instance.levels_join {ts : List Bytes}
    (h : Instance (levels filter) ts) (hne : ts ≠ []) : levels (joinLevels ts) = ts :=
  levels_joinLevels hne fun t ht => (h.concrete hf t ht).1

theorem Instance.matches {ts : List Bytes}
    (h : Instance (levels filter) ts) (hne : ts ≠ []) : Matches filter (joinLevels ts) := by
  apply (matches_iff_levels).mpr
  rw [h.levels_join hf hne]
  refine ⟨h.covers, ?_⟩
  generalize levels filter = fs at h
  intro hd
  cases h with
  | done | none => exact absurd rfl hne
  | one => exact absurd hd (by unfold DollarFirst; decide)
  | plus t ht _ =>
    rcases ht with rfl | rfl
    · exact absurd hd (by simp [DollarFirst, aLevel, dollarByte])
    · exact absurd hd (by simp [DollarFirst, bLevel, dollarByte])
  | same l hp hh _ =>
    constructor
    · intro heq
      exact hp (Option.some.inj heq)
    · intro heq
      exact hh (Option.some.inj heq)

end

theorem missed_of_plain {ts : List Bytes} (hplain : ∀ t ∈ ts, t = [] ∨ t = aLevel ∨ t = bLevel)
    (hne : ts ≠ []) (hone : ts ≠ [[]]) (hsize : levelsSize ts ≤ 65536)
    (hcov : Covers (levels filter) ts) (hmiss : ¬ Covers (levels pattern) ts) :
    ∃ topic, ValidTopic topic ∧ Matches filter topic ∧ ¬ Matches pattern topic := by
  have hc : ConcreteLevels ts := by
    intro t ht
    rcases hplain t ht with rfl | rfl | rfl <;> decide
  have htext : ∀ t ∈ ts, TextLevel t := by
    intro t ht
    rcases hplain t ht with rfl | rfl | rfl
    · exact ⟨rfl, not_mem_nil⟩
    · exact text_aLevel
    · exact text_bLevel
  have hlevels := levels_joinLevels hne fun t ht => (hc t ht).1
  have hnd : ¬ DollarFirst ts := by
    cases ts with
    | nil => exact absurd rfl hne
    | cons t ts =>
      rcases hplain t mem_cons_self with rfl | rfl | rfl
      · simp [DollarFirst]
      · simp [DollarFirst, aLevel, dollarByte]
      · simp [DollarFirst, bLevel, dollarByte]
  refine ⟨joinLevels ts, validTopic_joinLevels hne hone hsize htext hc, ?_, ?_⟩
  · apply (matches_iff_levels).mpr
    rw [hlevels]
    exact ⟨hcov, fun hd => absurd hd hnd⟩
  · intro hm
    have hcov' := hm.1
    rw [hlevels] at hcov'
    exact hmiss hcov'

theorem exists_missed_topic_hash (hp : WholeLevels (levels pattern)) (hhash : levels filter = [hashLevel])
    (h : levelsMatch (levels pattern) (levels filter) = false)
    (hne : levels pattern ≠ [plusLevel, hashLevel]) :
    ∃ topic, ValidTopic topic ∧ Matches filter topic ∧ ¬ Matches pattern topic := by
  rw [hhash] at h
  obtain ⟨ts, hts, hmiss⟩ := exists_missed_hash hp.hashLast h hne
  have hcov : Covers (levels filter) ts := by
    rw [hhash]
    exact .rest ts
  rcases hts with rfl | rfl | rfl
  · exact missed_of_plain (by decide) (by decide) (by decide) (by decide) hcov hmiss
  · exact missed_of_plain (by decide) (by decide) (by decide) (by decide) hcov hmiss
  · exact missed_of_plain (by decide) (by decide) (by decide) (by decide) hcov hmiss

theorem exists_missed_topic_slash (hp : WholeLevels (levels pattern))
    (hslash : levels filter = [[], hashLevel]) (h : levelsMatch (levels pattern) (levels filter) = false)
    (hne : levels pattern ≠ [[], plusLevel, hashLevel])
    (hne' : levels pattern ≠ [plusLevel, plusLevel, hashLevel]) :
    ∃ topic, ValidTopic topic ∧ Matches filter topic ∧ ¬ Matches pattern topic := by
  have hcov : ∀ ts, Covers (levels filter) ([] :: ts) := by
    intro ts
    rw [hslash]
    exact .same [] (.rest ts)
  rw [hslash] at h
  rcases hps : levels pattern with _ | ⟨p, ps⟩
  · exact absurd hps (levels_ne_nil pattern)
  rw [hps] at h hne hne' hp
  have hh : p ≠ hashLevel := by
    intro hh
    rw [levelsMatch.eq_def] at h
    dsimp only at h
    rw [if_pos hh] at h
    cases h
  by_cases hfirst : p = plusLevel ∨ p = []
  · have hrest : levelsMatch ps [hashLevel] = false := by
      rw [levelsMatch.eq_def] at h
      dsimp only at h
      rw [if_neg hh] at h
      rcases hfirst with rfl | rfl
      · exact h
      · exact h
    have hrest_ne : ps ≠ [plusLevel, hashLevel] := by
      rintro rfl
      rcases hfirst with rfl | rfl
      · exact hne' rfl
      · exact hne rfl
    obtain ⟨ts, hts, hmiss⟩ := exists_missed_hash hp.hashLast.2 hrest hrest_ne
    have hmiss' : ¬ Covers (levels pattern) ([] :: ts) := by
      rw [hps]
      exact fun hc => hmiss ((covers_cons_iff hh).mp hc).2
    rcases hts with rfl | rfl | rfl
    · exact missed_of_plain (by decide) (by decide) (by decide) (by decide) (hcov _) hmiss'
    · exact missed_of_plain (by decide) (by decide) (by decide) (by decide) (hcov _) hmiss'
    · exact missed_of_plain (by decide) (by decide) (by decide) (by decide) (hcov _) hmiss'
  · have hmiss : ¬ Covers (levels pattern) [[], aLevel] := by
      rw [hps]
      exact fun hc => hfirst ((covers_cons_iff hh).mp hc).1
    exact missed_of_plain (by decide) (by decide) (by decide) (by decide) (hcov _) hmiss

/-- A pattern with a leading wildcard misses the topics of a filter that starts with `$`. -/
theorem exists_missed_dollar (hf : ValidFilter filter)
    (hlead : LeadingWildcard (levels pattern) (levels filter)) :
    ∃ topic, ValidTopic topic ∧ Matches filter topic ∧ ¬ Matches pattern topic := by
  obtain ⟨ts, hts, hne⟩ := exists_instance (levels filter) hf.whole.hashLast
  have hne := hne (levels_ne_nil filter)
  have hd : DollarFirst ts := by
    have hd := hlead.1
    generalize levels filter = fs at hts hd
    cases hts with
    | done => exact hd
    | none | one => exact absurd hd (by unfold DollarFirst; decide)
    | plus => exact absurd hd (by unfold DollarFirst; simp [plusLevel, dollarByte])
    | same => exact hd
  have hone : ts ≠ [[]] := by
    rintro rfl
    exact absurd hd (by unfold DollarFirst; decide)
  refine ⟨joinLevels ts, hts.validTopic hf hne hone, hts.matches hf hne, ?_⟩
  intro hm
  have hw := ((matches_iff_levels).mp hm).2
  rw [hts.levels_join hf hne] at hw
  obtain ⟨hplus, hhash⟩ := hw hd
  rcases hps : levels pattern with _ | ⟨p, ps⟩
  · exact levels_ne_nil pattern hps
  · have hhead := hlead.2
    rw [hps] at hplus hhash hhead
    rcases hhead with h | h
    · exact hplus (congrArg some h)
    · exact hhash (congrArg some h)

/-- A text that the check turns down misses a topic of the filter, the three cases apart. -/
theorem exists_missed_topic (hp : WholeLevels (levels pattern)) (hf : ValidFilter filter)
    (h : topicMatches pattern filter = false) (hnot : ¬ HashNotEmpty pattern filter) :
    ∃ topic, ValidTopic topic ∧ Matches filter topic ∧ ¬ Matches pattern topic := by
  have hlevels : ∀ {s t : Bytes}, levels s = levels t → s = t := levels_injective
  by_cases hlead : LeadingWildcard (levels pattern) (levels filter)
  · exact exists_missed_dollar hf hlead
  rw [topicMatches_eq.2 hlead] at h
  by_cases hhash : levels filter = [hashLevel]
  · apply exists_missed_topic_hash hp hhash h
    intro heq
    exact hnot (.inl ⟨hlevels hhash, hlevels heq⟩)
  by_cases hslash : levels filter = [[], hashLevel]
  · apply exists_missed_topic_slash hp hslash h
    · intro heq
      exact hnot (.inr ⟨hlevels hslash, .inl (hlevels heq)⟩)
    · intro heq
      exact hnot (.inr ⟨hlevels hslash, .inr (hlevels heq)⟩)
  obtain ⟨ts, hts, hmiss⟩ := exists_missed hf.whole.hashLast h
  have hnil := levels_ne_nil filter
  have hnone := levels_ne_singleton hf.name.nonempty
  have hne : ts ≠ [] := by
    rintro rfl
    generalize levels filter = fs at hts hhash hnil
    cases hts with
    | done => exact hnil rfl
    | none => exact hhash rfl
  have hone : ts ≠ [[]] := by
    rintro rfl
    generalize levels filter = fs at hts hslash hnone
    cases hts with
    | plus t ht _ => rcases ht with h | h <;> exact absurd h (by decide)
    | same l _ _ hrest =>
      cases hrest with
      | done => exact hnone rfl
      | none => exact hslash rfl
  refine ⟨joinLevels ts, hts.validTopic hf hne hone, hts.matches hf hne, ?_⟩
  intro hm
  have hcov := hm.1
  rw [hts.levels_join hf hne] at hcov
  exact hmiss hcov

theorem included_of_hashNotEmpty (h : HashNotEmpty pattern filter) : Included filter pattern := by
  intro topic htopic hm
  obtain ⟨hc, hw⟩ := (matches_iff_levels).mp hm
  have hne := levels_ne_nil topic
  have hone := levels_ne_singleton htopic.name.nonempty
  apply (matches_iff_levels).mpr
  rcases h with ⟨rfl, rfl⟩ | ⟨rfl, rfl | rfl⟩
  · refine ⟨?_, fun hd => absurd rfl (hw hd).2⟩
    rcases hts : levels topic with _ | ⟨t, ts⟩
    · exact absurd hts hne
    · exact .any t (.rest ts)
  · rcases hts : levels topic with _ | ⟨t, ts⟩
    · exact absurd hts hne
    rw [hts] at hc hone
    have hsplit := (covers_cons_iff (p := []) (by decide)).mp hc
    have ht : t = [] := (hsplit.1.resolve_left (by decide)).symm
    subst ht
    cases ts with
    | nil => exact absurd rfl hone
    | cons u us => exact ⟨.same [] (.any u (.rest us)), fun hd => absurd hd (by simp [DollarFirst])⟩
  · rcases hts : levels topic with _ | ⟨t, ts⟩
    · exact absurd hts hne
    rw [hts] at hc hone
    have hsplit := (covers_cons_iff (p := []) (by decide)).mp hc
    have ht : t = [] := (hsplit.1.resolve_left (by decide)).symm
    subst ht
    cases ts with
    | nil => exact absurd rfl hone
    | cons u us => exact ⟨.any [] (.any u (.rest us)), fun hd => absurd hd (by simp [DollarFirst])⟩

private theorem topicMatches_of_hashNotEmpty (h : HashNotEmpty pattern filter) :
    topicMatches pattern filter = false := by
  rcases h with ⟨rfl, rfl⟩ | ⟨rfl, rfl | rfl⟩ <;> decide

theorem topicMatches_exact_iff (hp : WholeLevels (levels pattern)) (hf : ValidFilter filter) :
    (topicMatches pattern filter = true ↔ Included filter pattern) ↔
      ¬ HashNotEmpty pattern filter := by
  constructor
  · intro h hcase
    have := h.mpr (included_of_hashNotEmpty hcase)
    rw [topicMatches_of_hashNotEmpty hcase] at this
    cases this
  · intro hnot
    refine ⟨included_of_topicMatches hp, ?_⟩
    intro hinc
    by_contra h
    obtain ⟨topic, htopic, hm, hmiss⟩ :=
      exists_missed_topic hp hf (Bool.eq_false_iff.mpr h) hnot
    exact hmiss (hinc topic htopic hm)

theorem topicMatches_topic_iff (hp : WholeLevels (levels pattern)) {topic : Bytes}
    (ht : ValidTopic topic) : topicMatches pattern topic = true ↔ Matches pattern topic := by
  have hlevels := concreteLevels_levels ht.concrete
  have hplus : ∀ l ∈ levels topic, 0x2B ∈ l → l = plusLevel := fun l hl hb =>
    absurd hb (hlevels l hl).2.2
  have hhash : ∀ l ∈ levels topic, 0x23 ∈ l → l = hashLevel := fun l hl hb =>
    absurd hb (hlevels l hl).2.1
  have hlast : HashLast (levels topic) := by
    generalize levels topic = ls at hlevels
    induction ls with
    | nil => trivial
    | cons l ls ih =>
      refine ⟨?_, ih hlevels.tail⟩
      intro hl
      exact absurd (hl ▸ mem_cons_self) (hlevels l mem_cons_self).2.1
  have hnot : ¬ HashNotEmpty pattern topic := by
    rintro (⟨rfl, -⟩ | ⟨rfl, -⟩) <;> exact ht.concrete.1 (by decide)
  have hexact : ∀ {other : Bytes}, Matches topic other ↔ topic = other := by
    intro other
    apply matches_exact_iff
    rw [isWildcardFilter]
    simp only [Bool.or_eq_false_iff, contains_eq_mem, decide_eq_false_iff_not]
    exact ⟨ht.concrete.2, ht.concrete.1⟩
  rw [(topicMatches_exact_iff hp ⟨ht.name, hlast, hplus, hhash⟩).mpr hnot]
  constructor
  · intro hinc
    exact hinc topic ht (hexact.mpr rfl)
  · intro hm other _ hself
    rwa [← hexact.mp hself]

end Coverage

@[grind =] def AclRule.decides (r : AclRule) (username clientID topic : Bytes) (write : Bool) : Bool :=
  (isDenyRule r || r.grants write) && r.covers username clientID topic

@[grind =] def decidingRule (rules : List AclRule) (username clientID topic : Bytes) (write : Bool) :
    Option AclRule := rules.find? fun r => r.decides username clientID topic write

/-- The loop of `allowClient` follows the first rule that decides. -/
theorem decideRules_eq (rules : List AclRule) (username clientID topic : Bytes) (write : Bool) :
    decideRules (fun r => r.covers username clientID topic) write rules =
      (decidingRule rules username clientID topic write).any fun r => !isDenyRule r := by
  induction rules with
  | nil => rfl
  | cons r rs ih =>
    rw [decideRules, decidingRule, List.find?_cons, AclRule.decides]
    by_cases hskip : !isDenyRule r && !r.grants write
    · have hno : (isDenyRule r || r.grants write) = false := by
        rw [← Bool.not_not (isDenyRule r || r.grants write), Bool.not_or, hskip]
        rfl
      rw [if_pos hskip, hno, Bool.false_and]
      exact ih
    · have hyes : (isDenyRule r || r.grants write) = true := by
        rw [← Bool.not_not (isDenyRule r || r.grants write), Bool.not_or,
          Bool.eq_false_iff.mpr hskip]
        rfl
      rw [if_neg hskip, hyes, Bool.true_and]
      cases r.covers username clientID topic with
      | true => rfl
      | false => exact ih

def AclRule.CoversTopics (r : AclRule) (username clientID filter : Bytes) : Prop :=
  ∀ topic, ValidTopic topic → Matches filter topic → r.covers username clientID topic = true

/-- The check on a filter is exact: the pattern covers the filter when every topic of it does
match, a client is admitted by an allow rule only when that allows every topic, and refused
by a deny rule exactly when that denies every topic. -/
structure CoverageExact (rule : AclRule) (username clientID pattern filter : Bytes) : Prop where
  exact : topicMatches pattern filter = true ↔ Included filter pattern
  admitted : ∀ rules, isDenyRule rule = false →
    decidingRule rules username clientID filter false = some rule →
    rule.CoversTopics username clientID filter
  refused : ∀ before after, isDenyRule rule = true →
    decidingRule before username clientID filter false = none →
    (decidingRule (before ++ rule :: after) username clientID filter false = some rule ↔
      rule.CoversTopics username clientID filter)

section Rules

variable {rule : AclRule} {username clientID pattern filter : Bytes}

theorem covers_eq_topicMatches (hr : resolvePattern rule.topicPattern username clientID = some pattern)
    (topic : Bytes) : rule.covers username clientID topic = topicMatches pattern topic := by
  rw [AclRule.covers, hr]

theorem coversTopics_iff (hr : resolvePattern rule.topicPattern username clientID = some pattern)
    (hp : WholeLevels (levels pattern)) :
    rule.CoversTopics username clientID filter ↔ Included filter pattern := by
  constructor
  · intro h topic ht hm
    have := h topic ht hm
    rw [covers_eq_topicMatches hr] at this
    exact (topicMatches_topic_iff hp ht).mp this
  · intro h topic ht hm
    rw [covers_eq_topicMatches hr]
    exact (topicMatches_topic_iff hp ht).mpr (h topic ht hm)

theorem decides_of_decidingRule {rules : List AclRule}
    (h : decidingRule rules username clientID filter false = some rule) :
    rule.covers username clientID filter = true := by
  have := List.find?_some h
  rw [AclRule.decides, Bool.and_eq_true] at this
  exact this.2

theorem coverageExact_iff (hr : resolvePattern rule.topicPattern username clientID = some pattern)
    (hp : WholeLevels (levels pattern)) (hf : ValidFilter filter) :
    CoverageExact rule username clientID pattern filter ↔ ¬ HashNotEmpty pattern filter := by
  constructor
  · intro h
    exact (topicMatches_exact_iff hp hf).mp h.exact
  · intro hnot
    have hexact := (topicMatches_exact_iff hp hf).mpr hnot
    refine ⟨hexact, ?_, ?_⟩
    · intro rules _ h
      have hcovers := decides_of_decidingRule h
      rw [covers_eq_topicMatches hr] at hcovers
      exact (coversTopics_iff hr hp).mpr (hexact.mp hcovers)
    · intro before after hdeny hbefore
      rw [coversTopics_iff hr hp, ← hexact, ← covers_eq_topicMatches hr]
      constructor
      · exact decides_of_decidingRule
      · intro hcovers
        rw [decidingRule] at hbefore ⊢
        rw [List.find?_append, hbefore, Option.none_or, List.find?_cons, AclRule.decides, hdeny,
          hcovers]
        rfl

end Rules

def subscribeRule : AclRule := ⟨ascii "a/+", true, false⟩

theorem subscribeRule_exact :
    CoverageExact subscribeRule (ascii "alice") (ascii "c1") (ascii "a/+") (ascii "a/#") :=
  (coverageExact_iff (by decide) (wholeLevels_of_valid (by decide))
    ⟨(validName_iff).mp (by decide), wholeLevels_of_valid (by decide)⟩).mpr (by
      rintro (⟨h, -⟩ | ⟨h, -⟩) <;> exact absurd h (by decide))

def denyRule : AclRule := ⟨ascii "+/#", false, false⟩

/-- Every topic of `#` is denied by a rule for `+/#`, which does not refuse the filter. -/
theorem denyRule_misses_hash : WholeLevels (levels (ascii "+/#")) ∧ ValidFilter (ascii "#") ∧
      denyRule.CoversTopics (ascii "alice") (ascii "c1") (ascii "#") ∧
      decidingRule [denyRule] (ascii "alice") (ascii "c1") (ascii "#") false = none ∧
      ¬ (topicMatches (ascii "+/#") (ascii "#") = true ↔ Included (ascii "#") (ascii "+/#")) := by
  have hp : WholeLevels (levels (ascii "+/#")) := wholeLevels_of_valid (by decide)
  have hinc : Included (ascii "#") (ascii "+/#") := included_of_hashNotEmpty (.inl ⟨rfl, rfl⟩)
  refine ⟨hp, ⟨(validName_iff).mp (by decide), wholeLevels_of_valid (by decide)⟩,
    (coversTopics_iff (by decide) hp).mpr hinc, by decide, ?_⟩
  intro h
  exact absurd (h.mpr hinc) (by decide)

end MonsterMQ.Auth
