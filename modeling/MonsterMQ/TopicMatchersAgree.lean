import MonsterMQ.TopicTreeEntries

/-!
# The topic matchers agree

Every matcher of the broker follows the matching rules on the filters and topics of MQTT,
but for those of the memory store and the archive groups, which miss the parent level of
a `#`.
-/

namespace MonsterMQ.Topics

open LittleEndian PeerLink Auth TopicTree

section Matchers

variable {filter topic : Bytes}

private theorem matches_of_dollar_iff : (DollarFirst (levels topic) →
        (levels filter).head? ≠ some plusLevel ∧ (levels filter).head? ≠ some hashLevel) ↔
      ¬ (topic.head? = some dollarByte ∧
        ((levels filter).head? = some plusLevel ∨ (levels filter).head? = some hashLevel)) := by
  rw [dollarFirst_levels, not_and, not_or]

section

variable (hw : WholeLevels (levels filter))
include hw

/-- The check of the first bytes is the rule on topics that start with `$`. -/
theorem dollarTopic_iff : dollarTopic filter topic = true ↔ topic.head? = some dollarByte ∧
      ((levels filter).head? = some plusLevel ∨ (levels filter).head? = some hashLevel) := by
  have hp : filter.head? = some 0x2B ↔ (levels filter).head? = some plusLevel :=
    ⟨head_levels_of_head hw (.inl rfl), head_eq_of_head_levels⟩
  have hh : filter.head? = some 0x23 ↔ (levels filter).head? = some hashLevel :=
    ⟨head_levels_of_head hw (.inr rfl), head_eq_of_head_levels⟩
  rw [dollarTopic, Bool.and_eq_true, Bool.or_eq_true, decide_eq_true_iff, decide_eq_true_iff,
    decide_eq_true_iff, hp, hh]

theorem matches_iff_of_check {compared : Bool} {P : Prop}
    (hc : compared = true ↔ Covers (levels filter) (levels topic) ∧ P) :
    (if dollarTopic filter topic then false else compared) = true ↔ Matches filter topic ∧ P := by
  rw [matches_iff_levels, matches_of_dollar_iff, ← dollarTopic_iff hw]
  by_cases hd : dollarTopic filter topic = true
  · rw [if_pos hd]
    exact iff_of_false (by decide) (fun h => h.1.2 hd)
  · rw [if_neg hd, hc]
    constructor
    · rintro ⟨h, hp⟩
      exact ⟨⟨h, hd⟩, hp⟩
    · rintro ⟨⟨h, -⟩, hp⟩
      exact ⟨h, hp⟩

private theorem busMatchTopic_iff (ht : Concrete topic) :
    busMatchTopic filter topic = true ↔ Matches filter topic := by
  rw [busMatchTopic_eq, matchMQTTTopic_iff hw ht]

end

private theorem matchSegments_plain_iff {fs : List Bytes} (h : ConcreteLevels fs) : ∀ {ts : List Bytes},
    matchSegments fs ts = true ↔ fs = ts := by
  induction fs with
  | nil =>
    intro ts
    rw [matchSegments, List.isEmpty_iff]
    exact eq_comm
  | cons f fs ih =>
    intro ts
    have hf := h f List.mem_cons_self
    have hhash : f ≠ hashLevel := by
      rintro rfl
      exact hf.2.1 (by decide)
    have hplus : f ≠ plusLevel := by
      rintro rfl
      exact hf.2.2 (by decide)
    cases ts with
    | nil => simp [matchSegments, hhash]
    | cons t ts =>
      by_cases heq : f = t
      · simp [matchSegments, heq ▸ hhash, heq, ih h.tail]
      · simp [matchSegments, hhash, heq, hplus]

theorem busMatchTopic_exact_iff (hf : isWildcardFilter filter = false) :
    busMatchTopic filter topic = true ↔ filter = topic := by
  have hc : Concrete filter := by
    simp only [isWildcardFilter, Bool.or_eq_false_iff] at hf
    exact ⟨by simpa using hf.2, by simpa using hf.1⟩
  have hhead : ∀ b, (b = 0x2B ∨ b = 0x23) → filter.head? ≠ some b := by
    rintro b (rfl | rfl) h
    · exact hc.2 (List.mem_of_mem_head? h)
    · exact hc.1 (List.mem_of_mem_head? h)
  have hhash : filter ≠ hashLevel := by
    rintro rfl
    exact hc.1 (by decide)
  have hsegments : matchSegments (levels filter) (levels topic) = true ↔ levels filter = levels topic :=
    matchSegments_plain_iff (concreteLevels_levels hc)
  rw [busMatchTopic_eq, matchMQTTTopic]
  by_cases heq : filter = topic
  · subst heq
    simp [hhead]
  · simp only [hhead, heq, hhash, decide_false, Bool.or_false, Bool.and_false, Bool.false_eq_true,
      if_false, hsegments, true_or, or_true]
    exact iff_of_false (fun h => heq (levels_injective h)) (fun h => h)

section

variable (hw : WholeLevels (levels filter))
include hw

theorem virtualMatch_iff : virtualMatch filter topic = true ↔ Matches filter topic := by
  have hloop := virtualMatchLoop_iff (filter.length + 1) filter topic (by omega) hw.hashLast
  rw [← and_true (Covers _ _)] at hloop
  rw [virtualMatch, matches_iff_of_check hw hloop, and_true]

theorem sqliteMatchTopic_iff : sqliteMatchTopic filter topic = true ↔ Matches filter topic := by
  have hloop : sqliteLevels (levels filter) (levels topic) = true ↔
      Covers (levels filter) (levels topic) := sqliteLevels_iff hw.hashLast
  rw [← and_true (Covers _ _)] at hloop
  rw [sqliteMatchTopic, matches_iff_of_check hw hloop, and_true]

theorem matchFilter_iff (ht : Concrete topic) : matchFilter filter topic = true ↔ Matches filter topic := by
  rw [matchFilter]
  by_cases heq : filter = topic
  · rw [if_pos heq, ← matchMQTTTopic_iff hw ht, heq]
    refine iff_of_true rfl ?_
    have hwild : isWildcardFilter topic = false := by
      rw [isWildcardFilter]
      simp only [Bool.or_eq_false_iff, List.contains_eq_mem, decide_eq_false_iff_not]
      exact ⟨ht.2, ht.1⟩
    rw [heq] at hw
    exact (matchMQTTTopic_iff hw ht).mpr ((matches_exact_iff hwild).mpr rfl)
  rw [if_neg heq]
  by_cases hwild : isWildcardFilter filter = true
  · have hwild' : ¬ (!(filter.contains 0x2B || filter.contains 0x23)) = true := by
      rw [Bool.not_eq_true', Bool.not_eq_false]
      exact hwild
    rw [if_neg hwild', matches_iff_levels]
    dsimp only
    by_cases hd : DollarFirst (levels topic)
    · by_cases hf : DollarFirst (levels filter)
      · have hcond : ¬ ((((levels topic).headD []).head? = some dollarByte &&
            ((levels filter).headD []).head? ≠ some dollarByte) = true) := by
          rw [Bool.and_eq_true, decide_eq_true_iff, decide_eq_true_iff]
          exact fun h => h.2 hf
        rw [if_neg hcond, matchFilterLevels_iff hw.hashLast]
        refine (and_iff_left ?_).symm
        intro _
        rcases hfs : levels filter with _ | ⟨f, fs⟩
        · exact absurd hfs (levels_ne_nil filter)
        · rw [hfs, DollarFirst, List.headD_cons] at hf
          constructor
          · intro h
            rw [Option.some.inj h] at hf
            exact absurd hf (by decide)
          · intro h
            rw [Option.some.inj h] at hf
            exact absurd hf (by decide)
      · have hcond : (((levels topic).headD []).head? = some dollarByte &&
            ((levels filter).headD []).head? ≠ some dollarByte) = true := by
          rw [Bool.and_eq_true, decide_eq_true_iff, decide_eq_true_iff]
          exact ⟨hd, hf⟩
        rw [if_pos hcond]
        refine iff_of_false (by decide) ?_
        intro h
        exact hf (dollarFirst_of_matches ((matches_iff_levels).mpr h) hd)
    · have hcond : ¬ ((((levels topic).headD []).head? = some dollarByte &&
          ((levels filter).headD []).head? ≠ some dollarByte) = true) := by
        rw [Bool.and_eq_true, decide_eq_true_iff]
        exact fun h => hd h.1
      rw [if_neg hcond, matchFilterLevels_iff hw.hashLast]
      exact (and_iff_left (fun h => absurd h hd)).symm
  · have hwild' : (!(filter.contains 0x2B || filter.contains 0x23)) = true := by
      rw [Bool.not_eq_true']
      exact Bool.eq_false_iff.mpr hwild
    rw [if_pos hwild', matches_exact_iff (Bool.eq_false_iff.mpr hwild)]
    exact iff_of_false (by decide) heq

end

def ParentTopic (filter topic : Bytes) : Prop :=
  ∃ parent, filter = parent ++ ascii "/#" ∧ Matches parent topic

theorem levels_append_hash (parent : Bytes) :
    levels (parent ++ ascii "/#") = levels parent ++ [hashLevel] := levels_append parent hashLevel

private theorem covers_append_hash {fs ts : List Bytes} (hlast : HashLast (fs ++ [hashLevel]))
    (hc : Covers fs ts) : Covers (fs ++ [hashLevel]) ts := by
  induction hc with
  | done => exact .rest []
  | rest ts => exact absurd (hlast.1 rfl) (List.cons_ne_nil _ _)
  | any t _ ih => exact .any t (ih hlast.2)
  | same l _ ih => exact .same l (ih hlast.2)

theorem head_append_hash {qs : List Bytes} (h : qs ≠ []) : (qs ++ [hashLevel]).head? = qs.head? := by
  cases qs with
  | nil => exact absurd rfl h
  | cons q qs => rfl

theorem parentTopic_iff (hlast : HashLast (levels filter)) : ParentTopic filter topic ↔
    Matches filter topic ∧ ParentLevels (levels filter) (levels topic) := by
  constructor
  · rintro ⟨parent, rfl, hm⟩
    obtain ⟨hc, hd⟩ := (matches_iff_levels).mp hm
    rw [levels_append_hash] at hlast
    rw [matches_iff_levels, levels_append_hash, head_append_hash (levels_ne_nil parent)]
    exact ⟨⟨covers_append_hash hlast hc, hd⟩, levels parent, levels_ne_nil parent, rfl, hc⟩
  · rintro ⟨hm, qs, hne, heq, hc⟩
    have hlevels : levels (joinLevels qs) = qs := by
      apply levels_joinLevels hne
      intro l hl
      apply slash_not_mem_levels (s := filter)
      rw [heq]
      exact List.mem_append_left _ hl
    refine ⟨joinLevels qs, ?_, ?_⟩
    · rw [← joinLevels_levels filter, heq, joinLevels_append hne (by decide)]
      rfl
    · have hd := ((matches_iff_levels).mp hm).2
      rw [heq, head_append_hash hne] at hd
      rw [matches_iff_levels, hlevels]
      exact ⟨hc, hd⟩

theorem cutMatch_iff (hw : WholeLevels (levels filter)) :
    cutMatch filter topic = true ↔ Matches filter topic ∧ ¬ ParentTopic filter topic := by
  have hloop : (if filter = hashLevel then true else cutLoop (filter.length + 1) filter topic) =
      true ↔ Covers (levels filter) (levels topic) ∧
        ¬ ParentLevels (levels filter) (levels topic) := by
    rw [← cutLoop_iff (filter.length + 1) filter topic (by omega) hw.hashLast]
    by_cases hh : filter = hashLevel
    · rw [if_pos hh, hh]
      refine iff_of_true rfl ?_
      rw [cutLoop]
      rfl
    · rw [if_neg hh]
  rw [cutMatch, matches_iff_of_check hw hloop, parentTopic_iff hw.hashLast, not_and]
  constructor
  · rintro ⟨hm, hp⟩
    exact ⟨hm, fun _ => hp⟩
  · rintro ⟨hm, hp⟩
    exact ⟨hm, hp hm⟩

structure MatchersAgree (filter topic : Bytes) : Prop where
  matchFilter : matchFilter filter topic = true ↔ Matches filter topic
  findData : ∀ {V : Type} (key : Bytes) (value : V), key ≠ [] →
    ((newTree.addData filter key value).findData topic ≠ [] ↔ Matches filter topic)
  isMatching : ∀ {V : Type} (key : Bytes) (value : V), key ≠ [] →
    ((newTree.addData filter key value).isMatching topic = true ↔ Matches filter topic)
  bus : busMatchTopic filter topic = true ↔ Matches filter topic
  mqtt : matchMQTTTopic filter topic = true ↔ Matches filter topic
  virtual : virtualMatch filter topic = true ↔ Matches filter topic
  sqlite : sqliteMatchTopic filter topic = true ↔ Matches filter topic
  memory : memoryMatchTopic filter topic = true ↔ Matches filter topic
  archive : archiveMatchTopic filter topic = true ↔ Matches filter topic

theorem matchersAgree_iff (hf : ValidFilter filter) (ht : ValidTopic topic) :
    MatchersAgree filter topic ↔ ¬ ParentTopic filter topic := by
  have hcut : cutMatch filter topic = true ↔ Matches filter topic ∧ ¬ ParentTopic filter topic :=
    cutMatch_iff hf.whole
  constructor
  · intro h hparent
    have hm := ((parentTopic_iff hf.whole.hashLast).mp hparent).1
    exact (hcut.mp (h.memory.mpr hm)).2 hparent
  · intro hno
    have hcut' : cutMatch filter topic = true ↔ Matches filter topic := by
      rw [hcut]
      exact and_iff_left hno
    exact {
      matchFilter := matchFilter_iff hf.whole ht.concrete
      findData := fun _ _ hkey => findData_iff hf ht hkey
      isMatching := fun _ _ hkey => (isMatching_iff _ _).trans (findData_iff hf ht hkey)
      bus := busMatchTopic_iff hf.whole ht.concrete
      mqtt := matchMQTTTopic_iff hf.whole ht.concrete
      virtual := virtualMatch_iff hf.whole
      sqlite := sqliteMatchTopic_iff hf.whole
      memory := hcut'
      archive := hcut' }

end Matchers

theorem agree_on_subtopic : MatchersAgree (ascii "a/#") (ascii "a/b") :=
  (matchersAgree_iff ⟨(validName_iff).mp (by decide), wholeLevels_of_valid (by decide)⟩
    ⟨(validName_iff).mp (by decide), by decide⟩).mpr (by
      rintro ⟨parent, h, hm⟩
      have hsplit : ascii "a/#" = ascii "a" ++ ascii "/#" := by decide
      have hparent : ascii "a" = parent := List.append_cancel_right (hsplit.symm.trans h)
      rw [← hparent, matches_exact_iff (by decide)] at hm
      exact absurd hm (by decide))

/-- `a/#` matches `a`, which the memory store and the archive groups do not see. -/
theorem parent_topic_missed :
    ValidFilter (ascii "a/#") ∧ ValidTopic (ascii "a") ∧ Matches (ascii "a/#") (ascii "a") ∧
      sqliteMatchTopic (ascii "a/#") (ascii "a") = true ∧
      memoryMatchTopic (ascii "a/#") (ascii "a") = false ∧
      archiveMatchTopic (ascii "a/#") (ascii "a") = false := by
  have hf : ValidFilter (ascii "a/#") :=
    ⟨(validName_iff).mp (by decide), wholeLevels_of_valid (by decide)⟩
  exact ⟨hf, ⟨(validName_iff).mp (by decide), by decide⟩,
    (sqliteMatchTopic_iff hf.whole).mp (by decide), by decide, by decide, by decide⟩

end MonsterMQ.Topics
