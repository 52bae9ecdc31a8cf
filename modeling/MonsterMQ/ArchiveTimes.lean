import MonsterMQ.ArchiveTables

/-!
# Time ranges, retention and order of the SQLite stores

The stores compare the texts of times. What they answer, count and delete is what the times say
exactly when no two of the times involved clash: the same second, the fraction of one the beginning
of the fraction of the other.
-/

namespace MonsterMQ.Archive

open LittleEndian Auth SqlSelects UtcTimes List

@[grind =] def inside (start stop : Option UtcTime) (r : Row) : Bool :=
  (start.all fun t => decide (t.nanos ≤ r.time.nanos)) &&
    (stop.all fun t => decide (r.time.nanos ≤ t.nanos))

def NewestMessages (limit : ℕ) (rows : List Row) (out : List ArchivedMessage) : Prop :=
  ∃ l, Newest (fun r : Row => r.time.nanos) limit rows l ∧ out = l.map scanRow

def Earliest (rows : List Row) (t : Option UtcTime) : Prop :=
  (t = none ↔ rows = []) ∧ ∀ t₀, t = some t₀ → (∃ r ∈ rows, r.time = t₀) ∧
    ∀ r ∈ rows, t₀.nanos ≤ r.time.nanos

/-- With these bounds, every read and every purge of the archive and of the message store does what
the times say. -/
structure Exact (archive store : List Row) (lo hi : UtcTime) : Prop where
  history : ∀ topic start stop limit out, start ∈ [none, some lo] → stop ∈ [none, some hi] →
    GetHistory archive topic start stop limit out →
    NewestMessages (historyLimit limit)
      (archive.filter fun r => sqliteLike (likePattern topic) r.topic && inside start stop r) out
  purge : ∀ t ∈ [lo, hi], ∀ table ∈ [archive, store],
    purgeOlderThan table t = table.filter fun r => !decide (r.time.nanos < t.nanos)
  stats : ∀ start stop, start ∈ [none, some lo] → stop ∈ [none, some hi] →
    (getArchiveStats archive start stop).dailyCounts =
      dailyCounts (archive.filter (inside start stop)) ∧
    Earliest (archive.filter (inside start stop)) (getArchiveStats archive start stop).minTimestamp
  aggregated : ∀ topics, aggregatedRows archive topics lo hi =
    archive.filter fun r => topics.contains r.topic && inside (some lo) (some hi) r

def NoClash (archive store : List Row) (lo hi : UtcTime) : Prop :=
  (∀ a ∈ archive, ∀ b ∈ archive, ¬ UtcTime.Clash a.time b.time) ∧
    ∀ t ∈ [lo, hi], ∀ table ∈ [archive, store], ∀ r ∈ table, ¬ UtcTime.Clash r.time t

section Compare

variable {r : Row} {t : UtcTime} {lo hi : UtcTime} {start stop : Option UtcTime}

theorem text_lt_iff (h : ¬ UtcTime.Clash r.time t) :
    r.text < t.rfc3339Nano ↔ r.time.nanos < t.nanos := (UtcTime.rfc3339Nano_lt_iff_lt).mpr h

theorem lt_text_iff (h : ¬ UtcTime.Clash r.time t) : t.rfc3339Nano < r.text ↔ t.nanos < r.time.nanos :=
  (UtcTime.rfc3339Nano_lt_iff_lt).mpr fun hc => h hc.symm

theorem textInside_eq (hstart : start ∈ [none, some lo]) (hstop : stop ∈ [none, some hi])
    (h : ∀ t ∈ [lo, hi], ¬ UtcTime.Clash r.time t) : textInside start stop r = inside start stop r := by
  have hlo : decide (r.text < lo.rfc3339Nano) = decide (r.time.nanos < lo.nanos) :=
    decide_eq_decide.mpr (text_lt_iff (h lo (by simp)))
  have hhi : decide (hi.rfc3339Nano < r.text) = decide (hi.nanos < r.time.nanos) :=
    decide_eq_decide.mpr (lt_text_iff (h hi (by simp)))
  have hle : (!decide (r.time.nanos < lo.nanos)) = decide (lo.nanos ≤ r.time.nanos) := by
    rw [← decide_not]
    exact decide_eq_decide.mpr Nat.not_lt
  have hge : (!decide (hi.nanos < r.time.nanos)) = decide (r.time.nanos ≤ hi.nanos) := by
    rw [← decide_not]
    exact decide_eq_decide.mpr Nat.not_lt
  have h1 : (start.all fun t => !decide (r.text < t.rfc3339Nano)) =
      start.all fun t => decide (t.nanos ≤ r.time.nanos) := by
    rcases mem_cons.mp hstart with rfl | hstart
    · rw [Option.all_none, Option.all_none]
    · rw [mem_singleton.mp hstart, Option.all_some, Option.all_some, hlo, hle]
  have h2 : (stop.all fun t => !decide (t.rfc3339Nano < r.text)) =
      stop.all fun t => decide (r.time.nanos ≤ t.nanos) := by
    rcases mem_cons.mp hstop with rfl | hstop
    · rw [Option.all_none, Option.all_none]
    · rw [mem_singleton.mp hstop, Option.all_some, Option.all_some, hhi, hge]
  rw [textInside, inside, h1, h2]

theorem minRow_mem {rows : List Row} {m : Row} (h : minRow rows = some m) : m ∈ rows := by
  induction rows generalizing m with
  | nil => cases h
  | cons r rows ih =>
    rw [minRow] at h
    cases hm : minRow rows with
    | none =>
      rw [hm] at h
      cases h
      exact mem_cons_self
    | some m' =>
      rw [hm] at h
      dsimp only at h
      split at h
      · cases h
        exact mem_cons_of_mem _ (ih hm)
      · cases h
        exact mem_cons_self

theorem minRow_eq_none {rows : List Row} : minRow rows = none ↔ rows = [] := by
  cases rows with
  | nil => simp [minRow]
  | cons r rows =>
    rw [minRow]
    cases minRow rows with
    | none => simp
    | some m =>
      dsimp only
      split <;> simp

theorem minRow_le {rows : List Row} (h : ∀ a ∈ rows, ∀ b ∈ rows, ¬ UtcTime.Clash a.time b.time)
    {m : Row} (hm : minRow rows = some m) : ∀ r ∈ rows, m.time.nanos ≤ r.time.nanos := by
  induction rows generalizing m with
  | nil => cases hm
  | cons r rows ih =>
    rw [minRow] at hm
    have htail : ∀ a ∈ rows, ∀ b ∈ rows, ¬ UtcTime.Clash a.time b.time :=
      fun a ha b hb => h a (mem_cons_of_mem _ ha) b (mem_cons_of_mem _ hb)
    cases hrest : minRow rows with
    | none =>
      rw [hrest] at hm
      cases hm
      rw [minRow_eq_none] at hrest
      subst hrest
      intro x hx
      rw [mem_singleton.mp hx]
    | some m' =>
      rw [hrest] at hm
      have hmin := ih htail hrest
      have hlt := text_lt_iff (h m' (mem_cons_of_mem _ (minRow_mem hrest)) r mem_cons_self)
      dsimp only at hm
      split at hm
      · rename_i hcmp
        cases hm
        have hle := hlt.mp hcmp
        intro x hx
        rcases mem_cons.mp hx with rfl | hx
        · omega
        · exact hmin x hx
      · rename_i hcmp
        cases hm
        have hle : ¬ m'.time.nanos < r.time.nanos := fun h => hcmp (hlt.mpr h)
        intro x hx
        rcases mem_cons.mp hx with rfl | hx
        · exact Nat.le_refl _
        · have := hmin x hx
          omega

end Compare

section Exactness

variable {archive store : List Row} {lo hi : UtcTime}

theorem filter_eq_iff {l : List Row} {p q : Row → Bool} : l.filter p = l.filter q ↔ ∀ r ∈ l, p r = q r := by
  constructor
  · intro h r hr
    have hmem : r ∈ l.filter p ↔ r ∈ l.filter q := by rw [h]
    rw [mem_filter, mem_filter, and_iff_right hr, and_iff_right hr] at hmem
    exact Bool.eq_iff_iff.mpr hmem
  · exact filter_congr

theorem purgeOlderThan_eq_iff {table : List Row} {t : UtcTime} :
    purgeOlderThan table t = table.filter (fun r => !decide (r.time.nanos < t.nanos)) ↔
      ∀ r ∈ table, ¬ UtcTime.Clash r.time t := by
  rw [purgeOlderThan, filter_eq_iff]
  apply forall₂_congr
  intro r _
  rw [← UtcTime.rfc3339Nano_lt_iff_lt, Bool.not_inj_iff, decide_eq_decide]
  rfl

theorem NoClash.exact (h : NoClash archive store lo hi) : Exact archive store lo hi := by
  obtain ⟨hrows, hbounds⟩ := h
  have hinside : ∀ start stop, start ∈ [none, some lo] → stop ∈ [none, some hi] → ∀ r ∈ archive,
      textInside start stop r = inside start stop r := fun start stop hstart hstop r hr =>
    textInside_eq hstart hstop fun t ht => hbounds t ht archive (by simp) r hr
  refine ⟨?_, ?_, ?_, ?_⟩
  · rintro topic start stop limit out hstart hstop ⟨rows, hnewest, rfl⟩
    have heq : historyRows archive topic start stop = archive.filter fun r =>
        sqliteLike (likePattern topic) r.topic && inside start stop r := by
      rw [historyRows, filter_eq_iff]
      intro r hr
      rw [hinside start stop hstart hstop r hr]
    rw [heq] at hnewest
    refine ⟨rows, hnewest.congr ?_, rfl⟩
    intro a ha b hb hlt
    exact (text_lt_iff (hrows a (mem_of_mem_filter ha) b (mem_of_mem_filter hb))).mpr hlt
  · intro t ht table htable
    exact (purgeOlderThan_eq_iff).mpr (hbounds t ht table htable)
  · intro start stop hstart hstop
    have heq : archive.filter (textInside start stop) = archive.filter (inside start stop) :=
      (filter_eq_iff).mpr (hinside start stop hstart hstop)
    rw [getArchiveStats, heq]
    refine ⟨rfl, ?_, ?_⟩
    · rw [Option.map_eq_none_iff, minRow_eq_none]
    · intro t₀ ht₀
      obtain ⟨m, hm, rfl⟩ := Option.map_eq_some_iff.mp ht₀
      refine ⟨⟨m, minRow_mem hm, rfl⟩, minRow_le ?_ hm⟩
      intro a ha b hb
      exact hrows a (mem_of_mem_filter ha) b (mem_of_mem_filter hb)
  · intro topics
    rw [aggregatedRows, filter_eq_iff]
    intro r hr
    rw [hinside (some lo) (some hi) (by simp) (by simp) r hr]

private theorem historyRows_all (archive : List Row) : historyRows archive [0x23] none none = archive := by
  rw [historyRows, filter_eq_self]
  intro r _
  have hpattern : likePattern [0x23] = [0x25] := rfl
  rw [hpattern, sqliteLike, like_percent]
  rfl

private theorem exists_newest_text (n : ℕ) (rows : List Row) : ∃ out, Newest Row.text n rows out :=
  exists_newest Row.text (fun _ _ _ hab hbc => List.le_trans hbc hab)
    (fun a b => (List.le_total b a)) n rows

theorem Exact.noClash (h : Exact archive store lo hi) : NoClash archive store lo hi := by
  constructor
  · intro a ha b hb hclash
    obtain ⟨rows, hrows⟩ := exists_newest_text (archive.length + 1) archive
    have hlimit : historyLimit (archive.length + 1 : ℕ) = archive.length + 1 := by
      rw [historyLimit, if_neg (by omega), Int.toNat_natCast]
    have hget : GetHistory archive [0x23] none none (archive.length + 1 : ℕ) (rows.map scanRow) := by
      refine ⟨rows, ?_, rfl⟩
      rw [historyRows_all, hlimit]
      exact hrows
    obtain ⟨rows', hrows', hsame⟩ := h.history [0x23] none none (archive.length + 1 : ℕ) _
      (by simp) (by simp) hget
    have hall : archive.filter (fun r => sqliteLike (likePattern [0x23]) r.topic && inside none none r) =
        archive := by
      rw [filter_eq_self]
      intro r _
      have hpattern : likePattern [0x23] = [0x25] := rfl
      rw [hpattern, sqliteLike, like_percent, inside, Option.all_none, Option.all_none]
      rfl
    rw [hlimit, hall] at hrows'
    have htimes : rows.map Row.time = rows'.map Row.time := by
      have := congrArg (List.map ArchivedMessage.timestamp) hsame
      rwa [map_map, map_map] at this
    have htext : Newest UtcTime.rfc3339Nano (archive.length + 1) (archive.map Row.time)
        (rows.map Row.time) := Newest.map Row.time hrows
    have hnanos : Newest UtcTime.nanos (archive.length + 1) (archive.map Row.time)
        (rows.map Row.time) := htimes ▸ Newest.map Row.time hrows'
    have hne : a.time ≠ b.time := fun heq => hclash.nanos_ne (by rw [heq])
    have hab := (UtcTime.rfc3339Nano_lt_iff).trans (by rw [if_pos hclash])
    have hba := (UtcTime.rfc3339Nano_lt_iff).trans (by rw [if_pos hclash.symm])
    have hnn := hclash.nanos_ne
    rcases htext.agree hnanos (by rw [length_map]; omega) (mem_map_of_mem ha)
      (mem_map_of_mem hb) hne with ⟨h1, h2⟩ | ⟨h1, h2⟩
    · rw [hab] at h1
      omega
    · rw [hba] at h1
      omega
  · intro t ht table htable
    exact (purgeOlderThan_eq_iff).mp (h.purge t ht table htable)

theorem mem_times_addHistory {jsonValid : Bytes → Bool} {json : Bool} {msgs : List Message}
    {t : UtcTime} : ∀ {table : List Row}, t ∈ (addHistory jsonValid json table msgs).map Row.time ↔
      t ∈ table.map Row.time ∨ t ∈ msgs.map Message.time := by
  induction msgs with
  | nil =>
    intro table
    simp [addHistory]
  | cons m msgs ih =>
    intro table
    rw [addHistory, foldl_cons, ← addHistory, ih, map_cons, mem_cons]
    split
    · rename_i hany
      obtain ⟨r, hr, hsame⟩ := any_eq_true.mp hany
      rw [Bool.and_eq_true, decide_eq_true_eq, decide_eq_true_eq] at hsame
      have htime : r.time = m.time := UtcTime.eq_of_nanos_eq ((UtcTime.rfc3339Nano_eq_iff).mp hsame.2)
      constructor
      · rintro (h | h)
        · exact .inl h
        · exact .inr (.inr h)
      · rintro (h | rfl | h)
        · exact .inl h
        · exact .inl (htime ▸ mem_map_of_mem hr)
        · exact .inr h
    · have hrow : (archiveRow jsonValid json m).time = m.time := rfl
      rw [map_append, mem_append, map_cons, map_nil, mem_singleton, hrow,
        or_assoc]

/-- Every read and purge is exact exactly when no two archived times clash and none clashes with a
bound, nor does a time in the message store. -/
theorem sqlite_times_exact_iff (jsonValid : Bytes → Bool) (json : Bool) (msgs kept : List Message)
    (lo hi : UtcTime) : Exact (addHistory jsonValid json [] msgs) (addAll [] kept) lo hi ↔
      (∀ a ∈ msgs, ∀ b ∈ msgs, ¬ UtcTime.Clash a.time b.time) ∧
        ∀ t ∈ [lo, hi], (∀ m ∈ msgs, ¬ UtcTime.Clash m.time t) ∧
          ∀ r ∈ addAll [] kept, ¬ UtcTime.Clash r.time t := by
  have hrows : ∀ P : UtcTime → Prop,
      (∀ r ∈ addHistory jsonValid json [] msgs, P r.time) ↔ ∀ m ∈ msgs, P m.time := by
    intro P
    have hmem : ∀ t, t ∈ (addHistory jsonValid json [] msgs).map Row.time ↔
        t ∈ msgs.map Message.time := by
      intro t
      rw [mem_times_addHistory, map_nil]
      simp
    have hleft : (∀ r ∈ addHistory jsonValid json [] msgs, P r.time) ↔
        ∀ t ∈ (addHistory jsonValid json [] msgs).map Row.time, P t := forall_mem_map.symm
    have hright : (∀ m ∈ msgs, P m.time) ↔ ∀ t ∈ msgs.map Message.time, P t := forall_mem_map.symm
    rw [hleft, hright]
    exact forall_congr' fun t => by rw [hmem t]
  have hiff : Exact (addHistory jsonValid json [] msgs) (addAll [] kept) lo hi ↔
      NoClash (addHistory jsonValid json [] msgs) (addAll [] kept) lo hi :=
    ⟨Exact.noClash, NoClash.exact⟩
  rw [hiff, NoClash]
  apply and_congr
  · rw [hrows fun t => ∀ b ∈ addHistory jsonValid json [] msgs, ¬ UtcTime.Clash t b.time]
    exact forall₂_congr fun a _ => hrows fun t => ¬ UtcTime.Clash a.time t
  · apply forall₂_congr
    intro t _
    rw [forall_mem_cons, forall_mem_singleton, hrows fun x => ¬ UtcTime.Clash x t]

def halfPast (nanosecond : ℕ) (h : nanosecond < 10 ^ 9) : UtcTime :=
  ⟨2024, 1, 1, 12, 30, 0, nanosecond, by decide, by decide, by decide, by decide, by decide, by decide, h⟩

/-- A message half a second after a full second is purged as older than that second. -/
theorem half_second_purged :
    let m : Message := ⟨ascii "a", halfPast 500000000 (by decide), [], 0, false, [], []⟩
    ¬ Exact (addHistory (fun _ => false) false [] [m]) (addAll [] []) (halfPast 0 (by decide))
      (halfPast 900000000 (by decide)) := by
  intro m h
  have hpurge := h.purge (halfPast 0 (by decide)) (by simp)
    (addHistory (fun _ => false) false [] [m]) (by simp)
  revert hpurge
  decide +kernel

end Exactness

end MonsterMQ.Archive
