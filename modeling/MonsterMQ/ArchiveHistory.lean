import MonsterMQ.ArchivePatterns
import MonsterMQ.ArchiveTimes
import MonsterMQ.TopicMatchersAgree

/-!
# Reading the history of a topic filter

`readHistory` and `ArchivedMessages` ask an archive for the newest messages of a `LIKE` pattern made from
the topic filter. The limit is applied to what the pattern selects.
-/

namespace MonsterMQ.Archive

open LittleEndian Auth SqlSelects UtcTimes Topics List

namespace ArchiveType

def within : ArchiveType → Option UtcTime → Option UtcTime → Row → Bool
  | .sqlite => textInside
  | .postgres => inside

/-- The rows that the statement of `GetHistory` selects. -/
def rows (type : ArchiveType) (table : List Row) (topic : Bytes) (start stop : Option UtcTime) : List Row :=
  table.filter fun r => type.like (likePattern topic) r.topic && type.within start stop r

def Ordered : ArchiveType → ℕ → List Row → List Row → Prop
  | .sqlite => Newest Row.text
  | .postgres => Newest fun r : Row => r.time.nanos

def Answers (type : ArchiveType) (table : List Row) (topic : Bytes) (start stop : Option UtcTime)
    (limit : ℤ) (out : List ArchivedMessage) : Prop :=
  ∃ l, type.Ordered (historyLimit limit) (type.rows table topic start stop) l ∧ out = l.map scanRow

end ArchiveType

/-- The parameter `limit`; nothing when it is not a number. -/
def restLimit (limit : Option ℤ) : ℤ :=
  let limit := limit.getD 1000
  if limit < 1 then 1 else if limit > 100000 then 100000 else limit

def ReadHistory (type : ArchiveType) (table : List Row) (allowed : Bytes → Bool) (topic : Bytes)
    (start stop : Option UtcTime) (limit : Option ℤ) (messages : List ArchivedMessage) : Prop :=
  ∃ found, type.Answers table topic start stop (restLimit limit) found ∧
    messages = found.filter fun m => matchFilter topic m.topic && allowed m.topic

def ArchivedMessages (type : ArchiveType) (table : List Row) (allowed : Bytes → Bool)
    (topicFilter : Bytes) (start stop : Option UtcTime) (limit : Option ℤ)
    (messages : List ArchivedMessage) : Prop :=
  allowed topicFilter = true ∧
    ∃ found, type.Answers table topicFilter start stop (limit.getD 100) found ∧
      messages = (found.take (limit.getD 100).toNat).filter fun m => allowed m.topic

def matching (table : List Row) (filter : Bytes) : List Row :=
  table.filter fun r => Matches filter r.topic

@[grind =] def AmongNewest (table : List Row) (filter : Bytes) (n : ℕ) (m : ArchivedMessage) : Prop :=
  ∃ r ∈ matching table filter, m = scanRow r ∧
    (matching table filter).countP (fun x => r.time.nanos < x.time.nanos) < n

/-- Each message whose topic the pattern of the filter reaches and the filter does not match, or the
other way round, is behind `n` newer messages that match. -/
def ReachesNewest (type : ArchiveType) (table : List Row) (filter : Bytes) (n : ℕ) : Prop :=
  ∀ r ∈ table, ¬ (Reaches type filter r.topic ↔ Matches filter r.topic) →
    n ≤ (matching table filter).countP fun x => r.time.nanos < x.time.nanos

/-- In SQLite, no times of the archive clash with each other or with a bound of the range. -/
def ArchiveType.TimesApart : ArchiveType → List Row → Option UtcTime → Option UtcTime → Prop
  | .sqlite, table, start, stop => (∀ a ∈ table, ∀ b ∈ table, ¬ UtcTime.Clash a.time b.time) ∧
      ∀ t ∈ start.toList ++ stop.toList, ∀ r ∈ table, ¬ UtcTime.Clash r.time t
  | .postgres, _, _, _ => True

section Newest

variable {table : List Row}

theorem row_eq_of_time (hdist : table.Pairwise fun a b => a.time.nanos ≠ b.time.nanos) {a b : Row}
    (ha : a ∈ table) (hb : b ∈ table) (h : a.time.nanos = b.time.nanos) : a = b := by
  by_contra hne
  rcases pairwise_or hdist ha hb hne with hab | hba
  · exact hab h
  · exact hba h.symm

section

variable (hdist : table.Pairwise fun a b => a.time.nanos ≠ b.time.nanos)
include hdist

theorem table_nodup : table.Nodup :=
  hdist.imp fun hne heq => hne (by rw [heq])

theorem mem_map_scanRow {l : List Row} (hl : l ⊆ table) {r : Row} (hr : r ∈ table) :
    scanRow r ∈ l.map scanRow ↔ r ∈ l := by
  constructor
  · intro h
    obtain ⟨x, hx, heq⟩ := mem_map.mp h
    have htime : x.time = r.time := congrArg ArchivedMessage.timestamp heq
    exact row_eq_of_time hdist (hl hx) hr (by rw [htime]) ▸ hx
  · exact mem_map_of_mem

theorem forall_mem_map_iff {l l' : List Row} (hl : l ⊆ table) (hl' : l' ⊆ table) :
    (∀ m, m ∈ l.map scanRow ↔ m ∈ l'.map scanRow) ↔ ∀ r, r ∈ l ↔ r ∈ l' := by
  constructor
  · intro h r
    constructor
    · intro hr
      exact (mem_map_scanRow hdist hl' (hl hr)).mp ((h _).mp (mem_map_of_mem hr))
    · intro hr
      exact (mem_map_scanRow hdist hl (hl' hr)).mp ((h _).mpr (mem_map_of_mem hr))
  · intro h m
    rw [mem_map, mem_map]
    exact exists_congr fun r => by rw [h r]

end

variable {selected outS : List Row}

theorem ArchiveType.Ordered.subset {type : ArchiveType} {n : ℕ}
    (hS : type.Ordered n selected outS) : outS ⊆ selected := by
  cases type with
  | sqlite | postgres => exact Newest.subset hS

theorem ArchiveType.Ordered.length_le {type : ArchiveType} {n : ℕ}
    (hS : type.Ordered n selected outS) : outS.length ≤ n := by
  cases type with
  | sqlite | postgres => exact (Newest.length hS).trans_le (Nat.min_le_left _ _)

theorem textInside_of_inside {r : Row} {start stop : Option UtcTime} (hin : inside start stop r = true)
    (h : ∀ t ∈ start.toList ++ stop.toList, ¬ UtcTime.Clash r.time t) : textInside start stop r = true := by
  rw [inside, Bool.and_eq_true] at hin
  obtain ⟨hstart, hstop⟩ := hin
  rw [textInside, Bool.and_eq_true]
  constructor
  · cases start with
    | none => rfl
    | some t =>
      rw [Option.all_some, decide_eq_true_iff] at hstart
      rw [Option.all_some, Bool.not_eq_true', decide_eq_false_iff_not, text_lt_iff (h t (by simp))]
      exact Nat.not_lt.mpr hstart
  · cases stop with
    | none => rfl
    | some t =>
      rw [Option.all_some, decide_eq_true_iff] at hstop
      rw [Option.all_some, Bool.not_eq_true', decide_eq_false_iff_not, lt_text_iff (h t (by simp))]
      exact Nat.not_lt.mpr hstop

variable {type : ArchiveType} {filter : Bytes} {start stop : Option UtcTime}

/-- Inside the range, the statement selects the rows whose topics the filter reaches. -/
theorem ArchiveType.rows_eq (hapart : type.TimesApart table start stop)
    (hin : ∀ r ∈ table, inside start stop r = true) :
    type.rows table filter start stop = table.filter fun r => Reaches type filter r.topic := by
  rw [ArchiveType.rows]
  apply filter_congr
  intro r hr
  have hwithin : type.within start stop r = true := by
    cases type with
    | sqlite => exact textInside_of_inside (hin r hr) fun t ht => hapart.2 t ht r hr
    | postgres => exact hin r hr
  rw [hwithin, Bool.and_true, Bool.eq_iff_iff, decide_eq_true_iff]
  exact like_likePattern_iff type filter r.topic

theorem ArchiveType.Ordered.newest {n : ℕ} (hS : type.Ordered n selected outS)
    (hapart : type.TimesApart table start stop) (hsub : selected ⊆ table) :
    Newest (fun r : Row => r.time.nanos) n selected outS := by
  cases type with
  | sqlite =>
    apply Newest.congr hS
    intro a ha b hb hlt
    exact (text_lt_iff (hapart.1 a (hsub ha) b (hsub hb))).mpr hlt
  | postgres => exact hS

end Newest

section Interfaces

variable {type : ArchiveType} {table : List Row} {filter : Bytes} {start stop : Option UtcTime}
  {n : ℕ} {allowed : Bytes → Bool} {rest graphql : List ArchivedMessage}

theorem amongNewest_iff (hdist : table.Pairwise fun a b => a.time.nanos ≠ b.time.nanos)
    {outM : List Row} (hM : Newest (fun r : Row => r.time.nanos) n (matching table filter) outM)
    (m : ArchivedMessage) : AmongNewest table filter n m ↔ m ∈ outM.map scanRow := by
  have hsub : (matching table filter).Pairwise fun a b => a.time.nanos ≠ b.time.nanos :=
    hdist.sublist filter_sublist
  have hmem := hM.mem_iff (fun _ _ => Nat.lt_asymm) (table_nodup hsub)
    (fun a ha b hb hne => Nat.lt_or_gt_of_ne fun h => hne (row_eq_of_time hsub ha hb h))
  rw [AmongNewest, mem_map]
  apply exists_congr
  intro r
  rw [hmem]
  constructor
  · rintro ⟨hr, rfl, hcount⟩
    exact ⟨⟨hr, hcount⟩, rfl⟩
  · rintro ⟨⟨hr, hcount⟩, rfl⟩
    exact ⟨hr, rfl, hcount⟩

private theorem restLimit_some (hn : 1 ≤ n ∧ n ≤ 100000) : restLimit (some (n : ℤ)) = n := by
  rw [restLimit, Option.getD_some]
  rw [if_neg (by omega), if_neg (by omega)]

theorem historyLimit_natCast (hn : 1 ≤ n) : historyLimit (n : ℤ) = n := by
  rw [historyLimit, if_neg (by omega), Int.toNat_natCast]

theorem ReadHistory.rows (hn : 1 ≤ n ∧ n ≤ 100000) (hallowed : ∀ topic, allowed topic = true)
    (h : ReadHistory type table allowed filter start stop (some n) rest) :
    ∃ l, type.Ordered n (type.rows table filter start stop) l ∧
      rest = (l.filter fun r => matchFilter filter r.topic).map scanRow := by
  obtain ⟨found, ⟨l, hl, rfl⟩, rfl⟩ := h
  rw [restLimit_some hn, historyLimit_natCast hn.1] at hl
  refine ⟨l, hl, ?_⟩
  rw [filter_map]
  congr 1
  apply filter_congr
  intro r _
  simp [scanRow, hallowed]

theorem ArchivedMessages.rows (hn : 1 ≤ n ∧ n ≤ 100000) (hallowed : ∀ topic, allowed topic = true)
    (h : ArchivedMessages type table allowed filter start stop (some n) graphql) :
    ∃ l, type.Ordered n (type.rows table filter start stop) l ∧ graphql = l.map scanRow := by
  obtain ⟨-, found, ⟨l, hl, rfl⟩, rfl⟩ := h
  rw [Option.getD_some, historyLimit_natCast hn.1] at hl
  refine ⟨l, hl, ?_⟩
  rw [Option.getD_some, Int.toNat_natCast, filter_eq_self.mpr fun m _ => hallowed m.topic]
  exact take_of_length_le ((length_map scanRow).trans_le hl.length_le)

private theorem exists_newest_time (n : ℕ) (rows : List Row) :
    ∃ out, Newest (fun r : Row => r.time.nanos) n rows out := by
  apply exists_newest
  · intro a b c hab hbc
    omega
  · intro a b
    omega

theorem mem_matching {r : Row} : r ∈ matching table filter ↔ r ∈ table ∧ Matches filter r.topic := by
  rw [matching, mem_filter, decide_eq_true_iff]

/-- Both interfaces answer exactly the newest messages of the filter if and only if no message on
whose topic the pattern and the filter differ is among them or newer than one of them. -/
theorem history_newest_iff (hfilter : ValidFilter filter) (htopics : ∀ r ∈ table, ValidTopic r.topic)
    (hdist : table.Pairwise fun a b => a.time.nanos ≠ b.time.nanos)
    (hin : ∀ r ∈ table, inside start stop r = true) (hapart : type.TimesApart table start stop)
    (hn : 1 ≤ n ∧ n ≤ 100000) (hallowed : ∀ topic, allowed topic = true)
    (hrest : ReadHistory type table allowed filter start stop (some n) rest)
    (hgraphql : ArchivedMessages type table allowed filter start stop (some n) graphql) :
    ((∀ m, m ∈ rest ↔ AmongNewest table filter n m) ∧
      ∀ m, m ∈ graphql ↔ AmongNewest table filter n m) ↔ ReachesNewest type table filter n := by
  obtain ⟨outS, hS, rfl⟩ := hrest.rows hn hallowed
  obtain ⟨outS', hS', rfl⟩ := hgraphql.rows hn hallowed
  obtain ⟨outM, hM⟩ := exists_newest_time n (matching table filter)
  have hsel : type.rows table filter start stop ⊆ table := filter_subset_self _
  have hmat : matching table filter ⊆ table := filter_subset_self _
  have hnS : (type.rows table filter start stop).Nodup :=
    table_nodup (hdist.sublist filter_sublist)
  have hnM : (matching table filter).Nodup := table_nodup (hdist.sublist filter_sublist)
  have hinj : ∀ l : List Row, l ⊆ table → ∀ a ∈ l, ∀ b ∈ l, a.time.nanos = b.time.nanos → a = b :=
    fun l hl a ha b hb => row_eq_of_time hdist (hl ha) (hl hb)
  have hS := hS.newest hapart hsel
  have hS' := hS'.newest hapart hsel
  have hsame : ∀ r, r ∈ outS ↔ r ∈ outS' := fun r => by
    rw [hS.mem_iff_of_inj hnS (hinj _ hsel), hS'.mem_iff_of_inj hnS (hinj _ hsel)]
  have hp : ∀ r ∈ matching table filter, matchFilter filter r.topic = true := by
    intro r hr
    exact (matchFilter_iff hfilter.whole (htopics r (hmat hr)).concrete).mpr (mem_matching.mp hr).2
  simp only [amongNewest_iff hdist hM]
  rw [forall_mem_map_iff hdist (fun r hr => hsel (hS.subset (mem_of_mem_filter hr)))
      (fun r hr => hmat (hM.subset hr)),
    forall_mem_map_iff hdist (fun r hr => hsel (hS'.subset hr)) (fun r hr => hmat (hM.subset hr))]
  have hrest : (∀ r, r ∈ outS' ↔ r ∈ outM) →
      ∀ r, r ∈ outS.filter (fun r => matchFilter filter r.topic) ↔ r ∈ outM := by
    intro h r
    rw [mem_filter, hsame, h]
    exact and_iff_left_of_imp fun hr => hp r (hM.subset hr)
  rw [and_iff_right_of_imp hrest, newest_eq_iff hS' hM hnS hnM (hinj _ hsel) (hinj _ hmat)]
  rw [ReachesNewest, type.rows_eq hapart hin]
  apply forall_congr'
  intro r
  rw [mem_filter, decide_eq_true_iff, mem_matching]
  by_cases hr : r ∈ table
  · simp only [hr, true_and, true_implies]
  · simp only [hr, false_and, not_true_eq_false, false_implies]

end Interfaces

section TwoRows

def rowAt (topic : Bytes) (nanosecond : ℕ) (h : nanosecond < 10 ^ 9) : Row :=
  ⟨topic, halfPast nanosecond h, [], none, 0, false, [], []⟩

def twoRows (older newer : Bytes) : List Row :=
  [rowAt older 100000000 (by decide), rowAt newer 200000000 (by decide)]

theorem ascii_ab : ascii "a/b" = [0x61, 0x2F, 0x62] := ascii_eq rfl

theorem ascii_aplus : ascii "a/+" = [0x61, 0x2F, 0x2B] := ascii_eq rfl

theorem ascii_abc : ascii "a/b/c" = [0x61, 0x2F, 0x62, 0x2F, 0x63] := ascii_eq rfl

/-- An older message of a topic that the pattern selects as well does no harm. -/
theorem older_topic_newest : ∃ rest graphql,
    ReadHistory .sqlite (twoRows (ascii "a/b/c") (ascii "a/b")) (fun _ => true) (ascii "a/+") none none
      (some 1) rest ∧
    ArchivedMessages .sqlite (twoRows (ascii "a/b/c") (ascii "a/b")) (fun _ => true) (ascii "a/+") none
      none (some 1) graphql ∧
    (∀ m, m ∈ rest ↔ AmongNewest (twoRows (ascii "a/b/c") (ascii "a/b")) (ascii "a/+") 1 m) ∧
    ∀ m, m ∈ graphql ↔ AmongNewest (twoRows (ascii "a/b/c") (ascii "a/b")) (ascii "a/+") 1 m := by
  rw [ascii_abc, ascii_ab, ascii_aplus]
  have hfound : ArchiveType.sqlite.Answers (twoRows [0x61, 0x2F, 0x62, 0x2F, 0x63] [0x61, 0x2F, 0x62])
      [0x61, 0x2F, 0x2B] none none 1 [scanRow (rowAt [0x61, 0x2F, 0x62] 200000000 (by decide))] := by
    refine ⟨[rowAt [0x61, 0x2F, 0x62] 200000000 (by decide)], ⟨_, List.Perm.swap _ _ [], ?_, ?_⟩, rfl⟩
    · decide
    · decide
  have hrest := (show ReadHistory .sqlite _ (fun _ => true) _ none none (some (1 : ℕ)) _ from
    ⟨_, hfound, rfl⟩)
  have hgraphql := (show ArchivedMessages .sqlite _ (fun _ => true) _ none none (some (1 : ℕ)) _ from
    ⟨rfl, _, hfound, rfl⟩)
  refine ⟨_, _, hrest, hgraphql, (history_newest_iff
    ⟨(validName_iff).mp (by decide), wholeLevels_of_valid (by decide)⟩ ?_ ?_ ?_ ?_ (by decide)
    (fun _ => rfl) hrest hgraphql).mpr ?_⟩
  · intro r hr
    rcases mem_pair.mp hr with rfl | rfl
    · exact ⟨(validName_iff).mp (by decide), by decide⟩
    · exact ⟨(validName_iff).mp (by decide), by decide⟩
  · decide +kernel
  · exact fun r _ => rfl
  · refine ⟨by decide +kernel, fun t ht => absurd ht not_mem_nil⟩
  · rw [ReachesNewest]
    decide +kernel

/-- The pattern of `a/+` selects a newer message of `a/b/c`: the message of `a/b` is in neither
answer. -/
theorem deeper_topic_hides : ValidFilter (ascii "a/+") ∧
    (∀ r ∈ twoRows (ascii "a/b") (ascii "a/b/c"), ValidTopic r.topic ∧ inside none none r = true) ∧
    (twoRows (ascii "a/b") (ascii "a/b/c")).Pairwise (fun a b => a.time.nanos ≠ b.time.nanos) ∧
    AmongNewest (twoRows (ascii "a/b") (ascii "a/b/c")) (ascii "a/+") 1
      (scanRow (rowAt (ascii "a/b") 100000000 (by decide))) ∧
    ReadHistory .sqlite (twoRows (ascii "a/b") (ascii "a/b/c")) (fun _ => true) (ascii "a/+") none none
      (some 1) [] ∧
    ArchivedMessages .sqlite (twoRows (ascii "a/b") (ascii "a/b/c")) (fun _ => true) (ascii "a/+") none
      none (some 1) [scanRow (rowAt (ascii "a/b/c") 200000000 (by decide))] := by
  rw [ascii_abc, ascii_ab, ascii_aplus]
  have hfound : ArchiveType.sqlite.Answers (twoRows [0x61, 0x2F, 0x62] [0x61, 0x2F, 0x62, 0x2F, 0x63])
      [0x61, 0x2F, 0x2B] none none 1
      [scanRow (rowAt [0x61, 0x2F, 0x62, 0x2F, 0x63] 200000000 (by decide))] := by
    refine ⟨[rowAt [0x61, 0x2F, 0x62, 0x2F, 0x63] 200000000 (by decide)],
      ⟨_, List.Perm.swap _ _ [], ?_, ?_⟩, rfl⟩
    · decide
    · decide
  refine ⟨⟨(validName_iff).mp (by decide), wholeLevels_of_valid (by decide)⟩, ?_, by decide +kernel, ?_,
    ⟨_, hfound, by decide⟩, ⟨rfl, _, hfound, by decide⟩⟩
  · intro r hr
    rcases mem_pair.mp hr with rfl | rfl
    · exact ⟨⟨(validName_iff).mp (by decide), by decide⟩, by decide⟩
    · exact ⟨⟨(validName_iff).mp (by decide), by decide⟩, by decide⟩
  · rw [AmongNewest]
    decide +kernel

end TwoRows

end MonsterMQ.Archive
