import MonsterMQ.KafkaFetch
import Mathlib.Data.List.Perm.Subperm

/-!
# Offsets of a stream

The high watermark and the latest offset are one more than the largest offset in the queue. A fetch reads
the watermark first and the records in a later query; a run also stores and deletes records.
-/

namespace MonsterMQ.Kafka

open LittleEndian StateRuns List

/-- The offset that the next record gets, from the rows that are left. -/
def QueueTable.latest (t : QueueTable) : ℕ := t.getLatestOffset + 1

structure Report where
  number : ℕ
  count : ℕ
  deriving DecidableEq, Repr

structure OpenFetch where
  start : ℤ
  hwm : ℕ
  deriving DecidableEq, Repr

structure FetchAnswer where
  start : ℤ
  hwm : ℕ
  entries : List QueueRow
  deriving DecidableEq, Repr

/-- A consumer that continues at the last received offset + 1. `gone` are the records that the queue
did not have any more when the consumer passed them; `caughtUp` is how many records had been stored at
its last page that was not full. -/
structure Follower where
  next : ℕ
  hwm : Option ℕ
  received : List QueueRow
  gone : List QueueRow
  caughtUp : ℕ
  deriving DecidableEq, Repr

structure OffsetState where
  table : QueueTable
  stored : List QueueRow
  /-- The records that `pruneExpired` has deleted. -/
  pruned : List QueueRow
  reports : List Report
  fetches : List OpenFetch
  answers : List FetchAnswer
  follower : Follower

namespace OffsetState

def new : OffsetState := ⟨.empty, [], [], [], [], [], ⟨0, none, [], [], 0⟩⟩

def page (s : OffsetState) (start : ℤ) : List QueueRow := s.table.fetch start fetchRowLimit

def report (s : OffsetState) : OffsetState :=
  { s with reports := s.reports ++ [⟨s.table.latest, s.stored.length⟩] }

def behind (next : ℕ) (page : List QueueRow) : ℕ := (page.getLast?.map fun r => r.offset + 1).getD next

def receive (s : OffsetState) : Follower :=
  let page := s.page s.follower.next
  let next := behind s.follower.next page
  { next := next
    hwm := none
    received := s.follower.received ++ page
    gone := s.follower.gone ++ s.stored.filter fun r =>
      s.follower.next ≤ r.offset && r.offset < next && r ∉ s.table.rows
    caughtUp := if page.length < fetchRowLimit then s.stored.length else s.follower.caughtUp }

end OffsetState

inductive OffsetEvent where
  | enqueue (msgs : List Message)
  | pruneExpired (olderThan : ℕ)
  | listOffsets
  | watermark (start : ℤ)
  | records (i : ℕ)
  | pollWatermark
  | pollRecords

namespace OffsetState

def step (s : OffsetState) : OffsetEvent → OffsetState
  | .enqueue msgs =>
    { s with table := s.table.enqueue msgs, stored := s.stored ++ numbered (s.table.last + 1) msgs }
  | .pruneExpired olderThan =>
    { s with
      table := s.table.pruneExpired olderThan
      pruned := s.pruned ++ s.table.rows.filter fun r => r.message.time < olderThan }
  | .listOffsets => s.report
  | .watermark start =>
    { s.report with fetches := s.fetches ++ [⟨start, s.table.latest⟩] }
  | .records i =>
    match s.fetches[i]? with
    | none => s
    | some f =>
      { s with fetches := s.fetches.eraseIdx i, answers := s.answers ++ [⟨f.start, f.hwm, s.page f.start⟩] }
  | .pollWatermark =>
    match s.follower.hwm with
    | some _ => s
    | none =>
      { s.report with
        follower := { s.follower with hwm := some s.table.latest } }
  | .pollRecords =>
    match s.follower.hwm with
    | none => s
    | some hwm =>
      { s with answers := s.answers ++ [⟨s.follower.next, hwm, s.page s.follower.next⟩], follower := s.receive }

structure OffsetsRight (s : OffsetState) : Prop where
  monotone : s.reports.Pairwise fun a b => a.number ≤ b.number
  above : ∀ rep ∈ s.reports, ∀ r ∈ s.stored.take rep.count, r.offset < rep.number
  below : ∀ rep ∈ s.reports, ∀ r ∈ s.stored.drop rep.count, rep.number ≤ r.offset
  inside : ∀ a ∈ s.answers, ∀ r ∈ a.entries, a.start ≤ r.offset ∧ r.offset ≤ a.hwm
  increasing : ∀ a ∈ s.answers, a.entries.Pairwise fun a b => a.offset < b.offset
  once : s.follower.received.Pairwise fun a b => a.offset < b.offset
  passed : ∀ r ∈ s.stored, r.offset < s.follower.next → r ∈ s.follower.received ∨ r ∈ s.follower.gone
  gone : ∀ r ∈ s.follower.gone, r ∈ s.pruned
  all : ∀ r ∈ s.stored.take s.follower.caughtUp, r ∈ s.follower.received ∨ r ∈ s.follower.gone

/-- The page from the offset lies below the watermark: no record that was stored after it was read has a
place in it. -/
def PageBelow (s : OffsetState) (start : ℤ) (hwm : ℕ) : Prop :=
  (∀ r ∈ s.table.rows, start ≤ r.offset → r.offset ≤ hwm) ∨
    fetchRowLimit ≤ (s.table.rows.filter fun r => start ≤ r.offset && r.offset ≤ hwm).length
deriving Decidable

/-- The condition on a step: a prune leaves the newest record, and when a fetch reads its records, at
most one has been stored since it read the watermark, or the page is filled by the ones before. -/
def Careful (s : OffsetState) : OffsetEvent → Prop
  | .pruneExpired olderThan => ∀ r ∈ s.table.rows, r.offset = s.table.last → ¬ r.message.time < olderThan
  | .records i => ∀ f ∈ s.fetches[i]?, s.PageBelow f.start f.hwm
  | .pollRecords => ∀ hwm ∈ s.follower.hwm, s.PageBelow s.follower.next hwm
  | .enqueue _ => True
  | .listOffsets => True
  | .watermark _ => True
  | .pollWatermark => True

instance decidableCareful (s : OffsetState) : ∀ e, Decidable (s.Careful e)
  | .pruneExpired olderThan => inferInstanceAs (Decidable (∀ r ∈ s.table.rows, r.offset = s.table.last →
      ¬ r.message.time < olderThan))
  | .records i => inferInstanceAs (Decidable (∀ f ∈ s.fetches[i]?, s.PageBelow f.start f.hwm))
  | .pollRecords => inferInstanceAs (Decidable (∀ hwm ∈ s.follower.hwm, s.PageBelow s.follower.next hwm))
  | .enqueue _ => .isTrue trivial
  | .listOffsets => .isTrue trivial
  | .watermark _ => .isTrue trivial
  | .pollWatermark => .isTrue trivial

def Numbered (stored : List QueueRow) : Prop := ∀ (i : ℕ) (r : QueueRow), stored[i]? = some r → r.offset = i + 1

structure Invariant (s : OffsetState) : Prop where
  newest : 0 < s.table.last → ∃ r ∈ s.table.rows, r.offset = s.table.last
  count : s.stored.length = s.table.last
  numbers : Numbered s.stored
  held : ∀ r ∈ s.table.rows, r ∈ s.stored
  kept : ∀ r ∈ s.stored, r ∈ s.table.rows ∨ r ∈ s.pruned
  gone : ∀ r ∈ s.follower.gone, r ∈ s.pruned
  reports : ∀ rep ∈ s.reports, rep.number = rep.count + 1 ∧ rep.count ≤ s.table.last
  monotone : s.reports.Pairwise fun a b => a.number ≤ b.number
  inside : ∀ a ∈ s.answers, ∀ r ∈ a.entries, a.start ≤ r.offset ∧ r.offset ≤ a.hwm
  increasing : ∀ a ∈ s.answers, a.entries.Pairwise fun a b => a.offset < b.offset
  ahead : s.follower.next ≤ s.table.last + 1
  received : ∀ r ∈ s.follower.received, r.offset < s.follower.next
  once : s.follower.received.Pairwise fun a b => a.offset < b.offset
  passed : ∀ r ∈ s.stored, r.offset < s.follower.next → r ∈ s.follower.received ∨ r ∈ s.follower.gone
  caught : s.follower.caughtUp < s.follower.next ∨ s.follower.caughtUp = 0

theorem offset_of_mem_take {stored : List QueueRow} (h : Numbered stored) {k : ℕ} {r : QueueRow}
    (hr : r ∈ stored.take k) : r.offset ≤ k := by
  obtain ⟨i, hi⟩ := mem_iff_getElem?.mp hr
  rw [List.getElem?_take] at hi
  split at hi
  · rename_i hlt
    have := h i r hi
    omega
  · cases hi

private theorem offset_of_mem_drop {stored : List QueueRow} (h : Numbered stored) {k : ℕ} {r : QueueRow}
    (hr : r ∈ stored.drop k) : k < r.offset := by
  obtain ⟨i, hi⟩ := mem_iff_getElem?.mp hr
  rw [List.getElem?_drop] at hi
  have := h (k + i) r hi
  omega

theorem Invariant.right {s : OffsetState} (h : s.Invariant) : s.OffsetsRight where
  monotone := h.monotone
  above := by
    intro rep hrep r hr
    have hle := offset_of_mem_take h.numbers hr
    have hnum := h.reports rep hrep
    omega
  below := by
    intro rep hrep r hr
    have hlt := offset_of_mem_drop h.numbers hr
    have hnum := h.reports rep hrep
    omega
  inside := h.inside
  increasing := h.increasing
  once := h.once
  passed := h.passed
  gone := h.gone
  all := by
    intro r hr
    have hle := offset_of_mem_take h.numbers hr
    apply h.passed r (mem_of_mem_take hr)
    rcases h.caught with hlt | hzero
    · omega
    · rw [hzero] at hr
      cases hr

theorem new_invariant : new.Invariant where
  newest := fun h => absurd h (by decide)
  count := rfl
  numbers := fun i r h => by cases h
  held := fun r h => absurd h not_mem_nil
  kept := fun r h => absurd h not_mem_nil
  gone := fun r h => absurd h not_mem_nil
  reports := fun rep h => absurd h not_mem_nil
  monotone := List.Pairwise.nil
  inside := fun a h => absurd h not_mem_nil
  increasing := fun a h => absurd h not_mem_nil
  ahead := Nat.zero_le _
  received := fun r h => absurd h not_mem_nil
  once := List.Pairwise.nil
  passed := fun r h => absurd h not_mem_nil
  caught := .inr rfl

theorem numbered_getElem? (msgs : List Message) : ∀ (k i : ℕ),
    (numbered k msgs)[i]? = msgs[i]?.map fun m => ⟨k + i, m⟩ := by
  induction msgs with
  | nil => exact fun _ _ => rfl
  | cons m msgs ih =>
    intro k i
    cases i with
    | zero => rfl
    | succ i =>
      rw [numbered, List.getElem?_cons_succ, ih, List.getElem?_cons_succ]
      congr 1
      funext m
      rw [Nat.add_right_comm, Nat.add_assoc]

private theorem numbered_append {stored : List QueueRow} (h : Numbered stored) {k : ℕ}
    (hk : stored.length = k) (msgs : List Message) : Numbered (stored ++ numbered (k + 1) msgs) := by
  intro i r hi
  rw [List.getElem?_append] at hi
  split at hi
  · exact h i r hi
  · rw [numbered_getElem?] at hi
    obtain ⟨m, -, rfl⟩ := Option.map_eq_some_iff.mp hi
    dsimp only
    omega

theorem nodup_of_offsets {l : List QueueRow} (h : l.Pairwise fun a b => a.offset < b.offset) : l.Nodup :=
  h.imp fun hlt heq => by rw [heq] at hlt; exact Nat.lt_irrefl _ hlt

theorem PageBelow.inside {s : OffsetState} {start : ℤ} {hwm : ℕ} (h : s.PageBelow start hwm) :
    ∀ r ∈ s.page start, start ≤ r.offset ∧ r.offset ≤ hwm := by
  intro r hr
  obtain ⟨hrow, hstart⟩ := QueueTable.mem_of_mem_fetch hr
  refine ⟨hstart, ?_⟩
  rcases h with hall | hfull
  · exact hall r hrow hstart
  · by_contra hlt
    have hnot : r ∉ s.table.rows.filter fun r => start ≤ r.offset && r.offset ≤ hwm := by
      intro hmem
      have hle := (mem_filter.mp hmem).2
      simp only [Bool.and_eq_true, decide_eq_true_eq] at hle
      exact hlt hle.2
    have hnodup : (r :: s.table.rows.filter fun r => start ≤ r.offset && r.offset ≤ hwm).Nodup :=
      nodup_cons.mpr ⟨hnot, nodup_of_offsets (s.table.sorted.filter _)⟩
    have hsub : (r :: s.table.rows.filter fun r => start ≤ r.offset && r.offset ≤ hwm) ⊆ s.page start := by
      intro x hx
      rcases mem_cons.mp hx with rfl | hx
      · exact hr
      · obtain ⟨hxrow, hx⟩ := mem_filter.mp hx
        simp only [Bool.and_eq_true, decide_eq_true_eq] at hx
        exact QueueTable.mem_fetch_of_le hr hxrow hx.1 (by omega)
    have hlen := (subperm_of_subset hnodup hsub).length_le
    have hpage : (s.page start).length ≤ fetchRowLimit := length_take_le _ _
    rw [length_cons] at hlen
    omega

theorem behind_cases (next : ℕ) (page : List QueueRow) :
    (page = [] ∧ behind next page = next) ∨ ∃ x ∈ page, page.getLast? = some x ∧
      behind next page = x.offset + 1 := by
  cases hlast : page.getLast? with
  | none => exact .inl ⟨List.getLast?_eq_none_iff.mp hlast, by rw [behind, hlast]; rfl⟩
  | some x => exact .inr ⟨x, mem_of_getLast? hlast, rfl, by rw [behind, hlast]; rfl⟩

theorem offset_le_last {page : List QueueRow} (h : page.Pairwise fun a b => a.offset < b.offset)
    {x r : QueueRow} (hx : page.getLast? = some x) (hr : r ∈ page) : r.offset ≤ x.offset := by
  obtain ⟨ys, rfl⟩ := List.getLast?_eq_some_iff.mp hx
  rcases mem_append.mp hr with hr | hr
  · exact Nat.le_of_lt ((pairwise_append.mp h).2.2 r hr x (mem_singleton_self x))
  · rw [mem_singleton.mp hr]

theorem next_le_receive (s : OffsetState) : s.follower.next ≤ s.receive.next := by
  rcases behind_cases s.follower.next (s.page s.follower.next) with ⟨-, heq⟩ | ⟨x, hx, -, heq⟩
  · exact heq.ge
  · have hstart := (QueueTable.mem_of_mem_fetch hx).2
    change s.follower.next ≤ behind s.follower.next (s.page s.follower.next)
    omega

section Steps

variable {s : OffsetState} (h : s.Invariant)

include h

theorem enqueue_invariant (msgs : List Message) : (s.step (.enqueue msgs)).Invariant where
  newest := by
    intro hpos
    change 0 < s.table.last + msgs.length at hpos
    change ∃ r ∈ s.table.rows ++ numbered (s.table.last + 1) msgs, r.offset = s.table.last + msgs.length
    rcases Nat.eq_zero_or_pos msgs.length with hzero | hmsgs
    · rw [hzero] at hpos ⊢
      obtain ⟨r, hr, hoff⟩ := h.newest hpos
      exact ⟨r, mem_append_left _ hr, hoff⟩
    · have hlt : msgs.length - 1 < msgs.length := by omega
      refine ⟨⟨s.table.last + 1 + (msgs.length - 1), msgs[msgs.length - 1]⟩,
        mem_append_right _ (mem_iff_getElem?.mpr ⟨msgs.length - 1, ?_⟩), ?_⟩
      · rw [numbered_getElem?, List.getElem?_eq_getElem hlt]
        rfl
      · dsimp only
        omega
  count := by
    change (s.stored ++ numbered (s.table.last + 1) msgs).length = s.table.last + msgs.length
    rw [length_append, numbered_length, h.count]
  numbers := numbered_append h.numbers h.count msgs
  held := by
    intro r hr
    rcases mem_append.mp hr with hr | hr
    · exact mem_append_left _ (h.held r hr)
    · exact mem_append_right _ hr
  kept := by
    intro r hr
    rcases mem_append.mp hr with hr | hr
    · exact (h.kept r hr).imp_left (mem_append_left _)
    · exact .inl (mem_append_right _ hr)
  gone := h.gone
  reports := by
    intro rep hrep
    have hnum := h.reports rep hrep
    exact ⟨hnum.1, hnum.2.trans (Nat.le_add_right _ _)⟩
  monotone := h.monotone
  inside := h.inside
  increasing := h.increasing
  ahead := h.ahead.trans (Nat.add_le_add_right (Nat.le_add_right _ _) 1)
  received := h.received
  once := h.once
  passed := by
    intro r hr hlt
    rcases mem_append.mp hr with hr | hr
    · exact h.passed r hr hlt
    · have hnew := offset_of_mem_numbered hr
      have hahead := h.ahead
      change r.offset < s.follower.next at hlt
      omega
  caught := h.caught

theorem pruneExpired_invariant {olderThan : ℕ} (hq : s.Careful (.pruneExpired olderThan)) :
    (s.step (.pruneExpired olderThan)).Invariant where
  newest := by
    intro hpos
    obtain ⟨r, hr, hoff⟩ := h.newest hpos
    have hstay : ¬ r.message.time < olderThan := hq r hr hoff
    exact ⟨r, mem_filter.mpr ⟨hr, by simpa using hstay⟩, hoff⟩
  count := h.count
  numbers := h.numbers
  held := fun r hr => h.held r (mem_of_mem_filter hr)
  kept := by
    intro r hr
    by_cases hold : r.message.time < olderThan
    · exact .inr ((h.kept r hr).elim (fun hrow => mem_append_right _ (mem_filter.mpr ⟨hrow, by simpa using hold⟩))
        (mem_append_left _))
    · exact (h.kept r hr).imp (fun hrow => mem_filter.mpr ⟨hrow, by simpa using hold⟩) (mem_append_left _)
  gone := fun r hr => mem_append_left _ (h.gone r hr)
  reports := h.reports
  monotone := h.monotone
  inside := h.inside
  increasing := h.increasing
  ahead := h.ahead
  received := h.received
  once := h.once
  passed := h.passed
  caught := h.caught

theorem report_invariant : s.report.Invariant where
  newest := h.newest
  count := h.count
  numbers := h.numbers
  held := h.held
  kept := h.kept
  gone := h.gone
  reports := by
    intro rep hrep
    rcases mem_append.mp hrep with hrep | hrep
    · exact h.reports rep hrep
    · rw [mem_singleton.mp hrep]
      refine ⟨?_, h.count.le⟩
      rw [QueueTable.latest, QueueTable.getLatestOffset_eq h.newest, h.count]
  monotone := by
    refine pairwise_append.mpr ⟨h.monotone, pairwise_singleton _ _, ?_⟩
    intro a ha b hb
    have hnum := h.reports a ha
    rw [mem_singleton.mp hb]
    dsimp only
    rw [QueueTable.latest, QueueTable.getLatestOffset_eq h.newest]
    omega
  inside := h.inside
  increasing := h.increasing
  ahead := h.ahead
  received := h.received
  once := h.once
  passed := h.passed
  caught := h.caught

theorem answer_invariant {start : ℤ} {hwm : ℕ} (hq : s.PageBelow start hwm) (fetches : List OpenFetch) :
    Invariant { s with fetches := fetches, answers := s.answers ++ [⟨start, hwm, s.page start⟩] } where
  newest := h.newest
  count := h.count
  numbers := h.numbers
  held := h.held
  kept := h.kept
  gone := h.gone
  reports := h.reports
  monotone := h.monotone
  inside := by
    intro a ha
    rcases mem_append.mp ha with ha | ha
    · exact h.inside a ha
    · rw [mem_singleton.mp ha]
      exact hq.inside
  increasing := by
    intro a ha
    rcases mem_append.mp ha with ha | ha
    · exact h.increasing a ha
    · rw [mem_singleton.mp ha]
      exact s.table.fetch_sorted _ _
  ahead := h.ahead
  received := h.received
  once := h.once
  passed := h.passed
  caught := h.caught

theorem receive_invariant : Invariant { s with follower := s.receive } where
  newest := h.newest
  count := h.count
  numbers := h.numbers
  held := h.held
  kept := h.kept
  gone := by
    intro r hr
    rcases mem_append.mp hr with hr | hr
    · exact h.gone r hr
    · obtain ⟨hstored, hout⟩ := mem_filter.mp hr
      rw [Bool.and_eq_true, decide_eq_true_eq] at hout
      exact (h.kept r hstored).resolve_left hout.2
  reports := h.reports
  monotone := h.monotone
  inside := h.inside
  increasing := h.increasing
  ahead := by
    change behind s.follower.next (s.page s.follower.next) ≤ s.table.last + 1
    rcases behind_cases s.follower.next (s.page s.follower.next) with ⟨-, heq⟩ | ⟨x, hx, -, heq⟩
    · rw [heq]
      exact h.ahead
    · have hgiven := s.table.given x (QueueTable.mem_of_mem_fetch hx).1
      omega
  received := by
    intro r hr
    have hnext := s.next_le_receive
    rcases mem_append.mp hr with hr | hr
    · exact (h.received r hr).trans_le hnext
    · change r.offset < behind s.follower.next (s.page s.follower.next)
      rcases behind_cases s.follower.next (s.page s.follower.next) with ⟨hnil, -⟩ | ⟨x, -, hx, heq⟩
      · rw [hnil] at hr
        cases hr
      · have hle := offset_le_last (s.table.fetch_sorted _ _) hx hr
        omega
  once := by
    refine pairwise_append.mpr ⟨h.once, s.table.fetch_sorted _ _, ?_⟩
    intro a ha b hb
    have hlt := h.received a ha
    have hstart := (QueueTable.mem_of_mem_fetch hb).2
    omega
  passed := by
    intro r hr hlt
    change r.offset < behind s.follower.next (s.page s.follower.next) at hlt
    change r ∈ s.follower.received ++ s.page s.follower.next ∨ _ ∈ s.follower.gone ++ _
    by_cases hold : r.offset < s.follower.next
    · rcases h.passed r hr hold with hrec | hgone
      · exact .inl (mem_append_left _ hrec)
      · exact .inr (mem_append_left _ hgone)
    · by_cases hrow : r ∈ s.table.rows
      · rcases behind_cases s.follower.next (s.page s.follower.next) with ⟨-, heq⟩ | ⟨x, hx, -, heq⟩
        · omega
        · exact .inl (mem_append_right _
            (QueueTable.mem_fetch_of_le hx hrow (by omega) (by omega)))
      · refine .inr (mem_append_right _ (mem_filter.mpr ⟨hr, ?_⟩))
        simp only [Bool.and_eq_true, decide_eq_true_eq]
        exact ⟨⟨by omega, hlt⟩, hrow⟩
  caught := by
    change (if (s.page s.follower.next).length < fetchRowLimit then s.stored.length
      else s.follower.caughtUp) < s.receive.next ∨ _
    have hnext := s.next_le_receive
    split
    · rename_i hshort
      rw [h.count]
      rcases Nat.eq_zero_or_pos s.table.last with hzero | hpos
      · right
        change (if (s.page s.follower.next).length < fetchRowLimit then s.stored.length
          else s.follower.caughtUp) = 0
        rw [if_pos hshort, h.count, hzero]
      · left
        obtain ⟨x, hx, hoff⟩ := h.newest hpos
        by_cases hbefore : s.table.last < s.follower.next
        · omega
        · have hmem : x ∈ s.page s.follower.next :=
            QueueTable.mem_fetch_of_short hshort hx (by omega)
          change s.table.last < behind s.follower.next (s.page s.follower.next)
          rcases behind_cases s.follower.next (s.page s.follower.next) with
            ⟨hnil, -⟩ | ⟨y, -, hy, heq⟩
          · rw [hnil] at hmem
            cases hmem
          · have hle := offset_le_last (s.table.fetch_sorted _ _) hy hmem
            omega
    · rename_i hfull
      rcases h.caught with hlt | hzero
      · exact .inl (hlt.trans_le hnext)
      · right
        change (if (s.page s.follower.next).length < fetchRowLimit then s.stored.length
          else s.follower.caughtUp) = 0
        rw [if_neg hfull, hzero]

theorem underway_invariant (fetches : List OpenFetch) (hwm : Option ℕ) :
    Invariant { s with fetches := fetches, follower := { s.follower with hwm := hwm } } :=
  { h with }

theorem step_invariant (e : OffsetEvent) (hq : s.Careful e) : (s.step e).Invariant := by
  cases e with
  | enqueue msgs => exact enqueue_invariant h msgs
  | pruneExpired olderThan => exact pruneExpired_invariant h hq
  | listOffsets => exact report_invariant h
  | watermark start => exact underway_invariant (report_invariant h) _ _
  | records i =>
    rw [step]
    cases hf : s.fetches[i]? with
    | none => exact h
    | some f => exact answer_invariant h (hq f hf) _
  | pollWatermark =>
    rw [step]
    cases hf : s.follower.hwm with
    | some hwm => exact h
    | none => exact underway_invariant (report_invariant h) _ _
  | pollRecords =>
    rw [step]
    cases hf : s.follower.hwm with
    | none => exact h
    | some hwm => exact receive_invariant (answer_invariant h (hq hwm hf) s.fetches)

end Steps

/-- In a run whose prunes leave the newest record and whose pages lie below their watermarks, offsets
never go back and the consumer misses nothing. -/
theorem offsets_right {events : List OffsetEvent} (h : Along step Careful new events) :
    (run step new events).OffsetsRight :=
  (run_invariant (P := Invariant) (fun _ e hs hq => step_invariant hs e hq) new_invariant h).right

def messageAt (time : ℕ) : Message := ⟨[1], [0x61], [0x31], 1, [], time⟩

/-- Two records, of which the first expires, with polls in between. -/
def carefulRun : List OffsetEvent :=
  [.enqueue [messageAt 1], .listOffsets, .pollWatermark, .pollRecords, .enqueue [messageAt 5],
    .pruneExpired 3, .watermark 0, .records 0, .pollWatermark, .pollRecords]

theorem carefulRun_right : (run step new carefulRun).OffsetsRight ∧
    (run step new carefulRun).reports.map Report.number = [2, 2, 3, 3] ∧
    (run step new carefulRun).follower.received.map QueueRow.offset = [1, 2] := by
  exact ⟨offsets_right (by decide), by decide, by decide⟩

/-- The only record expires: the latest offset goes from 2 back to 1. -/
theorem pruned_latest_goes_back :
    (run step new [.enqueue [messageAt 1], .listOffsets, .pruneExpired 3, .listOffsets]).reports.map
      Report.number = [2, 1] ∧
    ¬ (run step new [.enqueue [messageAt 1], .listOffsets, .pruneExpired 3,
      .listOffsets]).OffsetsRight := by
  have hreports : (run step new [.enqueue [messageAt 1], .listOffsets, .pruneExpired 3,
      .listOffsets]).reports = [⟨2, 1⟩, ⟨1, 1⟩] := by
    decide
  refine ⟨by rw [hreports]; rfl, ?_⟩
  intro h
  have hmono := h.monotone
  rw [hreports] at hmono
  revert hmono
  decide

end OffsetState

end MonsterMQ.Kafka
