import MonsterMQ.KafkaStreams

/-!
# The queue of a stream

The table `kafka_queue_` of `internal/stores/sqlite/kafka_queue_store.go`. The suffix of a stream's table is
never empty, so the statements have no condition on the topic.
-/

namespace MonsterMQ.Kafka

open LittleEndian List

structure QueueRow where
  offset : ℕ
  message : Message
  deriving DecidableEq, Repr

structure QueueTable where
  rows : List QueueRow
  last : ℕ
  sorted : rows.Pairwise fun a b => a.offset < b.offset
  given : ∀ r ∈ rows, 1 ≤ r.offset ∧ r.offset ≤ last

@[grind =] def numbered : ℕ → List Message → List QueueRow
  | _, [] => []
  | k, m :: msgs => ⟨k, m⟩ :: numbered (k + 1) msgs

theorem numbered_length (msgs : List Message) : ∀ k, (numbered k msgs).length = msgs.length := by
  induction msgs with
  | nil => exact fun _ => rfl
  | cons m msgs ih =>
    intro k
    rw [numbered, length_cons, ih, length_cons]

theorem offset_of_mem_numbered {msgs : List Message} : ∀ {k : ℕ} {r : QueueRow}, r ∈ numbered k msgs →
    k ≤ r.offset ∧ r.offset < k + msgs.length := by
  induction msgs with
  | nil => exact fun h => absurd h not_mem_nil
  | cons m msgs ih =>
    intro k r h
    rw [length_cons]
    rcases mem_cons.mp h with rfl | h
    · exact ⟨Nat.le_refl _, by dsimp only; omega⟩
    · have := ih h
      omega

private theorem numbered_sorted (msgs : List Message) : ∀ k,
    (numbered k msgs).Pairwise fun a b => a.offset < b.offset := by
  induction msgs with
  | nil => exact fun _ => List.Pairwise.nil
  | cons m msgs ih =>
    intro k
    refine List.Pairwise.cons ?_ (ih (k + 1))
    intro r hr
    have := offset_of_mem_numbered hr
    dsimp only
    omega

namespace QueueTable

private theorem empty_given : ∀ r ∈ ([] : List QueueRow), 1 ≤ r.offset ∧ r.offset ≤ 0 :=
  fun _ h => absurd h not_mem_nil

def empty : QueueTable := ⟨[], 0, List.Pairwise.nil, empty_given⟩

private theorem enqueue_sorted (t : QueueTable) (msgs : List Message) :
    (t.rows ++ numbered (t.last + 1) msgs).Pairwise fun a b => a.offset < b.offset := by
  rw [pairwise_append]
  refine ⟨t.sorted, numbered_sorted _ _, ?_⟩
  intro a ha b hb
  have hgiven := t.given a ha
  have hnew := offset_of_mem_numbered hb
  omega

private theorem enqueue_given (t : QueueTable) (msgs : List Message) :
    ∀ r ∈ t.rows ++ numbered (t.last + 1) msgs, 1 ≤ r.offset ∧ r.offset ≤ t.last + msgs.length := by
  intro r hr
  rcases mem_append.mp hr with hr | hr
  · have := t.given r hr
    omega
  · have := offset_of_mem_numbered hr
    omega

def enqueue (t : QueueTable) (msgs : List Message) : QueueTable where
  rows := t.rows ++ numbered (t.last + 1) msgs
  last := t.last + msgs.length
  sorted := t.enqueue_sorted msgs
  given := t.enqueue_given msgs

private theorem filter_sorted (t : QueueTable) (p : QueueRow → Bool) :
    (t.rows.filter p).Pairwise fun a b => a.offset < b.offset := t.sorted.filter p

private theorem filter_given (t : QueueTable) (p : QueueRow → Bool) :
    ∀ r ∈ t.rows.filter p, 1 ≤ r.offset ∧ r.offset ≤ t.last :=
  fun r hr => t.given r (mem_of_mem_filter hr)

def pruneExpired (t : QueueTable) (olderThan : ℕ) : QueueTable where
  rows := t.rows.filter fun r => !decide (r.message.time < olderThan)
  last := t.last
  sorted := t.filter_sorted _
  given := t.filter_given _

def fetch (t : QueueTable) (startOffset : ℤ) (limit : ℕ) : List QueueRow :=
  (t.rows.filter fun r => startOffset ≤ r.offset).take limit

/-- `MAX(offset_id)`, zero for no rows. -/
def getLatestOffset (t : QueueTable) : ℕ := (t.rows.map QueueRow.offset).foldl max 0

/-- `MIN(offset_id)`, zero for no rows. -/
def getEarliestOffset (t : QueueTable) : ℕ :=
  match t.rows with
  | [] => 0
  | r :: rows => (rows.map QueueRow.offset).foldl min r.offset

section Pages

variable {t : QueueTable} {start : ℤ} {limit : ℕ} {r x : QueueRow}

theorem mem_of_mem_fetch (h : r ∈ t.fetch start limit) : r ∈ t.rows ∧ start ≤ r.offset := by
  have hmem := mem_filter.mp (mem_of_mem_take h)
  exact ⟨hmem.1, of_decide_eq_true hmem.2⟩

theorem fetch_sorted (t : QueueTable) (start : ℤ) (limit : ℕ) :
    (t.fetch start limit).Pairwise fun a b => a.offset < b.offset :=
  (t.sorted.filter _).sublist (take_sublist _ _)

theorem mem_fetch_of_le (hx : x ∈ t.fetch start limit) (hr : r ∈ t.rows) (hstart : start ≤ r.offset)
    (hle : r.offset ≤ x.offset) : r ∈ t.fetch start limit := by
  have hsorted := t.sorted.filter fun r => decide (start ≤ (r.offset : ℤ))
  have hmem : r ∈ t.rows.filter fun r => start ≤ r.offset := mem_filter.mpr ⟨hr, decide_eq_true hstart⟩
  rw [← take_append_drop limit (t.rows.filter fun r => start ≤ r.offset)] at hmem hsorted
  rcases mem_append.mp hmem with hmem | hmem
  · exact hmem
  · have hlt := (pairwise_append.mp hsorted).2.2 x hx r hmem
    omega

theorem mem_fetch_of_short (h : (t.fetch start limit).length < limit) (hr : r ∈ t.rows)
    (hstart : start ≤ r.offset) : r ∈ t.fetch start limit := by
  rw [fetch] at h ⊢
  rw [length_take] at h
  rw [take_of_length_le (by omega)]
  exact mem_filter.mpr ⟨hr, decide_eq_true hstart⟩

private theorem le_foldl_max (l : List ℕ) (n : ℕ) : n ≤ l.foldl max n ∧ ∀ k ∈ l, k ≤ l.foldl max n := by
  induction l generalizing n with
  | nil => exact ⟨Nat.le_refl n, fun _ h => absurd h not_mem_nil⟩
  | cons a l ih =>
    obtain ⟨hn, hl⟩ := ih (max n a)
    rw [foldl_cons]
    refine ⟨by omega, ?_⟩
    intro k hk
    rcases mem_cons.mp hk with rfl | hk
    · omega
    · exact hl k hk

theorem foldl_max_le {l : List ℕ} {n b : ℕ} (hn : n ≤ b) (hl : ∀ k ∈ l, k ≤ b) : l.foldl max n ≤ b := by
  induction l generalizing n with
  | nil => exact hn
  | cons a l ih =>
    rw [foldl_cons]
    exact ih (Nat.max_le.mpr ⟨hn, hl a mem_cons_self⟩) fun k hk => hl k (mem_cons_of_mem _ hk)

theorem getLatestOffset_eq (h : 0 < t.last → ∃ r ∈ t.rows, r.offset = t.last) :
    t.getLatestOffset = t.last := by
  apply Nat.le_antisymm
  · apply foldl_max_le (Nat.zero_le _)
    intro k hk
    obtain ⟨r, hr, rfl⟩ := mem_map.mp hk
    exact (t.given r hr).2
  · rcases Nat.eq_zero_or_pos t.last with hzero | hpos
    · rw [hzero]
      exact Nat.zero_le _
    · obtain ⟨r, hr, hoff⟩ := h hpos
      rw [← hoff]
      exact (le_foldl_max _ 0).2 _ (mem_map_of_mem hr)

end Pages

end QueueTable

end MonsterMQ.Kafka
