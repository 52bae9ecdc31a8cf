import MonsterMQ.KafkaTables

/-!
# Streams that share a table

A run consists of the calls of the stores, in any order: `Enqueue`, `PruneExpired` and commits of offsets.
The names of the streams differ; their tables need not, as names agree in their suffix or are cut by the
database.
-/

namespace MonsterMQ.Kafka

open LittleEndian Auth KeyedGroups StateRuns List

abbrev Table := Option Bytes × Bytes

abbrev OffsetKey := Bytes × Bytes × ℤ

namespace ServerConfig

variable (ident : Option Bytes → Bytes → Bytes) (c : ServerConfig)

def typeOf (st : Stream) : Option Bytes := (c.mapping st).bind c.resolvedType

/-- The table that `CREATE TABLE IF NOT EXISTS` leads to; `ident` is what a store of this type makes
of a name. PostgreSQL keeps 63 bytes of it, SQLite the whole name. -/
@[grind =]
def queueTable (st : Stream) : Table :=
  (c.typeOf st, ident (c.typeOf st) (kafkaQueueNames (tableSuffix st.streamName)).1)

def offsetTable (st : Stream) : Table :=
  (c.typeOf st, ident (c.typeOf st) (kafkaQueueNames (tableSuffix st.streamName)).2)

/-- `time.Duration(m.RetentionHours) * time.Hour` in nanoseconds, which wraps around. -/
def retention (st : Stream) : ℤ :=
  (((c.mapping st).map StreamMapping.retentionHours).getD 0 * 3600000000000).bmod (2 ^ 64)

/-- `now.Add(-st.retention).UnixMilli()`. -/
def olderThan (st : Stream) (now : ℤ) : ℤ := (now - c.retention st) / 1000000

end ServerConfig

/-- The tables, and of every row and offset the stream that it was written for. -/
structure Tables where
  queues : Table → QueueTable
  offsets : Table → OffsetKey → Option ℤ
  stored : List (Stream × QueueRow)
  committed : List (Stream × OffsetKey × ℤ)

inductive TableCall where
  | enqueue (st : Stream) (msgs : List Message)
  | pruneExpired (st : Stream) (now : ℤ)
  | commitOffset (group topic : Bytes) (partition offset : ℤ)

namespace Server

variable (s : Server)

/-- A message gets to a stream over the bus, or with a record that Produce accepts for the Kafka topic
of this name. -/
def feeds (st : Stream) (mqttTopic : Bytes) : Prop :=
  s.routeEnqueue mqttTopic = some st ∨
    (s.byName st.streamName = some st ∧ s.isWriteAllowed st.streamName mqttTopic = true)
deriving Decidable

end Server

namespace Tables

def new : Tables := ⟨fun _ => .empty, fun _ _ => none, [], []⟩

variable (ident : Option Bytes → Bytes → Bytes) (c : ServerConfig) (s : Server)

@[grind =] def enqueue (t : Tables) (st : Stream) (msgs : List Message) : Tables :=
  let table := t.queues (c.queueTable ident st)
  { t with
    queues := Function.update t.queues (c.queueTable ident st) (table.enqueue msgs)
    stored := t.stored ++ (numbered (table.last + 1) msgs).map (st, ·) }

@[grind =] def pruneExpired (t : Tables) (st : Stream) (now : ℤ) : Tables :=
  let table := t.queues (c.queueTable ident st)
  { t with
    queues := Function.update t.queues (c.queueTable ident st) (table.pruneExpired (c.olderThan st now).toNat) }

def commitOffset (t : Tables) (st : Stream) (key : OffsetKey) (offset : ℤ) : Tables :=
  { t with
    offsets := Function.update t.offsets (c.offsetTable ident st)
      (Function.update (t.offsets (c.offsetTable ident st)) key (some offset))
    committed := t.committed ++ [(st, key, offset)] }

@[grind =] def step (t : Tables) : TableCall → Tables
  | .enqueue st msgs =>
    if st ∈ s.streams ∧ ∀ m ∈ msgs, s.feeds st m.topicName then t.enqueue ident c st msgs else t
  | .pruneExpired st now => if st ∈ s.streams then t.pruneExpired ident c st now else t
  | .commitOffset group topic partition offset =>
    match s.routeFetch topic with
    | none => t
    | some st => t.commitOffset ident c st (group, topic, partition) offset

@[grind =] def fetch (t : Tables) (kafkaTopic : Bytes) (startOffset : ℤ) (limit : ℕ) : List QueueRow :=
  match s.routeFetch kafkaTopic with
  | none => []
  | some st => (t.queues (c.queueTable ident st)).fetch startOffset limit

def getOffset (t : Tables) (group topic : Bytes) (partition : ℤ) : Option ℤ :=
  match s.routeFetch topic with
  | none => none
  | some st => t.offsets (c.offsetTable ident st) (group, topic, partition)

/-- Fetching, pruning and committed offsets of a stream have only to do with what was written for it. -/
structure Isolated (t : Tables) : Prop where
  fetched : ∀ kafkaTopic st, s.routeFetch kafkaTopic = some st → ∀ startOffset limit,
    ∀ r ∈ t.fetch ident c s kafkaTopic startOffset limit, (st, r) ∈ t.stored
  pruned : ∀ st ∈ s.streams, ∀ now table, ∀ r ∈ (t.queues table).rows,
    r ∉ ((t.pruneExpired ident c st now).queues table).rows → (st, r) ∈ t.stored
  offset : ∀ group topic partition st, s.routeFetch topic = some st →
    ∀ off ∈ t.getOffset ident c s group topic partition, (st, (group, topic, partition), off) ∈ t.committed

end Tables

section Feeds

variable {s : Server} {st : Stream} {mqttTopic : Bytes}

theorem mem_of_byName {name : Bytes} (h : s.byName name = some st) : st ∈ s.streams ∧ st.streamName = name :=
  ⟨mem_of_find?_eq_some h, by simpa using List.find?_some h⟩

private theorem mem_of_routeFetch {name : Bytes} (h : s.routeFetch name = some st) : st ∈ s.streams := by
  rw [Server.routeFetch] at h
  cases hname : s.byName name with
  | some named =>
    rw [hname] at h
    cases h
    exact (mem_of_byName hname).1
  | none =>
    rw [hname] at h
    exact mem_of_find?_eq_some h

theorem mem_of_routeEnqueue (h : s.routeEnqueue mqttTopic = some st) : st ∈ s.streams := by
  rw [Server.routeEnqueue] at h
  cases hmatch : s.firstMatching mqttTopic with
  | some first =>
    rw [hmatch] at h
    cases h
    exact mem_of_find?_eq_some hmatch
  | none =>
    rw [hmatch] at h
    exact (mem_of_byName h).1

private theorem byName_eq (h : st ∈ s.streams) : s.byName st.streamName = some st := by
  have hnames := s.names
  rw [Server.byName]
  generalize s.streams = l at h hnames
  induction l with
  | nil => cases h
  | cons st' l ih =>
    rw [map_cons, nodup_cons] at hnames
    rcases mem_cons.mp h with rfl | h
    · rw [List.find?_cons_of_pos (by simp)]
    · rw [List.find?_cons_of_neg]
      · exact ih h hnames.2
      · simp only [decide_eq_true_eq]
        intro heq
        exact hnames.1 (heq ▸ mem_map_of_mem h)

private theorem isWriteAllowed_of_accepts {c : Calls} {clientID kafkaTopic set : Bytes}
    (h : s.accepts c (producerOf clientID) kafkaTopic (recordsOf c set) = true) :
    ∀ m ∈ setMessages c clientID kafkaTopic set, s.isWriteAllowed kafkaTopic m.topicName = true := by
  intro m hm
  obtain ⟨i, hi, rfl⟩ := mem_mapIdx.mp hm
  have hrec := all_eq_true.mp h _ (getElem_mem hi)
  exact (Bool.and_eq_true_iff.mp hrec).1

private theorem mem_additions {kafkaTopic : Bytes} {msgs : List Message} {e : Stream × List Message}
    (he : e ∈ groups (s.additions kafkaTopic msgs)) : e.2 ≠ [] ∧ ∀ m ∈ e.2, m ∈ msgs ∧
      (s.byName kafkaTopic = some e.1 ∨ s.routeEnqueue m.topicName = some e.1) := by
  refine ⟨groups_ne_nil _ e he, ?_⟩
  intro m hm
  rw [← valuesOf_eq_of_mem (nodup_keys_groups _) he, valuesOf_groups, additions_of_stream] at hm
  obtain ⟨hmem, hdest⟩ := mem_filter.mp hm
  exact ⟨hmem, of_decide_eq_true hdest⟩

private theorem storeAndPublish_stored (c : Calls) (kafkaTopic : Bytes) (msgs : List Message) :
    (storeAndPublish s c kafkaTopic msgs).stored =
      (groups (s.additions kafkaTopic msgs)).takeWhile fun e => c.enqueue e.1 := by
  rw [storeAndPublish, storeAll_eq]
  dsimp only
  split
  · rfl
  · cases c.publish with
    | none => rfl
    | some publish => rfl

theorem feeds_of_produced {c : Calls} {clientID kafkaTopic set : Bytes} {partition : ℤ}
    {e : Stream × List Message} (he : e ∈ (produceSet s c clientID kafkaTopic partition set).stored) :
    e.1 ∈ s.streams ∧ ∀ m ∈ e.2, s.feeds e.1 m.topicName := by
  rcases @produceSet_cases s c clientID kafkaTopic set partition with ⟨code, h, -⟩ | ⟨-, hacc, -, h⟩
  · rw [h] at he
    cases he
  · rw [h, storeAndPublish_stored] at he
    obtain ⟨hne, hdest⟩ := mem_additions (takeWhile_subset _ he)
    constructor
    · obtain ⟨m, hm⟩ := exists_mem_of_ne_nil _ hne
      rcases (hdest m hm).2 with hnamed | hrouted
      · exact (mem_of_byName hnamed).1
      · exact mem_of_routeEnqueue hrouted
    · intro m hm
      obtain ⟨hmem, hnamed | hrouted⟩ := hdest m hm
      · obtain ⟨-, hname⟩ := mem_of_byName hnamed
        rw [← hname] at hnamed hacc
        refine .inr ⟨hnamed, ?_⟩
        rw [hname] at hacc ⊢
        exact isWriteAllowed_of_accepts hacc m hmem
      · exact .inl hrouted

theorem feeds_of_flushed {batch : List Arrival} {e : Stream × List Arrival} (he : e ∈ s.groupByStream batch) :
    e.1 ∈ s.streams ∧ ∀ m ∈ e.2, s.feeds e.1 m.2.topicName := by
  have hrouted : ∀ m ∈ e.2, s.routeEnqueue m.2.topicName = some e.1 := by
    intro m hm
    rw [← valuesOf_eq_of_mem (nodup_keys_groups _) he, valuesOf_groups] at hm
    obtain ⟨p, hp, rfl⟩ := mem_map.mp hm
    obtain ⟨hp, hfst⟩ := mem_filter.mp hp
    obtain ⟨a, -, ha⟩ := mem_filterMap.mp hp
    obtain ⟨st', hst', rfl⟩ := Option.map_eq_some_iff.mp ha
    rw [← of_decide_eq_true hfst]
    exact hst'
  refine ⟨?_, fun m hm => .inl (hrouted m hm)⟩
  obtain ⟨m, hm⟩ := exists_mem_of_ne_nil _ (groups_ne_nil _ e he)
  exact mem_of_routeEnqueue (hrouted m hm)

end Feeds

private theorem mem_of_mem_numbered {msgs : List Message} : ∀ {k : ℕ} {r : QueueRow}, r ∈ numbered k msgs →
    r.message ∈ msgs := by
  induction msgs with
  | nil => exact fun h => absurd h not_mem_nil
  | cons m msgs ih =>
    intro k r h
    rcases mem_cons.mp h with rfl | h
    · exact mem_cons_self
    · exact mem_cons_of_mem _ (ih h)

section Runs

variable {ident : Option Bytes → Bytes → Bytes} {c : ServerConfig} {s : Server} {t : Tables}

/-- Every row is one that was stored for a stream with this table, and every offset was committed for
the stream that its topic is routed to. -/
structure Tables.Kept (ident : Option Bytes → Bytes → Bytes) (c : ServerConfig) (s : Server) (t : Tables) :
    Prop where
  rows : ∀ table, ∀ r ∈ (t.queues table).rows, ∃ st ∈ s.streams, c.queueTable ident st = table ∧
    (∃ topic, s.feeds st topic) ∧ (st, r) ∈ t.stored
  offsets : ∀ table key off, t.offsets table key = some off →
    ∃ st, s.routeFetch key.2.1 = some st ∧ (st, key, off) ∈ t.committed

theorem Tables.Kept.new (c : ServerConfig) (s : Server) : Kept ident c s .new where
  rows := fun _ _ h => absurd h not_mem_nil
  offsets := fun _ _ _ h => absurd h (by simp [Tables.new])

theorem Tables.Kept.enqueue (h : t.Kept ident c s) {st : Stream} (hst : st ∈ s.streams) {msgs : List Message}
    (hmsgs : ∀ m ∈ msgs, s.feeds st m.topicName) : (t.enqueue ident c st msgs).Kept ident c s where
  rows := by
    intro table r hr
    have hold : ∀ r ∈ (t.queues table).rows, ∃ st' ∈ s.streams, c.queueTable ident st' = table ∧
        (∃ topic, s.feeds st' topic) ∧ (st', r) ∈ (t.enqueue ident c st msgs).stored := by
      intro r hr
      obtain ⟨st', hst', htable, hfed, hstored⟩ := h.rows table r hr
      exact ⟨st', hst', htable, hfed, mem_append_left _ hstored⟩
    by_cases htable : table = c.queueTable ident st
    · subst htable
      dsimp only [Tables.enqueue] at hr
      rw [Function.update_self] at hr
      rcases mem_append.mp hr with hr | hr
      · exact hold r hr
      · exact ⟨st, hst, rfl, ⟨_, hmsgs _ (mem_of_mem_numbered hr)⟩,
          mem_append_right _ (mem_map_of_mem hr)⟩
    · dsimp only [Tables.enqueue] at hr
      rw [Function.update_of_ne htable] at hr
      exact hold r hr
  offsets := h.offsets

theorem pruneExpired_subset (ident : Option Bytes → Bytes → Bytes) (c : ServerConfig) (t : Tables) (st : Stream)
    (now : ℤ) (table : Table) :
    ((t.pruneExpired ident c st now).queues table).rows ⊆ (t.queues table).rows := by
  intro r hr
  dsimp only [Tables.pruneExpired] at hr
  by_cases htable : table = c.queueTable ident st
  · subst htable
    rw [Function.update_self] at hr
    exact mem_of_mem_filter hr
  · rwa [Function.update_of_ne htable] at hr

theorem Tables.Kept.pruneExpired (h : t.Kept ident c s) (st : Stream) (now : ℤ) :
    (t.pruneExpired ident c st now).Kept ident c s where
  rows := fun table r hr => h.rows table r (pruneExpired_subset ident c t st now table hr)
  offsets := h.offsets

theorem Tables.Kept.commitOffset (h : t.Kept ident c s) {st : Stream} {key : OffsetKey}
    (hst : s.routeFetch key.2.1 = some st) (offset : ℤ) : (t.commitOffset ident c st key offset).Kept ident c s where
  rows := h.rows
  offsets := by
    intro table key' off hoff
    have hold : t.offsets table key' = some off →
        ∃ st', s.routeFetch key'.2.1 = some st' ∧
          (st', key', off) ∈ (t.commitOffset ident c st key offset).committed := by
      intro hoff
      obtain ⟨st', hst', hmem⟩ := h.offsets table key' off hoff
      exact ⟨st', hst', mem_append_left _ hmem⟩
    dsimp only [Tables.commitOffset] at hoff
    by_cases htable : table = c.offsetTable ident st
    · subst htable
      rw [Function.update_self] at hoff
      by_cases hkey : key' = key
      · subst hkey
        rw [Function.update_self] at hoff
        cases hoff
        exact ⟨st, hst, mem_append_right _ mem_cons_self⟩
      · rw [Function.update_of_ne hkey] at hoff
        exact hold hoff
    · rw [Function.update_of_ne htable] at hoff
      exact hold hoff

theorem Tables.Kept.step (h : t.Kept ident c s) (a : TableCall) : (t.step ident c s a).Kept ident c s := by
  cases a with
  | enqueue st msgs =>
    dsimp only [Tables.step]
    split
    · rename_i hst
      exact h.enqueue hst.1 hst.2
    · exact h
  | pruneExpired st now =>
    dsimp only [Tables.step]
    split
    · exact h.pruneExpired st now
    · exact h
  | commitOffset group topic partition offset =>
    dsimp only [Tables.step]
    cases hst : s.routeFetch topic with
    | none => exact h
    | some st => exact h.commitOffset hst offset

/-- No stream that gets records has the name of its table, as far as the store keeps it, in common with
another. -/
def ServerConfig.Apart (ident : Option Bytes → Bytes → Bytes) (c : ServerConfig) (s : Server) : Prop :=
  ∀ st ∈ s.streams, (∃ topic, s.feeds st topic) → ∀ st' ∈ s.streams,
    ident (c.typeOf st) (ascii "kafka_queue_" ++ tableSuffix st'.streamName) =
      ident (c.typeOf st) (ascii "kafka_queue_" ++ tableSuffix st.streamName) → st' = st

theorem queueTable_eq (ident : Option Bytes → Bytes → Bytes) (c : ServerConfig) (st : Stream) :
    c.queueTable ident st =
      (c.typeOf st, ident (c.typeOf st) (ascii "kafka_queue_" ++ tableSuffix st.streamName)) := by
  rw [ServerConfig.queueTable, kafkaQueueNames_tableSuffix]

theorem Tables.Kept.isolated (h : t.Kept ident c s) (hapart : c.Apart ident s) : t.Isolated ident c s := by
  have hown : ∀ st ∈ s.streams, ∀ r ∈ (t.queues (c.queueTable ident st)).rows, (st, r) ∈ t.stored := by
    intro st hst r hr
    obtain ⟨st', hst', htable, hfed, hstored⟩ := h.rows _ r hr
    rw [queueTable_eq, queueTable_eq] at htable
    obtain ⟨htype, hname⟩ := Prod.mk.inj htable
    rwa [hapart st' hst' hfed st hst (htype ▸ hname.symm)]
  refine ⟨?_, ?_, ?_⟩
  · intro kafkaTopic st hroute startOffset limit r hr
    rw [Tables.fetch, hroute] at hr
    exact hown st (mem_of_routeFetch hroute) r (QueueTable.mem_of_mem_fetch hr).1
  · intro st hst now table r hr hgone
    by_cases htable : table = c.queueTable ident st
    · subst htable
      exact hown st hst r hr
    · dsimp only [Tables.pruneExpired] at hgone
      rw [Function.update_of_ne htable] at hgone
      exact absurd hr hgone
  · intro group topic partition st hroute off hoff
    rw [Tables.getOffset, hroute] at hoff
    obtain ⟨st', hst', hmem⟩ := h.offsets _ _ off hoff
    rw [hroute] at hst'
    cases hst'
    exact hmem

def sampleMessage (topic : Bytes) : Message := ⟨[], topic, [], 1, [], 0⟩

theorem not_isolated_of_shared {st st' : Stream} (hst : st ∈ s.streams) (hst' : st' ∈ s.streams)
    (hne : st' ≠ st) {topic : Bytes} (hfed : s.feeds st topic)
    (htable : c.queueTable ident st' = c.queueTable ident st) :
    ¬ (run (Tables.step ident c s) .new [.enqueue st [sampleMessage topic]]).Isolated ident c s := by
  intro h
  rw [run_cons, run_nil, Tables.step, if_pos ⟨hst, by simpa [sampleMessage] using hfed⟩] at h
  have hroute : s.routeFetch st'.streamName = some st' := by
    rw [Server.routeFetch, byName_eq hst']
  have hmem := h.fetched st'.streamName st' hroute 0 1 ⟨1, sampleMessage topic⟩ (by
    rw [Tables.fetch, hroute]
    dsimp only [Tables.enqueue]
    rw [htable, Function.update_self]
    exact mem_cons_self)
  rcases mem_cons.mp hmem with heq | hmem
  · exact hne (congrArg Prod.fst heq)
  · cases hmem

theorem mapping_eq (hvalid : c.validate = []) {st : Stream} (h : st ∈ (c.new hvalid).streams) :
    ∃ m ∈ c.streams, c.mapping st = some m := by
  obtain ⟨m, hm, rfl⟩ := mem_map.mp h
  cases hfind : c.mapping m.toStream with
  | none => exact absurd (decide_eq_true rfl) (List.find?_eq_none.mp hfind m hm)
  | some m' => exact ⟨m', mem_of_find?_eq_some hfind, rfl⟩

/-- The streams of a server are isolated from each other in every run exactly when none that gets
records shares its table with another. -/
theorem streams_isolated_iff (ident : Option Bytes → Bytes → Bytes) (hvalid : c.validate = [])
    (htype : ∀ m ∈ c.streams, ∀ m' ∈ c.streams, c.resolvedType m = c.resolvedType m') :
    (∀ calls, (run (Tables.step ident c (c.new hvalid)) .new calls).Isolated ident c (c.new hvalid)) ↔
      c.Apart ident (c.new hvalid) := by
  constructor
  · intro h st hst hfed st' hst' hname
    by_contra hne
    obtain ⟨topic, hfed⟩ := hfed
    refine not_isolated_of_shared hst hst' hne hfed ?_ (h _)
    have htypes : c.typeOf st' = c.typeOf st := by
      obtain ⟨m, hm, hmap⟩ := mapping_eq hvalid hst
      obtain ⟨m', hm', hmap'⟩ := mapping_eq hvalid hst'
      rw [ServerConfig.typeOf, ServerConfig.typeOf, hmap, hmap', Option.bind_some, Option.bind_some,
        htype m' hm' m hm]
    rw [queueTable_eq, queueTable_eq, htypes, hname]
  · intro hapart calls
    have hkept : (run (Tables.step ident c (c.new hvalid)) .new calls).Kept ident c (c.new hvalid) :=
      run_always (P := Tables.Kept ident c (c.new hvalid)) (fun t a ht => ht.step a) (.new c _) calls
    exact hkept.isolated hapart

end Runs

def plantStreams (second : Bytes) : ServerConfig where
  name := ascii "k"
  port := 9092
  storeType := none
  streams := [⟨ascii "plant-a", ascii "a/#", 168, none, true⟩, ⟨second, ascii "b/#", 1, none, true⟩]

/-- `Validate` tells the names apart and `TableSuffix` does not. -/
def sameSuffix : ServerConfig := plantStreams (ascii "plant_a")

def ownSuffix : ServerConfig := plantStreams (ascii "plant-b")

theorem sameSuffix_valid : sameSuffix.validate = [] := by decide

/-- A record of one stream is fetched from the other. -/
theorem fetch_from_other_stream : sameSuffix.validate = [] ∧
    (∀ m ∈ sameSuffix.streams, ∀ m' ∈ sameSuffix.streams,
      sameSuffix.resolvedType m = sameSuffix.resolvedType m') ∧
    ¬ ∀ calls, (run (Tables.step (fun _ => id) sameSuffix (sameSuffix.new sameSuffix_valid)) .new
      calls).Isolated (fun _ => id) sameSuffix (sameSuffix.new sameSuffix_valid) := by
  refine ⟨sameSuffix_valid, by decide, fun h => ?_⟩
  have hdash : (⟨ascii "plant-a", ascii "a/#", true⟩ : Stream) ∈ (sameSuffix.new sameSuffix_valid).streams := by
    decide
  have hunder : (⟨ascii "plant_a", ascii "b/#", true⟩ : Stream) ∈ (sameSuffix.new sameSuffix_valid).streams := by
    decide
  have hfed : (sameSuffix.new sameSuffix_valid).feeds ⟨ascii "plant-a", ascii "a/#", true⟩ (ascii "a/1") := by
    decide
  exact not_isolated_of_shared hdash hunder (by decide) hfed (by decide) (h _)

/-- Two streams with suffixes of their own, in tables of PostgreSQL. -/
theorem ownSuffix_isolated : ∃ hvalid : ownSuffix.validate = [],
    ∀ calls, (run (Tables.step (fun _ => take 63) ownSuffix (ownSuffix.new hvalid)) .new calls).Isolated
      (fun _ => take 63) ownSuffix (ownSuffix.new hvalid) := by
  have hvalid : ownSuffix.validate = [] := by decide
  refine ⟨hvalid, (streams_isolated_iff (fun _ => take 63) hvalid (by decide)).mpr ?_⟩
  have hapart : ∀ st ∈ ownSuffix.streams.map StreamMapping.toStream,
      ∀ st' ∈ ownSuffix.streams.map StreamMapping.toStream,
        take 63 (ascii "kafka_queue_" ++ tableSuffix st'.streamName) =
          take 63 (ascii "kafka_queue_" ++ tableSuffix st.streamName) → st' = st := by decide
  exact fun st hst _ st' hst' hname => hapart st hst st' hst' hname

end MonsterMQ.Kafka
