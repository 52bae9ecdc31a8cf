import MonsterMQ.AuthDecisionMemo
import MonsterMQ.AuthFilterCoverage
import MonsterMQ.KafkaQueue
import MonsterMQ.KafkaWire

/-!
# Fetching records

`fetch` of `internal/kafka/handlers.go` asks the access rules once about the filter of a stream and answers
the records that its queue has.
-/

namespace MonsterMQ.Kafka

open LittleEndian Auth

structure FetchPart where
  partition : ℤ
  offset : ℤ
  deriving DecidableEq, Repr

structure FetchTopic where
  name : Bytes
  parts : List FetchPart
  deriving DecidableEq, Repr

def readFetchParts (v : ℤ) : ℕ → Reader → List FetchPart × Reader
  | 0, r => ([], r)
  | np + 1, r =>
    let (partition, r) := r.int32
    let r := if v ≥ 9 then r.int32.2 else r
    let (offset, r) := r.int64
    let r := if v ≥ 5 then r.int64.2 else r
    let (_, r) := r.int32
    let (parts, r) := readFetchParts v np r
    (⟨partition, offset⟩ :: parts, r)

def readFetchTopics (v : ℤ) : ℕ → Reader → List FetchTopic × Reader
  | 0, r => ([], r)
  | nt + 1, r =>
    let (name, r) := r.string
    let (np, r) := r.arrayLen 12
    let (parts, r) := readFetchParts v np r
    let (topics, r) := readFetchTopics v nt r
    (⟨name, parts⟩ :: topics, r)

def skipForgotten : ℕ → Reader → Reader
  | 0, r => r
  | nf + 1, r =>
    let (_, r) := r.string
    let (np, r) := r.arrayLen 4
    skipForgotten nf ((List.range np).foldl (fun r _ => r.int32.2) r)

def readFetch (v : ℤ) (r : Reader) : (ℤ × List FetchTopic) × Reader :=
  let (_, r) := r.int32
  let (maxWait, r) := r.int32
  let (_, r) := r.int32
  let r := if v ≥ 3 then r.int32.2 else r
  let r := if v ≥ 4 then r.int8.2 else r
  let r := if v ≥ 7 then r.int32.2.int32.2 else r
  let (nt, r) := r.arrayLen 6
  let (topics, r) := readFetchTopics v nt r
  let r := if v ≥ 7 then
      let (nf, r) := r.arrayLen 6
      skipForgotten nf r
    else r
  ((maxWait, topics), r)

inductive FetchCode where
  | none
  | unknownTopicOrPart
  deriving DecidableEq, Repr

structure FetchPartResult where
  partition : ℤ
  code : FetchCode
  hwm : ℤ
  logStart : ℤ
  entries : List QueueRow
  deriving DecidableEq, Repr

def fetchRowLimit : ℕ := 100

structure Consumer where
  username : Bytes
  clientID : Bytes
  settings : Settings
  authCache : Option Config

namespace Consumer

variable (u : Consumer)

def allowClient (config : Config) (topic : Bytes) : Bool :=
  config.verdict u.settings ⟨u.username, u.clientID, topic, false⟩

def canSubscribe (filter : Bytes) : Bool :=
  match u.authCache with
  | none => false
  | some config => u.allowClient config filter

end Consumer

/-- The tables of the streams when a query of a request is made, from query to query. -/
abbrev Moments := ℕ → Stream → QueueTable

/-- One partition of a request; its first query is the `n`-th of the request. -/
@[grind =]
def fetchPartition (s : Server) (u : Consumer) (tables : Moments) (n : ℕ) (name : Bytes) (p : FetchPart) :
    FetchPartResult :=
  match s.routeFetch name with
  | none => ⟨p.partition, .none, 0, 0, []⟩
  | some st =>
    if p.partition ≠ 0 then ⟨p.partition, .unknownTopicOrPart, 0, 0, []⟩
    else if !u.canSubscribe st.topicFilter then ⟨p.partition, .none, 0, 0, []⟩
    else ⟨p.partition, .none, (tables n st).getLatestOffset + 1, (tables (n + 1) st).getEarliestOffset,
      (tables (n + 2) st).fetch p.offset fetchRowLimit⟩

def askedParts (topics : List FetchTopic) : List (Bytes × FetchPart) :=
  topics.flatMap fun ft => ft.parts.map (ft.name, ·)

def fetchOnce (s : Server) (u : Consumer) (tables : Moments) (topics : List FetchTopic) :
    List FetchPartResult :=
  (askedParts topics).mapIdx fun i e => fetchPartition s u tables (3 * i) e.1 e.2

/-- The records of a response; nothing is answered to a request that cannot be read. -/
def fetchRecords (s : Server) (u : Consumer) (tables : Moments) (v : ℤ) (r : Reader) : List QueueRow :=
  let ((_, topics), r) := readFetch v r
  if r.err.isSome then [] else (fetchOnce s u tables topics).flatMap FetchPartResult.entries

/-- The rules of the user grant a topic, once the user may read at all: there are none to follow, the
topic is taken for a filter that is not checked, or the first rule that decides it grants it. -/
def Granted (c : Cache) (username clientID topic : Bytes) : Prop :=
  let name := if username = [] then anonymousUser else username
  (username = [] ∧ c.users.lookup anonymousUser = none) ∨ (∃ u, c.users.lookup name = some u ∧
    u.isAdmin = true) ∨
  (c.aclCheckOnSubscribe = false ∧ containsWildcard topic = true) ∨
  (c.rulesByUser.lookup name).getD [] = [] ∨
  ∃ rule, decidingRule ((c.rulesByUser.lookup name).getD []) name clientID topic false = some rule ∧
    isDenyRule rule = false

theorem allowUser_iff {c : Cache} {username clientID topic other : Bytes}
    (h : c.allowUser username clientID other false = true) :
    c.allowUser username clientID topic false = true ↔
      (∃ u, c.users.lookup username = some u ∧ u.isAdmin = true) ∨
      (c.aclCheckOnSubscribe = false ∧ containsWildcard topic = true) ∨
      (c.rulesByUser.lookup username).getD [] = [] ∨
      ∃ rule, decidingRule ((c.rulesByUser.lookup username).getD []) username clientID topic false =
        some rule ∧ isDenyRule rule = false := by
  rw [Cache.allowUser] at h ⊢
  cases hu : c.users.lookup username with
  | none =>
    rw [hu] at h
    cases h
  | some u =>
    rw [hu] at h
    dsimp only at h ⊢
    cases henabled : u.enabled with
    | false => simp [henabled] at h
    | true =>
      cases hadmin : u.isAdmin with
      | true => simp [hadmin]
      | false =>
        cases hsub : u.canSubscribe with
        | false => simp [henabled, hadmin, hsub] at h
        | true =>
          rw [decideRules_eq]
          simp [hadmin, Option.any_eq_true]

/-- A user who may subscribe to a filter may read a topic exactly when the rules grant it. -/
theorem allowClient_iff_granted {c : Cache} {username clientID topic filter : Bytes}
    (h : c.allowClient username clientID filter false = true) :
    c.allowClient username clientID topic false = true ↔ Granted c username clientID topic := by
  rw [Cache.allowClient] at h ⊢
  rw [Granted]
  by_cases hname : username = []
  · rw [if_pos hname] at h ⊢
    cases hany : c.anonymousEnabled with
    | false =>
      rw [hany] at h
      simp at h
    | true =>
      rw [hany] at h
      cases hrec : c.users.lookup anonymousUser with
      | none => simp [hname, hrec]
      | some u =>
        simp only [hrec, Bool.not_true, Bool.false_eq_true, if_false, Option.isSome_some, if_true] at h ⊢
        rw [allowUser_iff h]
        simp [hname, hrec]
  · rw [if_neg hname] at h ⊢
    rw [allowUser_iff h]
    simp [hname]

namespace Consumer

variable {u : Consumer} {config : Config}

def Grants (u : Consumer) (config : Config) (topic : Bytes) : Prop :=
  Granted (config.records.cache u.settings) u.username u.clientID topic ∧
    ∀ ct, (config.canonical.bind fun f => f topic) = some ct →
      Granted (config.records.cache u.settings) u.username u.clientID ct

theorem allowClient_iff_grants {filter topic : Bytes} (h : u.allowClient config filter = true) :
    u.allowClient config topic = true ↔ u.Grants config topic := by
  rw [allowClient, Config.verdict, Bool.and_eq_true] at h
  rw [allowClient, Config.verdict, Bool.and_eq_true, Grants]
  apply and_congr
  · exact allowClient_iff_granted h.1
  · cases config.canonical.bind fun f => f topic with
    | none => simp
    | some ct =>
      dsimp only
      rw [allowClient_iff_granted h.1]
      simp

end Consumer

section Records

variable {s : Server} {u : Consumer} {tables : Moments} {v : ℤ} {r : Reader}

/-- The consumer may read every record of the response. -/
def OnlyReadable (s : Server) (u : Consumer) (tables : Moments) (v : ℤ) (r : Reader) : Prop :=
  ∀ row ∈ fetchRecords s u tables v r, ∃ config, u.authCache = some config ∧
    u.allowClient config row.message.topicName = true

/-- The condition: of a stream whose filter is admitted, the page of records from the offset on has
only topics that the rules grant. -/
def PageGranted (s : Server) (u : Consumer) (tables : Moments) (v : ℤ) (r : Reader) : Prop :=
  (readFetch v r).2.err = none → ∀ i name part st config,
    (askedParts (readFetch v r).1.2)[i]? = some (name, part) → s.routeFetch name = some st →
    part.partition = 0 → u.authCache = some config → u.allowClient config st.topicFilter = true →
    ∀ row ∈ (tables (3 * i + 2) st).fetch part.offset fetchRowLimit, u.Grants config row.message.topicName

theorem mem_fetchPartition {n : ℕ} {name : Bytes} {p : FetchPart} {row : QueueRow} :
    row ∈ (fetchPartition s u tables n name p).entries ↔ ∃ st config, s.routeFetch name = some st ∧
      p.partition = 0 ∧ u.authCache = some config ∧ u.allowClient config st.topicFilter = true ∧
      row ∈ (tables (n + 2) st).fetch p.offset fetchRowLimit := by
  rw [fetchPartition]
  cases s.routeFetch name with
  | none => simp
  | some st =>
    dsimp only
    by_cases hpart : p.partition = 0
    · rw [if_neg (not_not.mpr hpart), Consumer.canSubscribe]
      cases u.authCache with
      | none => simp
      | some config =>
        dsimp only
        by_cases hallow : u.allowClient config st.topicFilter = true
        · simp [hallow, hpart]
        · simp [hallow]
    · rw [if_pos hpart]
      simp [hpart]

/-- A consumer receives only what it may read exactly when the pages are granted. -/
theorem fetch_onlyReadable_iff : OnlyReadable s u tables v r ↔ PageGranted s u tables v r := by
  rw [OnlyReadable, fetchRecords, PageGranted]
  dsimp only
  by_cases herr : (readFetch v r).2.err = none
  swap
  · rw [if_pos (Option.isSome_iff_ne_none.mpr herr)]
    exact iff_of_true (fun _ h => absurd h List.not_mem_nil) fun h => absurd h herr
  rw [if_neg (by rw [herr]; decide)]
  constructor
  · intro h _ i name part st config hpart hst hzero hcache hadmit row hrow
    have hmem : row ∈ (fetchOnce s u tables (readFetch v r).1.2).flatMap FetchPartResult.entries := by
      rw [List.mem_flatMap]
      refine ⟨fetchPartition s u tables (3 * i) name part, ?_,
        (mem_fetchPartition).mpr ⟨st, config, hst, hzero, hcache, hadmit, hrow⟩⟩
      rw [fetchOnce, List.mem_iff_getElem?]
      exact ⟨i, by rw [List.getElem?_mapIdx, hpart]; rfl⟩
    obtain ⟨config', hcache', hallow⟩ := h row hmem
    obtain rfl := Option.some.inj (hcache.symm.trans hcache')
    exact (Consumer.allowClient_iff_grants hadmit).mp hallow
  · intro h row hmem
    obtain ⟨res, hres, hrow⟩ := List.mem_flatMap.mp hmem
    rw [fetchOnce, List.mem_iff_getElem?] at hres
    obtain ⟨i, hi⟩ := hres
    rw [List.getElem?_mapIdx] at hi
    obtain ⟨⟨name, part⟩, hpart, rfl⟩ := Option.map_eq_some_iff.mp hi
    obtain ⟨st, config, hst, hzero, hcache, hadmit, hfetch⟩ := (mem_fetchPartition).mp hrow
    exact ⟨config, hcache, (Consumer.allowClient_iff_grants hadmit).mpr
      (h herr i name part st config hpart hst hzero hcache hadmit row hfetch)⟩

end Records

def machineStreams : List Stream := [⟨ascii "machines", ascii "a/#", true⟩]

theorem machineStreams_names : (machineStreams.map Stream.streamName).Nodup := by
  decide

/-- A user that may read everything below `a` but `a/secret`. -/
def restricted : Consumer where
  username := ascii "alice"
  clientID := ascii "c1"
  settings := strictSettings
  authCache := some ⟨⟨[(ascii "alice", ⟨true, false, true, true⟩)],
    [(ascii "alice", [⟨ascii "a/secret", false, false⟩, ⟨ascii "a/#", true, false⟩])]⟩, none⟩

/-- A fetch of the first version for the stream's records from 0 on. -/
def fetchMachines : Bytes :=
  putInt 4 (-1) ++ putInt 4 0 ++ putInt 4 1 ++ putInt 4 1 ++ putInt 2 8 ++ ascii "machines" ++
    putInt 4 1 ++ putInt 4 0 ++ putInt 8 0 ++ putInt 4 1000

def secretQueue : QueueTable :=
  QueueTable.empty.enqueue [⟨[1], ascii "a/secret", [0x31], 1, ascii "c2", 0⟩]

/-- The consumer receives the record of `a/secret`, which it may not read. -/
theorem secret_received :
    let records := fetchRecords ⟨machineStreams, machineStreams_names⟩ restricted
      (fun _ _ => secretQueue) 0 (Reader.new fetchMachines)
    records.map (fun row => row.message.topicName) = [ascii "a/secret"] ∧
      (∀ config ∈ restricted.authCache, restricted.allowClient config (ascii "a/secret") = false) ∧
      ¬ OnlyReadable ⟨machineStreams, machineStreams_names⟩ restricted (fun _ _ => secretQueue) 0
        (Reader.new fetchMachines) := by
  intro records
  have hrecords : records.map (fun row => row.message.topicName) = [ascii "a/secret"] := by
    decide +kernel
  have hdenied : ∀ config ∈ restricted.authCache,
      restricted.allowClient config (ascii "a/secret") = false := by
    rintro config ⟨⟩
    decide
  refine ⟨hrecords, hdenied, ?_⟩
  intro h
  have hmem : ascii "a/secret" ∈ records.map (fun row => row.message.topicName) := by
    rw [hrecords]
    exact List.mem_singleton_self _
  obtain ⟨row, hrow, htopic⟩ := List.mem_map.mp hmem
  obtain ⟨config, hcache, hallow⟩ := h row hrow
  rw [htopic, hdenied config hcache] at hallow
  cases hallow

end MonsterMQ.Kafka
