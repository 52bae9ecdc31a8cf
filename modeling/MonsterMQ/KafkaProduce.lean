import MonsterMQ.KafkaRecordCodec
import MonsterMQ.KafkaStreams
import MonsterMQ.KeyedGroups
import Mathlib.Data.List.TakeWhile

/-!
# Producing records

`produceSet` of `internal/kafka/handlers.go` stores the records of one partition in the streams they belong
to and then publishes them one by one.
-/

namespace MonsterMQ.Kafka

open LittleEndian CheckedReads KeyedGroups List

inductive Code where
  | none
  | unknownTopicOrPart
  | unsupportedCompression
  | corruptMessage
  | topicAuthFailed
  | kafkaStorageError
  | unknownServerError
  deriving DecidableEq, Repr

/-- What a request meets: decompression, the access rules, new UUIDs, the time, and the results of
the calls. `publish` has the result for each record of the set. -/
structure Calls where
  inflate : Bytes → Option Bytes
  canPublish : Bytes → Bytes → Bool
  newString : ℕ → Bytes
  now : ℕ
  enqueue : Stream → Bool
  publish : Option (ℕ → Bool)

/-- What a request leaves: the batches that were stored, in order, the messages that were published and
the UUIDs that the orchestrator will skip. -/
structure Produced where
  code : Code
  stored : List (Stream × List Message)
  published : List Message
  selfPub : List Bytes
  deriving DecidableEq, Repr

def Produced.refused (code : Code) : Produced := ⟨code, [], [], []⟩

def defaultProducer : Bytes := Auth.ascii "kafka-producer"

def producerOf (clientID : Bytes) : Bytes := if clientID.isEmpty then defaultProducer else clientID

def mqttTopicOf (kafkaTopic : Bytes) (rec : Record) : Bytes :=
  let key := rec.key.getD []
  if key.length > 0 then key else kafkaTopic

def messageOf (c : Calls) (producer kafkaTopic : Bytes) (i : ℕ) (rec : Record) : Message where
  messageUUID := c.newString i
  topicName := mqttTopicOf kafkaTopic rec
  payload := rec.value
  qos := 1
  clientID := producer
  time := c.now

def messagesOf (c : Calls) (producer kafkaTopic : Bytes) (recs : List Record) : List Message :=
  recs.mapIdx (messageOf c producer kafkaTopic)

namespace Server

variable (s : Server) (c : Calls)

def accepts (producer kafkaTopic : Bytes) (recs : List Record) : Bool :=
  recs.all fun rec => s.isWriteAllowed kafkaTopic (mqttTopicOf kafkaTopic rec) &&
    c.canPublish producer (mqttTopicOf kafkaTopic rec)

/-- The streams of a message: the one named like the Kafka topic and the one of its MQTT topic. -/
@[grind =] def destinations (kafkaTopic : Bytes) (m : Message) : List Stream :=
  let named := s.byName kafkaTopic
  let routed := s.routeEnqueue m.topicName
  named.toList ++ if routed ≠ named then routed.toList else []

@[grind =] def additions (kafkaTopic : Bytes) (msgs : List Message) : List (Stream × Message) :=
  msgs.flatMap fun m => (s.destinations kafkaTopic m).map (·, m)

end Server

/-- The loop over the streams: what was stored, and whether all was. -/
def storeAll (enqueue : Stream → Bool) : List (Stream × List Message) → List (Stream × List Message) × Bool
  | [] => ([], true)
  | (st, msgs) :: rest =>
    if enqueue st then
      let (stored, ok) := storeAll enqueue rest
      ((st, msgs) :: stored, ok)
    else ([], false)

/-- The loop over the messages, from the `i`-th on: the code, what was published and the UUIDs that
are kept. -/
@[grind =] def publishAll (s : Server) (publish : ℕ → Bool) :
    ℕ → List Message → Code → Code × List Message × List Bytes
  | _, [], code => (code, [], [])
  | i, m :: msgs, code =>
    if publish i then
      let (code, published, selfPub) := publishAll s publish (i + 1) msgs code
      (code, m :: published,
        if (s.firstMatching m.topicName).isSome then m.messageUUID :: selfPub else selfPub)
    else publishAll s publish (i + 1) msgs .unknownServerError

@[grind =] def storeAndPublish (s : Server) (c : Calls) (kafkaTopic : Bytes) (msgs : List Message) : Produced :=
  let (stored, ok) := storeAll c.enqueue (groups (s.additions kafkaTopic msgs))
  if !ok then ⟨.kafkaStorageError, stored, [], []⟩
  else match c.publish with
    | none => ⟨.none, stored, [], []⟩
    | some publish =>
      let (code, published, selfPub) := publishAll s publish 0 msgs .none
      ⟨code, stored, published, selfPub⟩

def produceSet (s : Server) (c : Calls) (clientID kafkaTopic : Bytes) (partition : ℤ) (set : Bytes) :
    Produced :=
  if set.isEmpty then .refused .none
  else if partition ≠ 0 then .refused .unknownTopicOrPart
  else match decodeRecords c.inflate set with
    | .error (.error (.unsupportedCodec _)) => .refused .unsupportedCompression
    | .error _ => .refused .corruptMessage
    | .ok recs =>
      let producer := producerOf clientID
      if !s.accepts c producer kafkaTopic recs then .refused .topicAuthFailed
      else
        let msgs := messagesOf c producer kafkaTopic recs
        if msgs.isEmpty then .refused .none else storeAndPublish s c kafkaTopic msgs

def recordsOf (c : Calls) (set : Bytes) : List Record :=
  match decodeRecords c.inflate set with
  | .ok recs => recs
  | .error _ => []

@[grind =] def Produced.storedIn (p : Produced) (st : Stream) : List Message :=
  (p.stored.filter fun e => e.1 = st).flatMap Prod.snd

/-- An answer for some messages is true: with no error every one is stored once in each of its streams,
in order, and published; with an error none is stored or published. -/
structure Truthful (s : Server) (kafkaTopic : Bytes) (msgs : List Message) (p : Produced) : Prop where
  success : p.code = .none → p.published = msgs ∧ ∀ st, p.storedIn st = msgs.filter fun m =>
    s.byName kafkaTopic = some st ∨ s.routeEnqueue m.topicName = some st
  failure : p.code ≠ .none → p.published = [] ∧ ∀ st, p.storedIn st = []

section Loops

variable {enqueue : Stream → Bool} {s : Server} {publish : ℕ → Bool}

theorem storeAll_eq (g : List (Stream × List Message)) : storeAll enqueue g =
    (g.takeWhile fun e => enqueue e.1, g.all fun e => enqueue e.1) := by
  induction g with
  | nil => rfl
  | cons e g ih =>
    obtain ⟨st, msgs⟩ := e
    rw [storeAll, ih]
    cases h : enqueue st with
    | false => simp [h]
    | true => simp [h]

private theorem publishAll_failed (msgs : List Message) (i : ℕ) :
    (publishAll s publish i msgs .unknownServerError).1 = .unknownServerError := by
  induction msgs generalizing i with
  | nil => rfl
  | cons m msgs ih =>
    rw [publishAll]
    split
    · exact ih (i + 1)
    · exact ih (i + 1)

/-- The results from the `i`-th call on. -/
theorem results_succ {P : ℕ → Prop} {i n : ℕ} : (∀ j < n + 1, P (i + j)) ↔ P i ∧ ∀ j < n, P (i + 1 + j) := by
  rw [Nat.forall_lt_succ_left]
  simp only [Nat.add_zero, Nat.add_assoc, Nat.add_comm 1]

private theorem publishAll_code (msgs : List Message) (i : ℕ) :
    (publishAll s publish i msgs .none).1 = .none ↔ ∀ j < msgs.length, publish (i + j) = true := by
  induction msgs generalizing i with
  | nil => simp [publishAll]
  | cons m msgs ih =>
    rw [publishAll, length_cons, results_succ (P := fun j => publish j = true)]
    cases h : publish i with
    | false => simp [publishAll_failed]
    | true => simpa using ih (i + 1)

private theorem publishAll_published (msgs : List Message) (i : ℕ) (code : Code)
    (h : ∀ j < msgs.length, publish (i + j) = true) : (publishAll s publish i msgs code).2.1 = msgs := by
  induction msgs generalizing i with
  | nil => rfl
  | cons m msgs ih =>
    rw [length_cons, results_succ (P := fun j => publish j = true)] at h
    rw [publishAll, if_pos h.1]
    simp only [ih (i + 1) h.2]

theorem publishAll_nothing (msgs : List Message) (i : ℕ) (code : Code) :
    (publishAll s publish i msgs code).2.1 = [] ↔ ∀ j < msgs.length, publish (i + j) = false := by
  induction msgs generalizing i code with
  | nil => simp [publishAll]
  | cons m msgs ih =>
    rw [publishAll, length_cons, results_succ (P := fun j => publish j = false)]
    cases h : publish i with
    | true => simp
    | false => simpa using ih (i + 1) _

end Loops

section Truth

variable {s : Server} {c : Calls} {clientID kafkaTopic set : Bytes} {partition : ℤ}

private theorem mem_destinations {m : Message} {st : Stream} : st ∈ s.destinations kafkaTopic m ↔
    s.byName kafkaTopic = some st ∨ s.routeEnqueue m.topicName = some st := by
  rw [Server.destinations]
  by_cases h : s.routeEnqueue m.topicName = s.byName kafkaTopic
  · simp [h]
  · simp [h]

private theorem destinations_nodup (m : Message) : (s.destinations kafkaTopic m).Nodup := by
  rw [Server.destinations]
  cases hn : s.byName kafkaTopic with
  | none =>
    cases s.routeEnqueue m.topicName with
    | none => simp
    | some st => simp
  | some named =>
    cases s.routeEnqueue m.topicName with
    | none => simp
    | some routed =>
      by_cases h : routed = named
      · simp [h]
      · simp [h, Ne.symm h]

theorem additions_of_stream (msgs : List Message) (st : Stream) :
    ((s.additions kafkaTopic msgs).filter fun e => e.1 = st).map Prod.snd = msgs.filter fun m =>
      s.byName kafkaTopic = some st ∨ s.routeEnqueue m.topicName = some st := by
  induction msgs with
  | nil => rfl
  | cons m msgs ih =>
    rw [Server.additions, flatMap_cons, ← Server.additions, filter_append, map_append, ih]
    have hone : (((s.destinations kafkaTopic m).map (·, m)).filter fun e => e.1 = st).map Prod.snd =
        if st ∈ s.destinations kafkaTopic m then [m] else [] := by
      have hnodup : (s.destinations kafkaTopic m).Nodup := destinations_nodup m
      generalize s.destinations kafkaTopic m = l at hnodup
      induction l with
      | nil => rfl
      | cons x l ih =>
        rw [nodup_cons] at hnodup
        rw [map_cons]
        by_cases hx : x = st
        · subst hx
          rw [filter_cons_of_pos (by simp), map_cons, ih hnodup.2, if_neg hnodup.1,
            if_pos mem_cons_self]
        · rw [filter_cons_of_neg (by simpa using hx), ih hnodup.2]
          simp [Ne.symm hx]
    rw [hone, filter_cons]
    simp only [mem_destinations, decide_eq_true_eq]
    split <;> rfl

private theorem storedIn_all (msgs : List Message) (code : Code) (published : List Message)
    (selfPub : List Bytes) (st : Stream) :
    (Produced.mk code (groups (s.additions kafkaTopic msgs)) published selfPub).storedIn st =
      msgs.filter fun m => s.byName kafkaTopic = some st ∨ s.routeEnqueue m.topicName = some st := by
  rw [Produced.storedIn, flatMap_filter_eq_valuesOf (nodup_keys_groups _), valuesOf_groups,
    additions_of_stream]

theorem storedIn_nil_iff {code : Code} {stored : List (Stream × List Message)} {published : List Message}
    {selfPub : List Bytes} (h : ∀ e ∈ stored, e.2 ≠ []) :
    (∀ st, (Produced.mk code stored published selfPub).storedIn st = []) ↔ stored = [] := by
  constructor
  · intro hnone
    cases stored with
    | nil => rfl
    | cons e stored =>
      have hst := hnone e.1
      rw [Produced.storedIn, flatMap_eq_nil_iff] at hst
      exact absurd (hst e (by simp)) (h e mem_cons_self)
  · rintro rfl st
    rfl

theorem additions_map_fst (msgs : List Message) : (s.additions kafkaTopic msgs).map Prod.fst =
    msgs.flatMap (s.destinations kafkaTopic) := by
  rw [Server.additions, map_flatMap]
  congr 1
  funext m
  rw [map_map]
  exact map_id _

def setMessages (c : Calls) (clientID kafkaTopic set : Bytes) : List Message :=
  messagesOf c (producerOf clientID) kafkaTopic (recordsOf c set)

def setStreams (s : Server) (c : Calls) (clientID kafkaTopic set : Bytes) : List Stream :=
  (setMessages c clientID kafkaTopic set).flatMap (s.destinations kafkaTopic)

/-- The condition on the calls of a set that is accepted: the first stream refuses it; or every stream
takes it, and every publish succeeds, or all fail and there is no stream. -/
def AllOrNothing (s : Server) (c : Calls) (clientID kafkaTopic set : Bytes) : Prop :=
  (∃ st, (setStreams s c clientID kafkaTopic set).head? = some st ∧ c.enqueue st = false) ∨
  ((∀ st ∈ setStreams s c clientID kafkaTopic set, c.enqueue st = true) ∧
    ∃ publish, c.publish = some publish ∧
      ((∀ i < (setMessages c clientID kafkaTopic set).length, publish i = true) ∨
        (setStreams s c clientID kafkaTopic set = [] ∧
          ∀ i < (setMessages c clientID kafkaTopic set).length, publish i = false)))

variable {msgs : List Message}

theorem refused_truthful {code : Code} (h : code = .none → msgs = []) :
    Truthful s kafkaTopic msgs (.refused code) where
  success := by
    intro hcode
    rw [h hcode]
    exact ⟨rfl, fun _ => rfl⟩
  failure := fun _ => ⟨rfl, fun _ => rfl⟩

theorem storageError_truthful_iff {g : List (Stream × List Message)}
    (hne : ∀ e ∈ g, e.2 ≠ []) (hfail : ¬ g.all (fun e => c.enqueue e.1) = true) :
    Truthful s kafkaTopic msgs ⟨.kafkaStorageError, g.takeWhile fun e => c.enqueue e.1, [], []⟩ ↔
      ∃ st, (g.map Prod.fst).head? = some st ∧ c.enqueue st = false := by
  have hnil : g.takeWhile (fun e => c.enqueue e.1) = [] ↔
      ∃ st, (g.map Prod.fst).head? = some st ∧ c.enqueue st = false := by
    cases g with
    | nil => exact absurd rfl hfail
    | cons e g =>
      rw [map_cons, List.head?_cons, takeWhile_cons]
      cases h : c.enqueue e.1 with
      | false => simp [h]
      | true => simp [h]
  rw [← hnil]
  constructor
  · intro h
    exact (storedIn_nil_iff fun e he => hne e ((takeWhile_sublist _).mem he)).mp (h.failure (by simp)).2
  · intro h
    rw [h]
    exact ⟨nofun, fun _ => ⟨rfl, fun _ => rfl⟩⟩

/-- With everything stored the answer is true exactly when all is published, or nothing is and there
was nothing to store. -/
theorem published_truthful_iff {publish : ℕ → Bool} :
    Truthful s kafkaTopic msgs ⟨(publishAll s publish 0 msgs .none).1,
      groups (s.additions kafkaTopic msgs), (publishAll s publish 0 msgs .none).2.1,
      (publishAll s publish 0 msgs .none).2.2⟩ ↔
    (∀ i < msgs.length, publish i = true) ∨
      (groups (s.additions kafkaTopic msgs) = [] ∧ ∀ i < msgs.length, publish i = false) := by
  have hcode : (publishAll s publish 0 msgs .none).1 = .none ↔ _ := publishAll_code msgs 0
  have hnothing : (publishAll s publish 0 msgs .none).2.1 = [] ↔ _ := publishAll_nothing msgs 0 .none
  simp only [Nat.zero_add] at hcode hnothing
  by_cases hall : ∀ i < msgs.length, publish i = true
  · refine iff_of_true ⟨?_, ?_⟩ (.inl hall)
    · intro _
      exact ⟨publishAll_published msgs 0 .none (by simpa using hall), storedIn_all msgs _ _ _⟩
    · intro hno
      exact absurd (hcode.mpr hall) hno
  · constructor
    · intro h
      obtain ⟨hpub, hstored⟩ := h.failure fun hno => hall (hcode.mp hno)
      exact .inr ⟨(storedIn_nil_iff (groups_ne_nil _)).mp hstored, hnothing.mp hpub⟩
    · rintro (h | ⟨hempty, hno⟩)
      · exact absurd h hall
      · refine ⟨fun h => absurd (hcode.mp h) hall, fun _ => ⟨hnothing.mpr hno, ?_⟩⟩
        rw [hempty]
        exact fun _ => rfl

theorem storeAndPublish_truthful_iff (hmsgs : msgs ≠ []) :
    Truthful s kafkaTopic msgs (storeAndPublish s c kafkaTopic msgs) ↔
      (∃ st, (msgs.flatMap (s.destinations kafkaTopic)).head? = some st ∧ c.enqueue st = false) ∨
      ((∀ st ∈ msgs.flatMap (s.destinations kafkaTopic), c.enqueue st = true) ∧
        ∃ publish, c.publish = some publish ∧ ((∀ i < msgs.length, publish i = true) ∨
          (msgs.flatMap (s.destinations kafkaTopic) = [] ∧ ∀ i < msgs.length, publish i = false))) := by
  have hkeys := mem_keys_groups (s.additions kafkaTopic msgs)
  have hhead := head_keys_groups (s.additions kafkaTopic msgs)
  have hempty : groups (s.additions kafkaTopic msgs) = [] ↔
      (s.additions kafkaTopic msgs).map Prod.fst = [] := by
    rw [← List.head?_eq_none_iff (l := (s.additions kafkaTopic msgs).map Prod.fst), ← hhead,
      List.head?_eq_none_iff, map_eq_nil_iff]
  have hall : (groups (s.additions kafkaTopic msgs)).all (fun e => c.enqueue e.1) = true ↔
      ∀ st ∈ (s.additions kafkaTopic msgs).map Prod.fst, c.enqueue st = true := by
    rw [all_eq_true, ← forall_mem_map (f := Prod.fst) (P := fun st => c.enqueue st = true)]
    exact forall_congr' fun st => by rw [hkeys st]
  rw [storeAndPublish, storeAll_eq, ← additions_map_fst, ← hempty, ← hhead, ← hall]
  dsimp only
  by_cases hok : (groups (s.additions kafkaTopic msgs)).all (fun e => c.enqueue e.1) = true
  · have hfirst : ¬ ∃ st, ((groups (s.additions kafkaTopic msgs)).map Prod.fst).head? = some st ∧
        c.enqueue st = false := by
      rintro ⟨st, hst, hno⟩
      rw [hhead] at hst
      rw [hall.mp hok st (mem_of_head? hst)] at hno
      cases hno
    rw [hok, takeWhile_eq_self_iff.mpr (all_eq_true.mp hok), if_neg (by decide),
      or_iff_right hfirst, and_iff_right rfl]
    cases hpub : c.publish with
    | none =>
      refine iff_of_false (fun h => hmsgs (h.success rfl).1.symm) ?_
      rintro ⟨publish, h, -⟩
      cases h
    | some publish =>
      dsimp only
      rw [published_truthful_iff]
      simp only [Option.some.injEq, exists_eq_left']
  · rw [if_pos (by simpa using hok), storageError_truthful_iff (groups_ne_nil _) hok]
    constructor
    · exact .inl
    · rintro (h | ⟨h, -⟩)
      · exact h
      · exact absurd h hok

theorem produceSet_cases : (∃ code, produceSet s c clientID kafkaTopic partition set = .refused code ∧
      (code = .none → setMessages c clientID kafkaTopic set = []) ∧
      ¬ (partition = 0 ∧ s.accepts c (producerOf clientID) kafkaTopic (recordsOf c set) = true ∧
        setMessages c clientID kafkaTopic set ≠ [])) ∨
    (partition = 0 ∧ s.accepts c (producerOf clientID) kafkaTopic (recordsOf c set) = true ∧
      setMessages c clientID kafkaTopic set ≠ [] ∧
      produceSet s c clientID kafkaTopic partition set =
        storeAndPublish s c kafkaTopic (setMessages c clientID kafkaTopic set)) := by
  rw [produceSet]
  by_cases hset : set.isEmpty = true
  · rw [if_pos hset, isEmpty_iff.mp hset]
    exact .inl ⟨_, rfl, fun _ => rfl, fun h => h.2.2 rfl⟩
  rw [if_neg hset]
  by_cases hpart : partition = 0
  swap
  · rw [if_pos hpart]
    exact .inl ⟨_, rfl, nofun, fun h => hpart h.1⟩
  rw [if_neg (not_not.mpr hpart)]
  cases hdec : decodeRecords c.inflate set with
  | error fault =>
    have hmsgs : setMessages c clientID kafkaTopic set = [] := by
      rw [setMessages, recordsOf, hdec]
      rfl
    split
    · exact .inl ⟨_, rfl, fun _ => hmsgs, fun h => h.2.2 hmsgs⟩
    · exact .inl ⟨_, rfl, fun _ => hmsgs, fun h => h.2.2 hmsgs⟩
    · rename_i h
      cases h
  | ok recs =>
    have hrecs : recordsOf c set = recs := by
      rw [recordsOf, hdec]
    rw [setMessages, hrecs]
    dsimp only
    by_cases hacc : s.accepts c (producerOf clientID) kafkaTopic recs = true
    swap
    · rw [if_pos (by simpa using hacc)]
      exact .inl ⟨_, rfl, nofun, fun h => hacc h.2.1⟩
    rw [hacc, if_neg (by decide)]
    by_cases hmsgs : messagesOf c (producerOf clientID) kafkaTopic recs = []
    · rw [hmsgs]
      exact .inl ⟨_, rfl, fun _ => rfl, fun h => h.2.2 rfl⟩
    · rw [if_neg (by simpa using hmsgs)]
      exact .inr ⟨hpart, rfl, hmsgs, rfl⟩

private theorem produceSet_truthful_iff : Truthful s kafkaTopic (setMessages c clientID kafkaTopic set)
      (produceSet s c clientID kafkaTopic partition set) ↔
    (partition = 0 → s.accepts c (producerOf clientID) kafkaTopic (recordsOf c set) = true →
      setMessages c clientID kafkaTopic set ≠ [] → AllOrNothing s c clientID kafkaTopic set) := by
  rcases produceSet_cases (s := s) (c := c) with ⟨code, heq, hcode, hno⟩ | ⟨hpart, hacc, hmsgs, heq⟩
  · rw [heq]
    exact iff_of_true (refused_truthful hcode) fun hpart hacc hmsgs => absurd ⟨hpart, hacc, hmsgs⟩ hno
  · rw [heq, storeAndPublish_truthful_iff hmsgs]
    exact ⟨fun h _ _ _ => h, fun h => h hpart hacc hmsgs⟩

/-- The answer for a set is true of the records that the set encodes. -/
structure TellsTruth (s : Server) (c : Calls) (clientID kafkaTopic set : Bytes) (p : Produced) : Prop where
  success : p.code = .none → ∀ recs, Encodes c.inflate set recs →
    p.published = messagesOf c (producerOf clientID) kafkaTopic recs ∧
      ∀ st, p.storedIn st = (messagesOf c (producerOf clientID) kafkaTopic recs).filter fun m =>
        s.byName kafkaTopic = some st ∨ s.routeEnqueue m.topicName = some st
  failure : p.code ≠ .none → p.published = [] ∧ ∀ st, p.storedIn st = []

/-- For a set of one format, or one that cannot be decoded, the answer is true exactly when the set is
refused or the calls are all or nothing. -/
theorem produceSet_tellsTruth_iff
    (hset : (∃ recs, Encodes c.inflate set recs) ∨ ∃ e, decodeRecords c.inflate set = .error e) :
    TellsTruth s c clientID kafkaTopic set (produceSet s c clientID kafkaTopic partition set) ↔
    (partition = 0 → s.accepts c (producerOf clientID) kafkaTopic (recordsOf c set) = true →
      setMessages c clientID kafkaTopic set ≠ [] → AllOrNothing s c clientID kafkaTopic set) := by
  rw [← produceSet_truthful_iff]
  constructor
  · intro h
    refine ⟨?_, h.failure⟩
    intro hcode
    rcases hset with ⟨recs, hrecs⟩ | ⟨e, he⟩
    · have hdec : recordsOf c set = recs := by
        rw [recordsOf, decodeRecords_encodes hrecs]
      rw [setMessages, hdec]
      exact h.success hcode recs hrecs
    · rcases produceSet_cases (s := s) (c := c) with ⟨code, heq, hnone, -⟩ | ⟨-, -, hmsgs, -⟩
      · rw [heq] at hcode ⊢
        exact (refused_truthful hnone).success hcode
      · rw [setMessages, recordsOf, he] at hmsgs
        exact absurd rfl hmsgs
  · intro h
    refine ⟨?_, h.failure⟩
    intro hcode recs hrecs
    have hdec : recordsOf c set = recs := by
      rw [recordsOf, decodeRecords_encodes hrecs]
    rw [← hdec]
    exact h.success hcode

def Produced.Nothing (p : Produced) : Prop := p.stored = [] ∧ p.published = []

theorem storeAndPublish_nothing_iff : (storeAndPublish s c kafkaTopic msgs).Nothing ↔
      (∃ st, (msgs.flatMap (s.destinations kafkaTopic)).head? = some st ∧ c.enqueue st = false) ∨
      (msgs.flatMap (s.destinations kafkaTopic) = [] ∧
        ∀ publish, c.publish = some publish → ∀ i < msgs.length, publish i = false) := by
  have hhead := head_keys_groups (s.additions kafkaTopic msgs)
  rw [storeAndPublish, storeAll_eq, ← additions_map_fst]
  cases hg : groups (s.additions kafkaTopic msgs) with
  | nil =>
    rw [hg] at hhead
    have hempty : (s.additions kafkaTopic msgs).map Prod.fst = [] :=
      List.head?_eq_none_iff.mp hhead.symm
    rw [hempty]
    dsimp only [takeWhile_nil, all_nil, List.head?_nil]
    rw [if_neg (by decide)]
    cases hpub : c.publish with
    | none => simp [Produced.Nothing]
    | some publish =>
      have hnothing : (publishAll s publish 0 msgs .none).2.1 = [] ↔ _ :=
        publishAll_nothing msgs 0 .none
      simp only [Nat.zero_add] at hnothing
      simp [Produced.Nothing, hnothing]
  | cons e g =>
    rw [hg, map_cons, List.head?_cons] at hhead
    have hne : (s.additions kafkaTopic msgs).map Prod.fst ≠ [] := by
      intro hnil
      rw [hnil] at hhead
      cases hhead
    rw [← hhead, takeWhile_cons, all_cons]
    cases hq : c.enqueue e.1 with
    | false => simp [Produced.Nothing, hq]
    | true =>
      refine iff_of_false ?_ (by simp [hq, hne])
      dsimp only
      split
      · exact fun h => by cases h.1
      · split
        · exact fun h => by cases h.1
        · exact fun h => by cases h.1

/-- A record set leaves nothing exactly when it is refused, its first stream refuses it, or it has no
stream and no record of it is published. -/
theorem produceSet_nothing_iff : (produceSet s c clientID kafkaTopic partition set).Nothing ↔
    (partition = 0 → s.accepts c (producerOf clientID) kafkaTopic (recordsOf c set) = true →
      setMessages c clientID kafkaTopic set ≠ [] →
      (∃ st, (setStreams s c clientID kafkaTopic set).head? = some st ∧ c.enqueue st = false) ∨
      (setStreams s c clientID kafkaTopic set = [] ∧ ∀ publish, c.publish = some publish →
        ∀ i < (setMessages c clientID kafkaTopic set).length, publish i = false)) := by
  rcases produceSet_cases (s := s) (c := c) with ⟨code, heq, hcode, hno⟩ | ⟨hpart, hacc, hmsgs, heq⟩
  · rw [heq]
    exact iff_of_true ⟨rfl, rfl⟩ fun hpart hacc hmsgs => absurd ⟨hpart, hacc, hmsgs⟩ hno
  · rw [heq, storeAndPublish_nothing_iff]
    exact ⟨fun h _ _ _ => h, fun h => h hpart hacc hmsgs⟩

end Truth

def someAndAll : List Stream :=
  [⟨Auth.ascii "a", Auth.ascii "x/#", true⟩, ⟨Auth.ascii "b", Auth.ascii "#", true⟩]

private theorem someAndAll_names : (someAndAll.map Stream.streamName).Nodup := by
  decide

def twoStreams : Server := ⟨someAndAll, someAndAll_names⟩

/-- Everything succeeds, except for the store of the first stream. -/
def failingStore : Calls where
  inflate := fun _ => none
  canPublish := fun _ _ => true
  newString := fun i => [UInt8.ofNat i]
  now := 0
  enqueue := fun st => st.streamName ≠ Auth.ascii "a"
  publish := some fun _ => true

def workingStores : Calls := { failingStore with enqueue := fun _ => true }

def oneRecordBatch : Batch :=
  ⟨0, 0, 0, 0, 0, 0, 0, 0, 0, 0, [⟨0, 0, 0, some (Auth.ascii "x/1"), some [0x31], []⟩], none⟩

private theorem oneRecordBatch_encodes (inflate : Bytes → Option Bytes) :
    Encodes inflate (encodeBatch oneRecordBatch) [⟨some (Auth.ascii "x/1"), [0x31]⟩] := by
  refine .inl ⟨[oneRecordBatch], [], ?_, incomplete_nil, ?_, by decide⟩
  · intro b hb
    rw [mem_singleton.mp hb]
    refine ⟨?_, by decide, fun z hz => by cases hz⟩
    intro r hr
    rw [mem_singleton.mp hr]
    exact ⟨by decide, by decide, by decide⟩
  · rw [flatMap_singleton, append_nil]

/-- With all calls successful the record is stored in both streams and published. -/
theorem stored_and_published :
    TellsTruth twoStreams workingStores [] (Auth.ascii "b") (encodeBatch oneRecordBatch)
      (produceSet twoStreams workingStores [] (Auth.ascii "b") 0 (encodeBatch oneRecordBatch)) :=
  (produceSet_tellsTruth_iff (.inl ⟨_, oneRecordBatch_encodes _⟩)).mpr fun _ _ _ =>
    .inr ⟨fun _ _ => rfl, _, rfl, .inl fun _ _ => rfl⟩

/-- The record is stored in the stream of the Kafka topic before the other store fails. -/
theorem stored_and_refused :
    let p := produceSet twoStreams failingStore [] (Auth.ascii "b") 0 (encodeBatch oneRecordBatch)
    p.code = .kafkaStorageError ∧ (p.storedIn ⟨Auth.ascii "b", Auth.ascii "#", true⟩).length = 1 ∧
      ¬ TellsTruth twoStreams failingStore [] (Auth.ascii "b") (encodeBatch oneRecordBatch) p := by
  intro p
  have hcode : p.code = .kafkaStorageError := by
    decide +kernel
  have hstored : (p.storedIn ⟨Auth.ascii "b", Auth.ascii "#", true⟩).length = 1 := by
    decide +kernel
  refine ⟨hcode, hstored, ?_⟩
  intro h
  rw [(h.failure (by rw [hcode]; decide)).2] at hstored
  cases hstored

end MonsterMQ.Kafka
