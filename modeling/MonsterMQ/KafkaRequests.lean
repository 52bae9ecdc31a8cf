import MonsterMQ.KafkaProduce

/-!
# Requests that act while they are read

`handlePacket` of `internal/kafka/conn.go` hands a request frame to the handler of its API and closes
the connection when the reader has met an error. `produce` and `offsetCommit` store, publish and
commit while they read; no other handler does.
-/

namespace MonsterMQ.Kafka

open LittleEndian KeyedGroups

/-- The server, whether it knows users, and the results of the calls: for each record set of a request
and for each of its commits. -/
structure World where
  server : Server
  userManagementEnabled : Bool
  calls : ℕ → Calls
  commit : ℕ → Bool

structure Conn where
  rawSasl : Bool
  authenticated : Bool
  deriving DecidableEq, Repr

structure SetPart where
  topic : Bytes
  partition : ℤ
  set : Bytes
  deriving DecidableEq, Repr

def readSet (r : Reader) : (ℤ × Bytes) × Reader :=
  let (partition, r) := r.int32
  let (size, r) := r.int32
  let (set, r) := if size > 0 then r.raw size else (none, r)
  ((partition, set.getD []), r)

section Produce

variable (w : World) (clientID : Bytes)

/-- The loop over the partitions of a topic; it tells whether it has returned with an error. -/
def producePartitions (topic : Bytes) :
    ℕ → Reader → List (SetPart × Produced) → List (SetPart × Produced) × Reader × Bool
  | 0, r, done => (done, r, false)
  | np + 1, r, done =>
    let ((partition, set), r) := readSet r
    if r.err.isSome then (done, r, true)
    else
      let p := produceSet w.server (w.calls done.length) clientID topic partition set
      producePartitions topic np r (done ++ [(⟨topic, partition, set⟩, p)])

def produceTopics : ℕ → Reader → List (SetPart × Produced) → List (SetPart × Produced) × Reader
  | 0, r, done => (done, r)
  | nt + 1, r, done =>
    let (topic, r) := r.string
    let (np, r) := r.arrayLen 8
    match producePartitions w clientID topic np r done with
    | (done, r, true) => (done, r)
    | (done, r, false) => produceTopics nt r done

def produce (v : ℤ) (r : Reader) : List (SetPart × Produced) × Reader :=
  let r := if v ≥ 3 then r.nullableString.2 else r
  let (_, r) := r.int16
  let (_, r) := r.int32
  let (nt, r) := r.arrayLen 6
  produceTopics w clientID nt r []

end Produce

structure OffsetPart where
  group : Bytes
  topic : Bytes
  partition : ℤ
  offset : ℤ
  deriving DecidableEq, Repr

def defaultGroup : Bytes := Auth.ascii "default-group"

def commitOffset (w : World) (n : ℕ) (part : OffsetPart) : Code :=
  match w.server.routeFetch part.topic with
  | none => .unknownTopicOrPart
  | some _ => if w.commit n then .none else .unknownServerError

def readOffset (v : ℤ) (r : Reader) : (ℤ × ℤ) × Reader :=
  let (p, r) := r.int32
  let (off, r) := r.int64
  let r := if v = 1 then r.int64.2 else r
  let r := if v ≥ 6 then r.int32.2 else r
  ((p, off), r.nullableString.2)

section Commit

variable (w : World) (v : ℤ) (group : Bytes)

def commitPartitions (topic : Bytes) :
    ℕ → Reader → List (OffsetPart × Code) → List (OffsetPart × Code) × Reader
  | 0, r, done => (done, r)
  | np + 1, r, done =>
    let ((p, off), r) := readOffset v r
    let part : OffsetPart := ⟨group, topic, p, off⟩
    commitPartitions topic np r (done ++ [(part, commitOffset w done.length part)])

def commitTopics : ℕ → Reader → List (OffsetPart × Code) → List (OffsetPart × Code) × Reader
  | 0, r, done => (done, r)
  | nt + 1, r, done =>
    let (topic, r) := r.string
    let (np, r) := r.arrayLen 12
    let (done, r) := commitPartitions w v group topic np r done
    commitTopics nt r done

end Commit

def offsetCommit (w : World) (v : ℤ) (r : Reader) : List (OffsetPart × Code) × Reader :=
  let (group, r) := r.string
  let group := if group.isEmpty then defaultGroup else group
  let r := if v ≥ 1 then r.int32.2.string.2 else r
  let r := if v ≥ 7 then r.nullableString.2 else r
  let r := if 2 ≤ v ∧ v ≤ 4 then r.int64.2 else r
  let (nt, r) := r.arrayLen 6
  commitTopics w v group nt r []

inductive Effect where
  | produced (part : SetPart) (p : Produced)
  | committed (part : OffsetPart)
  deriving DecidableEq, Repr

structure Handled where
  effects : List Effect
  err : Option ReadError
  deriving DecidableEq, Repr

def supportedAPIs : List (ℤ × ℤ × ℤ) :=
  [(0, 0, 7), (1, 0, 10), (2, 0, 3), (3, 0, 4), (8, 0, 7), (9, 0, 1), (10, 0, 0), (11, 0, 2),
    (12, 0, 2), (13, 0, 2), (14, 0, 2), (17, 0, 1), (18, 0, 0), (36, 0, 1), (32, 0, 1)]

/-- The header of a request: the API, its version, the correlation ID and the client. -/
def readHeader (pkt : Bytes) : (ℤ × ℤ × ℤ × Bytes) × Reader :=
  let (apiKey, r) := (Reader.new pkt).int16
  let (version, r) := r.int16
  let (corr, r) := r.int32
  let (clientID, r) := r.string
  ((apiKey, version, corr, clientID), r)

/-- The connection may send the request, and the server knows it in this version. -/
def served (w : World) (c : Conn) (apiKey version : ℤ) : Bool :=
  !(w.userManagementEnabled && !c.authenticated && apiKey ≠ 18 && apiKey ≠ 17 && apiKey ≠ 36) &&
    supportedAPIs.any fun (key, lowest, highest) => key = apiKey && lowest ≤ version && version ≤ highest

/-- `handlePacket`, with the reader that the handlers of the other APIs leave. -/
def handlePacket (w : World) (others : ℤ → ℤ → Reader → Reader) (c : Conn) (pkt : Bytes) : Handled :=
  if c.rawSasl && !c.authenticated then ⟨[], none⟩
  else
    let ((apiKey, version, _, clientID), r) := readHeader pkt
    if r.err.isSome then ⟨[], r.err⟩
    else if !served w c apiKey version then ⟨[], none⟩
    else if apiKey = 0 then
      let (done, r) := produce w clientID version r
      ⟨done.map fun e => .produced e.1 e.2, r.err⟩
    else if apiKey = 8 then
      let (done, r) := offsetCommit w version r
      ⟨(done.filter fun e => e.2 = .none).map fun e => .committed e.1, r.err⟩
    else ⟨[], (others apiKey version r).err⟩

section Reading

def readPartitions (topic : Bytes) : ℕ → Reader → List SetPart → List SetPart × Reader × Bool
  | 0, r, parts => (parts, r, false)
  | np + 1, r, parts =>
    let ((partition, set), r) := readSet r
    if r.err.isSome then (parts, r, true)
    else readPartitions topic np r (parts ++ [⟨topic, partition, set⟩])

def readTopics : ℕ → Reader → List SetPart → List SetPart × Reader
  | 0, r, parts => (parts, r)
  | nt + 1, r, parts =>
    let (topic, r) := r.string
    let (np, r) := r.arrayLen 8
    match readPartitions topic np r parts with
    | (parts, r, true) => (parts, r)
    | (parts, r, false) => readTopics nt r parts

def readSets (v : ℤ) (r : Reader) : List SetPart × Reader :=
  let r := if v ≥ 3 then r.nullableString.2 else r
  let (_, r) := r.int16
  let (_, r) := r.int32
  let (nt, r) := r.arrayLen 6
  readTopics nt r []

def readOffsets (v : ℤ) (group topic : Bytes) : ℕ → Reader → List OffsetPart → List OffsetPart × Reader
  | 0, r, parts => (parts, r)
  | np + 1, r, parts =>
    let ((p, off), r) := readOffset v r
    readOffsets v group topic np r (parts ++ [⟨group, topic, p, off⟩])

def readOffsetTopics (v : ℤ) (group : Bytes) : ℕ → Reader → List OffsetPart → List OffsetPart × Reader
  | 0, r, parts => (parts, r)
  | nt + 1, r, parts =>
    let (topic, r) := r.string
    let (np, r) := r.arrayLen 12
    let (parts, r) := readOffsets v group topic np r parts
    readOffsetTopics v group nt r parts

/-- The offsets that `offsetCommit` reads; behind an error all numbers are zero. -/
def readCommits (v : ℤ) (r : Reader) : List OffsetPart × Reader :=
  let (group, r) := r.string
  let group := if group.isEmpty then defaultGroup else group
  let r := if v ≥ 1 then r.int32.2.string.2 else r
  let r := if v ≥ 7 then r.nullableString.2 else r
  let r := if 2 ≤ v ∧ v ≤ 4 then r.int64.2 else r
  let (nt, r) := r.arrayLen 6
  readOffsetTopics v group nt r []

variable (w : World) (clientID : Bytes)

def actSet (i : ℕ) (part : SetPart) : SetPart × Produced :=
  (part, produceSet w.server (w.calls i) clientID part.topic part.partition part.set)

def actOffset (i : ℕ) (part : OffsetPart) : OffsetPart × Code := (part, commitOffset w i part)

variable {w clientID}

private theorem producePartitions_eq (topic : Bytes) (np : ℕ) : ∀ (r : Reader) (parts : List SetPart),
    producePartitions w clientID topic np r (parts.mapIdx (actSet w clientID)) =
      ((readPartitions topic np r parts).1.mapIdx (actSet w clientID),
        (readPartitions topic np r parts).2) := by
  induction np with
  | zero => exact fun _ _ => rfl
  | succ np ih =>
    intro r parts
    rw [producePartitions, readPartitions]
    dsimp only
    split
    · rfl
    · rw [List.length_mapIdx, ← ih]
      simp [List.mapIdx_append, actSet]

private theorem produceTopics_eq (nt : ℕ) : ∀ (r : Reader) (parts : List SetPart),
    produceTopics w clientID nt r (parts.mapIdx (actSet w clientID)) =
      ((readTopics nt r parts).1.mapIdx (actSet w clientID), (readTopics nt r parts).2) := by
  induction nt with
  | zero => exact fun _ _ => rfl
  | succ nt ih =>
    intro r parts
    rw [produceTopics, readTopics]
    dsimp only
    rw [producePartitions_eq]
    cases h : readPartitions r.string.1 (r.string.2.arrayLen 8).1 (r.string.2.arrayLen 8).2 parts with
    | mk parts' rest =>
      obtain ⟨r', returned⟩ := rest
      cases returned with
      | true => rfl
      | false => exact ih r' parts'

/-- `produce` reads the sets and acts on each. -/
theorem produce_eq (v : ℤ) (r : Reader) : produce w clientID v r =
    ((readSets v r).1.mapIdx (actSet w clientID), (readSets v r).2) := by
  rw [produce, readSets]
  exact produceTopics_eq _ _ []

theorem commitPartitions_eq (v : ℤ) (group topic : Bytes) (np : ℕ) : ∀ (r : Reader) (parts : List OffsetPart),
    commitPartitions w v group topic np r (parts.mapIdx (actOffset w)) =
      ((readOffsets v group topic np r parts).1.mapIdx (actOffset w),
        (readOffsets v group topic np r parts).2) := by
  induction np with
  | zero => exact fun _ _ => rfl
  | succ np ih =>
    intro r parts
    rw [commitPartitions, readOffsets]
    dsimp only
    rw [List.length_mapIdx, ← ih]
    simp [List.mapIdx_append, actOffset]

private theorem commitTopics_eq (v : ℤ) (group : Bytes) (nt : ℕ) : ∀ (r : Reader) (parts : List OffsetPart),
    commitTopics w v group nt r (parts.mapIdx (actOffset w)) =
      ((readOffsetTopics v group nt r parts).1.mapIdx (actOffset w),
        (readOffsetTopics v group nt r parts).2) := by
  induction nt with
  | zero => exact fun _ _ => rfl
  | succ nt ih =>
    intro r parts
    rw [commitTopics, readOffsetTopics]
    dsimp only
    rw [commitPartitions_eq, ih]

/-- `offsetCommit` reads the offsets and commits each. -/
theorem offsetCommit_eq (v : ℤ) (r : Reader) : offsetCommit w v r =
    ((readCommits v r).1.mapIdx (actOffset w), (readCommits v r).2) := by
  rw [offsetCommit, readCommits]
  exact commitTopics_eq _ _ _ _ []

end Reading

def Effect.Inert : Effect → Prop
  | .produced _ p => p.Nothing
  | .committed _ => False

/-- A frame that cannot be read has changed nothing. -/
def Handled.Harmless (h : Handled) : Prop := h.err ≠ none → ∀ e ∈ h.effects, e.Inert

/-- The `i`-th set of a request of this client is refused, its first stream refuses it, or it has no
stream and no record of it is published. -/
def SetPart.Inert (w : World) (clientID : Bytes) (i : ℕ) (part : SetPart) : Prop :=
  part.partition = 0 →
  w.server.accepts (w.calls i) (producerOf clientID) part.topic (recordsOf (w.calls i) part.set) = true →
  setMessages (w.calls i) clientID part.topic part.set ≠ [] →
  (∃ st, (setStreams w.server (w.calls i) clientID part.topic part.set).head? = some st ∧
    (w.calls i).enqueue st = false) ∨
  (setStreams w.server (w.calls i) clientID part.topic part.set = [] ∧
    ∀ publish, (w.calls i).publish = some publish →
      ∀ j < (setMessages (w.calls i) clientID part.topic part.set).length, publish j = false)

/-- The Kafka topic has no stream, or the `i`-th commit fails. -/
def OffsetPart.Inert (w : World) (i : ℕ) (part : OffsetPart) : Prop :=
  w.server.routeFetch part.topic = none ∨ w.commit i = false

structure Reaches (w : World) (c : Conn) (pkt : Bytes) (apiKey : ℤ) : Prop where
  plain : ¬ (c.rawSasl && !c.authenticated) = true
  header : ¬ (readHeader pkt).2.err.isSome = true
  served : served w c (readHeader pkt).1.1 (readHeader pkt).1.2.1 = true
  key : (readHeader pkt).1.1 = apiKey

/-- The sets that a produce request has, with the reader behind them. -/
def setsOf (pkt : Bytes) : List SetPart × Reader := readSets (readHeader pkt).1.2.1 (readHeader pkt).2

/-- The offsets that a commit request has, with the reader behind them. -/
def offsetsOf (pkt : Bytes) : List OffsetPart × Reader :=
  readCommits (readHeader pkt).1.2.1 (readHeader pkt).2

/-- The condition on a frame: when the body of a produce or commit request cannot be read, each
partition that is read up to the error (for a commit also behind it, as zeros) does nothing. -/
structure CutSafely (w : World) (c : Conn) (pkt : Bytes) : Prop where
  sets : Reaches w c pkt 0 → (setsOf pkt).2.err ≠ none →
    ∀ (i : ℕ) (part : SetPart), (setsOf pkt).1[i]? = some part → part.Inert w (readHeader pkt).1.2.2.2 i
  offsets : Reaches w c pkt 8 → (offsetsOf pkt).2.err ≠ none →
    ∀ (i : ℕ) (part : OffsetPart), (offsetsOf pkt).1[i]? = some part → part.Inert w i

section Frames

variable {w : World} {c : Conn} {others : ℤ → ℤ → Reader → Reader} {pkt : Bytes}

private theorem commitOffset_ne_none {i : ℕ} {part : OffsetPart} :
    commitOffset w i part ≠ .none ↔ part.Inert w i := by
  rw [commitOffset, OffsetPart.Inert]
  cases w.server.routeFetch part.topic with
  | none => simp
  | some st =>
    cases w.commit i with
    | false => simp
    | true => simp

theorem forall_mem_mapIdx {α β : Type} {l : List α} {f : ℕ → α → β} {P : β → Prop} :
    (∀ x ∈ l.mapIdx f, P x) ↔ ∀ i a, l[i]? = some a → P (f i a) := by
  constructor
  · intro h i a ha
    apply h
    rw [List.mem_iff_getElem?]
    exact ⟨i, by rw [List.getElem?_mapIdx, ha]; rfl⟩
  · intro h x hx
    obtain ⟨i, hi⟩ := List.mem_iff_getElem?.mp hx
    rw [List.getElem?_mapIdx] at hi
    obtain ⟨a, ha, rfl⟩ := Option.map_eq_some_iff.mp hi
    exact h i a ha

private theorem produced_inert_iff {clientID : Bytes} {parts : List SetPart} :
    (∀ e ∈ (parts.mapIdx (actSet w clientID)).map fun e => Effect.produced e.1 e.2, e.Inert) ↔
      ∀ (i : ℕ) (part : SetPart), parts[i]? = some part → part.Inert w clientID i := by
  rw [List.forall_mem_map]
  have hmem : (∀ x ∈ parts.mapIdx (actSet w clientID), (Effect.produced x.1 x.2).Inert) ↔
      ∀ i part, parts[i]? = some part →
        (Effect.produced (actSet w clientID i part).1 (actSet w clientID i part).2).Inert :=
    forall_mem_mapIdx
  rw [hmem]
  exact forall₃_congr fun i part _ => produceSet_nothing_iff

theorem committed_inert_iff {parts : List OffsetPart} :
    (∀ e ∈ ((parts.mapIdx (actOffset w)).filter fun e => e.2 = .none).map fun e => Effect.committed e.1,
      e.Inert) ↔ ∀ (i : ℕ) (part : OffsetPart), parts[i]? = some part → part.Inert w i := by
  rw [List.forall_mem_map, List.forall_mem_filter]
  have hmem : (∀ x ∈ parts.mapIdx (actOffset w),
      decide (x.2 = Code.none) = true → (Effect.committed x.1).Inert) ↔
      ∀ i part, parts[i]? = some part → decide ((actOffset w i part).2 = Code.none) = true →
        (Effect.committed (actOffset w i part).1).Inert :=
    forall_mem_mapIdx
  rw [hmem]
  apply forall₃_congr
  intro i part _
  rw [← commitOffset_ne_none, decide_eq_true_iff]
  rfl

/-- A frame that cannot be read changes nothing exactly when it is cut safely. -/
theorem unreadable_harmless_iff : (handlePacket w others c pkt).Harmless ↔ CutSafely w c pkt := by
  rw [handlePacket]
  have hnone : ∀ err, ¬ Reaches w c pkt 0 → ¬ Reaches w c pkt 8 →
      ((Handled.mk [] err).Harmless ↔ CutSafely w c pkt) := by
    intro err h0 h8
    exact iff_of_true (fun _ e he => absurd he List.not_mem_nil)
      ⟨fun h => absurd h h0, fun h => absurd h h8⟩
  by_cases hsasl : (c.rawSasl && !c.authenticated) = true
  · rw [if_pos hsasl]
    exact hnone _ (fun h => h.plain hsasl) (fun h => h.plain hsasl)
  rw [if_neg hsasl]
  dsimp only
  by_cases herr : (readHeader pkt).2.err.isSome = true
  · rw [if_pos herr]
    exact hnone _ (fun h => h.header herr) (fun h => h.header herr)
  rw [if_neg herr]
  by_cases hserved : served w c (readHeader pkt).1.1 (readHeader pkt).1.2.1 = true
  swap
  · rw [if_pos (by simpa using hserved)]
    exact hnone _ (fun h => hserved h.served) (fun h => hserved h.served)
  rw [hserved, if_neg (by decide)]
  by_cases h0 : (readHeader pkt).1.1 = 0
  · have hsets : readSets (readHeader pkt).1.2.1 (readHeader pkt).2 = setsOf pkt := rfl
    have h8 : (readHeader pkt).1.1 ≠ 8 := by
      rw [h0]
      decide
    rw [if_pos h0, produce_eq, hsets, Handled.Harmless, produced_inert_iff]
    dsimp only
    constructor
    · intro h
      exact ⟨fun _ => h, fun hreach => absurd hreach.key h8⟩
    · intro h
      exact h.sets ⟨hsasl, herr, hserved, h0⟩
  rw [if_neg h0]
  by_cases h8 : (readHeader pkt).1.1 = 8
  · have hoffsets : readCommits (readHeader pkt).1.2.1 (readHeader pkt).2 = offsetsOf pkt := rfl
    rw [if_pos h8, offsetCommit_eq, hoffsets, Handled.Harmless, committed_inert_iff]
    dsimp only
    constructor
    · intro h
      exact ⟨fun h => absurd h.key h0, fun _ => h⟩
    · intro h
      exact h.offsets ⟨hsasl, herr, hserved, h8⟩
  · rw [if_neg h8]
    exact hnone _ (fun h => h0 h.key) (fun h => h8 h.key)

end Frames

/-- The server of two streams, where every commit succeeds. -/
def committingWorld : World where
  server := twoStreams
  userManagementEnabled := false
  calls := fun _ => failingStore
  commit := fun _ => true

/-- A commit of the group `g` for the topic `b` that ends in the offset of its second partition. -/
def cutCommit : Bytes :=
  putInt 2 8 ++ putInt 2 0 ++ putInt 4 1 ++ putInt 2 0 ++
    (putInt 2 1 ++ Auth.ascii "g" ++ putInt 4 1 ++ putInt 2 1 ++ Auth.ascii "b" ++ putInt 4 2 ++
      (putInt 4 0 ++ putInt 8 7 ++ putInt 2 (-1)) ++ (putInt 4 0 ++ [0, 0, 0, 0, 0, 0]))

/-- The frame cannot be read; the group's offset is set to 7 and then to 0. -/
theorem cutCommit_commits :
    let h := handlePacket committingWorld (fun _ _ r => r) ⟨false, false⟩ cutCommit
    h.err = some .short ∧ h.effects = [.committed ⟨Auth.ascii "g", Auth.ascii "b", 0, 7⟩,
      .committed ⟨Auth.ascii "g", Auth.ascii "b", 0, 0⟩] ∧ ¬ h.Harmless := by
  intro h
  have herr : h.err = some .short := by
    decide +kernel
  have heff : h.effects = [.committed ⟨Auth.ascii "g", Auth.ascii "b", 0, 7⟩,
      .committed ⟨Auth.ascii "g", Auth.ascii "b", 0, 0⟩] := by
    decide +kernel
  refine ⟨herr, heff, ?_⟩
  intro hharm
  exact hharm (by rw [herr]; decide) (.committed ⟨Auth.ascii "g", Auth.ascii "b", 0, 7⟩) (by rw [heff]; simp)

end MonsterMQ.Kafka
