import MonsterMQ.AuthDecisionMemo
import MonsterMQ.VirtualTreeProjection

/-!
# Writing through virtual trees

A publish to a virtual topic takes effect under the canonical topic of its binding.
-/

namespace MonsterMQ.Virtual

open LittleEndian PeerLink Auth Topics

structure Broker where
  settings : Settings
  config : Config
  trees : List Tree
  /-- The UNS and WinCC OA hooks take the publish of an inline client of this topic themselves. -/
  handles : Bytes → Bool
  /-- The hooks of `OnPublish` let a publish of this topic through. -/
  passes : Bytes → Bool

structure Client where
  username : Bytes
  clientID : Bytes
  /-- The anonymous user of the local host, with `allowAnonymousLocalhost`. -/
  localhost : Bool
  deriving DecidableEq, Repr

structure Principal where
  username : Bytes
  localhost : Bool
  deriving DecidableEq, Repr

inductive Refusal where
  | surplusWildcard
  | noTopic
  | topicNameInvalid
  | receiveMaximum
  | notAuthorized
  | packetIdentifierInUse
  | byHook
  | badRequest
  | tooLarge
  | unreadable
  deriving DecidableEq, Repr

namespace Broker

variable (b : Broker)

/-- `AllowClient` for a publish; `Allow` has no client ID. -/
def allowClient (username clientID topic : Bytes) : Bool :=
  b.config.verdict b.settings ⟨username, clientID, topic, true⟩

def onACLCheck (cl : Client) (topic : Bytes) : Bool :=
  if cl.localhost then true
  else if !b.allowClient cl.username cl.clientID topic then false
  else match b.config.canonical.bind fun f => f topic with
    | none => true
    | some c => if c ≠ topic then b.allowClient cl.username cl.clientID c else true

@[grind =] def virtualTrees : Option Resolver :=
  let r := newResolver b.trees
  if r.isEmpty then none else some r

@[grind =] def resolveVirtualPublish (cl : Option Client) (topic : Bytes) : Except Refusal Bytes :=
  match b.virtualTrees with
  | none => .ok topic
  | some vr =>
    if !vr.inVirtualNamespace topic then .ok topic
    else match vr.publish topic with
      | .error _ => .error .topicNameInvalid
      | .ok canonical =>
        if cl.any fun cl => !b.onACLCheck cl canonical then .error .notAuthorized else .ok canonical

structure Publish where
  topic : Bytes
  qos : ℕ
  /-- `TryReserveReceiveQuota`. -/
  quota : Bool
  /-- The packet identifier is the one of a PUBREC. -/
  inUse : Bool
  deriving DecidableEq, Repr

@[grind =] def processPublish (cl : Option Client) (pk : Publish) : Except Refusal Bytes :=
  if cl.isSome && !isValidFilter pk.topic true then .error .topicNameInvalid
  else if pk.qos > 0 && cl.isSome && !pk.quota then .error .receiveMaximum
  else if cl.any fun cl => !b.onACLCheck cl pk.topic then .error .notAuthorized
  else match b.resolveVirtualPublish cl pk.topic with
    | .error code => .error code
    | .ok topic =>
      if cl.isSome && pk.qos > 0 && pk.inUse then .error .packetIdentifierInUse
      else if !b.passes topic then .error .byHook
      else .ok topic

/-- The checks of `PublishValidate` that a packet of `Publish` and `PublishMessage` can fail. -/
def injectPacket (topic : Bytes) : Except Refusal Bytes :=
  if topic.contains 0x2B || topic.contains 0x23 then .error .surplusWildcard
  else if topic.isEmpty then .error .noTopic
  else b.processPublish none ⟨topic, 0, true, false⟩

def publishFn (topic : Bytes) : Except Refusal Bytes :=
  if b.handles topic then .error .byHook else b.injectPacket topic

/-- `sendLWT`: the topic of the message that is sent, or kept for `sendDelayedLWT`. -/
def sendLWT (cl : Client) (topic : Bytes) : Except Refusal Bytes := b.resolveVirtualPublish (some cl) topic

/-- The block of the GraphQL interface's `Publish` on virtual topics. -/
def checkVirtual (username topic : Bytes) : Except Refusal Unit :=
  match b.virtualTrees with
  | none => .ok ()
  | some vr =>
    if !vr.inVirtualNamespace topic then .ok ()
    else match vr.publish topic with
      | .error _ => .error .topicNameInvalid
      | .ok canonical =>
        if canonical ≠ topic && !b.allowClient username [] canonical then .error .notAuthorized
        else .ok ()

/-- `Publish` of the GraphQL interface; `decodes` tells whether the payload can be read. -/
def graphqlPublish (username topic : Bytes) (decodes : Bool) : Except Refusal Bytes :=
  if !b.allowClient username [] topic then .error .notAuthorized
  else match b.checkVirtual username topic with
    | .error code => .error code
    | .ok () =>
      if topic.contains 0x2B || topic.contains 0x23 then .error .surplusWildcard
      else if !decodes then .error .unreadable
      else b.publishFn topic

def allowed (user : Principal) (topic : Bytes) : Bool :=
  if user.localhost then true else b.allowClient user.username [] topic

end Broker

def levelsFit : List Bytes → Bool
  | [] => true
  | part :: parts =>
    if part.contains 0x23 && (part ≠ hashLevel || !parts.isEmpty) then false
    else if part.contains 0x2B && part ≠ plusLevel then false
    else levelsFit parts

def validPublish (topic : Bytes) : Bool :=
  !topic.isEmpty && !topic.contains 0 && levelsFit (levels topic) &&
    !(topic.contains 0x2B || topic.contains 0x23)

def subjectToTopic (subject : Bytes) : Bytes :=
  subject.map fun c =>
    if c = 0x2E then slashByte else if c = 0x2A then 0x2B else if c = 0x3E then 0x23 else c

namespace Broker

variable (b : Broker)

def send (user : Principal) (topic payload : Bytes) (maxMessageSize : ℕ) : Except Refusal Bytes :=
  if !validPublish topic then .error .badRequest
  else if !b.allowed user topic then .error .notAuthorized
  else if payload.length > maxMessageSize && maxMessageSize > 0 then .error .tooLarge
  else b.publishFn topic

/-- The two writes of a NATS connection, `handlePub` and the one of a key: both ask `canPublish` about
the topic and publish. -/
def natsPublish (username topic : Bytes) (authenticated : Bool) : Except Refusal Bytes :=
  if !authenticated then .error .notAuthorized
  else if !b.allowClient username [] topic then .error .notAuthorized
  else b.publishFn topic

end Broker

inductive Request where
  | mqtt (cl : Client) (pk : Broker.Publish)
  | will (cl : Client) (topic : Bytes) (delayed : Bool)
  | graphql (username topic : Bytes) (decodes : Bool)
  | rest (user : Principal) (topic payload : Bytes) (maxMessageSize : ℕ)
  | nats (username subject : Bytes) (authenticated : Bool)
  | natsKey (username topic : Bytes) (authenticated : Bool)

namespace Request

def topic : Request → Bytes
  | mqtt _ pk => pk.topic
  | will _ topic _ => topic
  | graphql _ topic _ => topic
  | rest _ topic _ _ => topic
  | nats _ subject _ => subjectToTopic subject
  | natsKey _ topic _ => topic

def username : Request → Bytes
  | mqtt cl _ => cl.username
  | will cl _ _ => cl.username
  | graphql username _ _ => username
  | rest user _ _ _ => user.username
  | nats username _ _ => username
  | natsKey username _ _ => username

def clientID : Request → Bytes
  | mqtt cl _ => cl.clientID
  | will cl _ _ => cl.clientID
  | graphql _ _ _ => []
  | rest _ _ _ _ => []
  | nats _ _ _ => []
  | natsKey _ _ _ => []

def exempt : Request → Bool
  | mqtt cl _ => cl.localhost
  | will cl _ _ => cl.localhost
  | graphql _ _ _ => false
  | rest user _ _ _ => user.localhost
  | nats _ _ _ => false
  | natsKey _ _ _ => false

/-- The topic under which the message takes effect. A delayed will was resolved when the connection
ended; everything else is resolved now. -/
def effect (ended now : Broker) : Request → Except Refusal Bytes
  | mqtt cl pk => now.processPublish (some cl) pk
  | will cl topic delayed => if delayed then ended.sendLWT cl topic else now.sendLWT cl topic
  | graphql username topic decodes => now.graphqlPublish username topic decodes
  | rest user topic payload maxMessageSize => now.send user topic payload maxMessageSize
  | nats username subject authenticated =>
    now.natsPublish username (subjectToTopic subject) authenticated
  | natsKey username topic authenticated => now.natsPublish username topic authenticated

def may (q : Request) (b : Broker) (topic : Bytes) : Prop :=
  b.allowClient q.username q.clientID topic = true

/-- A message that takes effect under another topic than its own is one of a user that may publish to
both. -/
def NotWidened (q : Request) (ended now : Broker) : Prop :=
  ∀ c, q.effect ended now = .ok c → c ≠ q.topic → q.may now q.topic ∧ q.may now c

end Request

def Broker.Resolves (b : Broker) (v c : Bytes) : Prop := (newResolver b.trees).publish v = .ok c ∧ c ≠ v

namespace Broker

variable {b : Broker} {cl : Client} {v c : Bytes}

private theorem publish_outside (h : (newResolver b.trees).inVirtualNamespace v = false) :
    (newResolver b.trees).publish v = .ok v := by
  rw [Resolver.inVirtualNamespace, Option.isSome_eq_false_iff, Option.isNone_iff_eq_none] at h
  rw [Resolver.publish, h]

theorem inVirtualNamespace_of_resolves (h : b.Resolves v c) :
    (newResolver b.trees).inVirtualNamespace v = true := by
  by_contra hout
  rw [Bool.not_eq_true] at hout
  have heq := h.1
  rw [publish_outside hout] at heq
  exact h.2 (Except.ok.inj heq).symm

theorem virtualTrees_of_inside (h : (newResolver b.trees).inVirtualNamespace v = true) :
    b.virtualTrees = some (newResolver b.trees) := by
  rw [virtualTrees, if_neg]
  intro hempty
  have hnone : (newResolver b.trees).owner v = none := by
    rw [Resolver.owner, List.findSome?_eq_none_iff]
    intro p _
    rw [Resolver.byRoot, List.isEmpty_iff.mp hempty, List.find?_nil]
  rw [Resolver.inVirtualNamespace, hnone] at h
  cases h

variable {cl? : Option Client}

private theorem resolve_outside (h : (newResolver b.trees).inVirtualNamespace v = false) :
    b.resolveVirtualPublish cl? v = .ok v := by
  rw [resolveVirtualPublish]
  cases htrees : b.virtualTrees with
  | none => rfl
  | some vr =>
    rw [virtualTrees] at htrees
    split at htrees
    · cases htrees
    · obtain rfl := Option.some.inj htrees
      simp only [h]
      rfl

/-- A publish is resolved to another topic exactly when the trees do it and the rules let a network
client publish there. -/
theorem resolve_iff (hne : c ≠ v) : b.resolveVirtualPublish cl? v = .ok c ↔
    b.Resolves v c ∧ ∀ cl ∈ cl?, b.onACLCheck cl c = true := by
  by_cases hin : (newResolver b.trees).inVirtualNamespace v = true
  · rw [resolveVirtualPublish, virtualTrees_of_inside hin, Resolves]
    simp only [hin, Bool.not_true, Bool.false_eq_true, if_false]
    cases (newResolver b.trees).publish v with
    | error e => simp
    | ok canonical =>
      cases cl? with
      | none => simp [hne]
      | some cl =>
        by_cases hacl : b.onACLCheck cl canonical = true
        · simp only [Option.any_some, hacl, Bool.not_true, Bool.false_eq_true, if_false,
            Except.ok.injEq, Option.mem_def, Option.some.injEq, forall_eq']
          constructor
          · rintro rfl
            exact ⟨⟨rfl, hne⟩, hacl⟩
          · exact fun h => h.1.1
        · simp only [Option.any_some, hacl, Bool.not_false, if_true, Except.ok.injEq,
            Option.mem_def, Option.some.injEq, forall_eq']
          constructor
          · intro h
            cases h
          · rintro ⟨⟨rfl, -⟩, h⟩
            exact absurd h hacl
  · rw [resolve_outside (by simpa using hin)]
    constructor
    · intro h
      exact absurd (Except.ok.inj h).symm hne
    · rintro ⟨h, -⟩
      exact absurd (inVirtualNamespace_of_resolves h) hin

theorem allowClient_of_onACLCheck (hcl : cl.localhost = false) (h : b.onACLCheck cl v = true) :
    b.allowClient cl.username cl.clientID v = true := by
  rw [onACLCheck, hcl] at h
  by_contra hno
  rw [Bool.not_eq_true] at hno
  rw [hno] at h
  simp at h

/-- A publish of an inline client of the topic takes effect under the other one. -/
structure TakesEffect (b : Broker) (v c : Bytes) : Prop where
  resolves : b.Resolves v c
  handled : b.handles v = false
  passed : b.passes c = true
  plain : (v.contains 0x2B || v.contains 0x23) = false
  nonempty : v ≠ []

theorem publishFn_iff (hne : c ≠ v) : b.publishFn v = .ok c ↔ b.TakesEffect v c := by
  rw [publishFn, injectPacket, processPublish]
  constructor
  · intro h
    split at h
    · cases h
    split at h
    · cases h
    split at h
    · cases h
    rename_i hhandled hplain hempty
    simp only [Option.isSome_none, Bool.false_and, Bool.and_false, Bool.false_eq_true, if_false,
      Option.any_none] at h
    cases hres : b.resolveVirtualPublish none v with
    | error e =>
      rw [hres] at h
      cases h
    | ok topic =>
      rw [hres] at h
      dsimp only at h
      split at h
      · cases h
      rename_i hpass
      obtain rfl := Except.ok.inj h
      exact ⟨((resolve_iff hne).mp hres).1, by simpa using hhandled, by simpa using hpass,
        by simpa using hplain, by simpa using hempty⟩
  · rintro ⟨hres, hhandled, hpass, hplain, hempty⟩
    have hok : b.resolveVirtualPublish none v = .ok c := (resolve_iff hne).mpr ⟨hres, by simp⟩
    rw [hhandled, hplain, if_neg (by decide), if_neg (by decide), if_neg (by simpa using hempty)]
    simp only [Option.isSome_none, Bool.false_and, Bool.and_false, Bool.false_eq_true, if_false,
      Option.any_none, hok, hpass, Bool.not_true]

theorem processPublish_allowed {pk : Publish} (hne : c ≠ pk.topic)
    (h : b.processPublish (some cl) pk = .ok c) :
    b.onACLCheck cl pk.topic = true ∧ b.onACLCheck cl c = true := by
  rw [processPublish] at h
  split at h
  · cases h
  split at h
  · cases h
  split at h
  · cases h
  rename_i hacl
  cases hres : b.resolveVirtualPublish (some cl) pk.topic with
  | error e =>
    rw [hres] at h
    cases h
  | ok topic =>
    rw [hres] at h
    dsimp only at h
    split at h
    · cases h
    split at h
    · cases h
    obtain rfl := Except.ok.inj h
    exact ⟨by simpa using hacl, ((resolve_iff hne).mp hres).2 cl rfl⟩

theorem graphqlPublish_allowed {username : Bytes} {decodes : Bool} (hne : c ≠ v)
    (h : b.graphqlPublish username v decodes = .ok c) :
    b.allowClient username [] v = true ∧ b.allowClient username [] c = true := by
  rw [graphqlPublish] at h
  split at h
  · cases h
  rename_i hacl
  refine ⟨by simpa using hacl, ?_⟩
  cases hcheck : b.checkVirtual username v with
  | error e =>
    rw [hcheck] at h
    cases h
  | ok u =>
    rw [hcheck] at h
    dsimp only at h
    split at h
    · cases h
    split at h
    · cases h
    have hres := ((publishFn_iff hne).mp h).resolves
    have hin := inVirtualNamespace_of_resolves hres
    by_contra hno
    simp [checkVirtual, virtualTrees_of_inside hin, hin, hres.1, hno, hne] at hcheck

end Broker

/-- The condition on a request: over REST and NATS a user that may publish to a virtual topic may
publish to what it stands for; for a will, a user that may publish to the canonical topic may publish
to the will's own, and still may when a delayed will is sent. -/
def Request.Covered (ended now : Broker) (q : Request) : Prop :=
  match q with
  | .mqtt _ _ => True
  | .graphql _ _ _ => True
  | .will cl topic delayed =>
    if delayed then
      ∀ c, ended.Resolves topic c → ended.onACLCheck cl c = true → q.may now topic ∧ q.may now c
    else ∀ c, now.Resolves topic c → now.onACLCheck cl c = true → q.may now topic
  | .rest _ topic payload maxMessageSize => validPublish topic = true →
      ¬ (payload.length > maxMessageSize ∧ maxMessageSize > 0) →
      ∀ c, now.TakesEffect topic c → q.may now topic → q.may now c
  | .nats _ subject authenticated => authenticated = true →
      ∀ c, now.TakesEffect (subjectToTopic subject) c → q.may now (subjectToTopic subject) → q.may now c
  | .natsKey _ topic authenticated => authenticated = true →
      ∀ c, now.TakesEffect topic c → q.may now topic → q.may now c

section Widening

variable {ended now : Broker} {q : Request}

theorem natsPublish_iff {b : Broker} {username v c : Bytes} {authenticated : Bool} (hne : c ≠ v) :
    b.natsPublish username v authenticated = .ok c ↔
      authenticated = true ∧ b.allowClient username [] v = true ∧ b.TakesEffect v c := by
  rw [Broker.natsPublish]
  cases authenticated with
  | false => simp
  | true =>
    cases hacl : b.allowClient username [] v with
    | false => simp
    | true => simp [Broker.publishFn_iff hne]

theorem send_iff {b : Broker} {user : Principal} {v c payload : Bytes} {maxMessageSize : ℕ}
    (huser : user.localhost = false) (hne : c ≠ v) :
    b.send user v payload maxMessageSize = .ok c ↔ validPublish v = true ∧
      b.allowClient user.username [] v = true ∧
      ¬ (payload.length > maxMessageSize ∧ maxMessageSize > 0) ∧ b.TakesEffect v c := by
  rw [Broker.send, Broker.allowed, huser]
  cases validPublish v with
  | false => simp
  | true =>
    cases hacl : b.allowClient user.username [] v with
    | false => simp
    | true =>
      by_cases hsize : payload.length > maxMessageSize ∧ maxMessageSize > 0
      · simp [hsize]
      · rw [← Broker.publishFn_iff hne]
        simp [hsize]

/-- A virtual topic widens no access exactly when the request is covered. -/
theorem virtual_not_widened_iff (hexempt : q.exempt = false) :
    q.NotWidened ended now ↔ q.Covered ended now := by
  cases q with
  | mqtt cl pk =>
    refine iff_of_true ?_ trivial
    intro c heff hne
    obtain ⟨hv, hc⟩ := Broker.processPublish_allowed hne heff
    exact ⟨Broker.allowClient_of_onACLCheck hexempt hv, Broker.allowClient_of_onACLCheck hexempt hc⟩
  | graphql username topic decodes =>
    refine iff_of_true ?_ trivial
    intro c heff hne
    exact Broker.graphqlPublish_allowed hne heff
  | will cl topic delayed =>
    cases delayed with
    | false =>
      constructor
      · intro h c hres hacl
        exact (h c ((Broker.resolve_iff hres.2).mpr ⟨hres, by simpa using hacl⟩) hres.2).1
      · intro h c heff hne
        obtain ⟨hres, hacl⟩ := (Broker.resolve_iff hne).mp heff
        exact ⟨h c hres (hacl cl rfl), Broker.allowClient_of_onACLCheck hexempt (hacl cl rfl)⟩
    | true =>
      constructor
      · intro h c hres hacl
        exact h c ((Broker.resolve_iff hres.2).mpr ⟨hres, by simpa using hacl⟩) hres.2
      · intro h c heff hne
        obtain ⟨hres, hacl⟩ := (Broker.resolve_iff hne).mp heff
        exact h c hres (hacl cl rfl)
  | rest user topic payload maxMessageSize =>
    constructor
    · intro h hvalid hsize c heff hmay
      exact (h c ((send_iff hexempt heff.resolves.2).mpr ⟨hvalid, hmay, hsize, heff⟩) heff.resolves.2).2
    · intro h c heff hne
      obtain ⟨hvalid, hmay, hsize, htakes⟩ := (send_iff hexempt hne).mp heff
      exact ⟨hmay, h hvalid hsize c htakes hmay⟩
  | nats username subject authenticated | natsKey username topic authenticated =>
    constructor
    · intro h hauth c heff hmay
      exact (h c ((natsPublish_iff heff.resolves.2).mpr ⟨hauth, hmay, heff⟩) heff.resolves.2).2
    · intro h c heff hne
      obtain ⟨hauth, hmay, htakes⟩ := (natsPublish_iff hne).mp heff
      exact ⟨hmay, h hauth c htakes hmay⟩

end Widening

/-- The plant's trees, and a user that may publish to these topics. -/
def plantBroker (patterns : List Bytes) : Broker where
  settings := strictSettings
  config := ⟨⟨[(ascii "alice", ⟨true, false, true, true⟩)],
    [(ascii "alice", patterns.map fun p => ⟨p, false, true⟩)]⟩, none⟩
  trees := [plantTree, officeTree]
  handles := fun _ => false
  passes := fun _ => true

def restTemperature : Request := .rest ⟨ascii "alice", false⟩ (ascii "plant/hall/temp") [] 0

def bothNames : List Bytes := [ascii "plant/#", ascii "s7/#"]

theorem restTemperature_both : restTemperature.NotWidened (plantBroker bothNames) (plantBroker bothNames) ∧
    restTemperature.effect (plantBroker bothNames) (plantBroker bothNames) =
      .ok (ascii "s7/db1/temp") := by
  refine ⟨(virtual_not_widened_iff rfl).mpr ?_, by decide⟩
  intro _ _ c htakes _
  have hres : (newResolver [plantTree, officeTree]).publish (ascii "plant/hall/temp") =
      .ok (ascii "s7/db1/temp") := by
    decide
  obtain rfl := Except.ok.inj (hres.symm.trans htakes.resolves.1)
  change (plantBroker bothNames).allowClient (ascii "alice") [] (ascii "s7/db1/temp") = true
  decide

/-- A user that may publish to the plant's names only changes the canonical topic over REST. -/
theorem restTemperature_widens : PairwiseValid (plantBroker [ascii "plant/#"]).trees ∧
    restTemperature.exempt = false ∧
    restTemperature.effect (plantBroker [ascii "plant/#"]) (plantBroker [ascii "plant/#"]) =
      .ok (ascii "s7/db1/temp") ∧
    ¬ restTemperature.may (plantBroker [ascii "plant/#"]) (ascii "s7/db1/temp") ∧
    ¬ restTemperature.NotWidened (plantBroker [ascii "plant/#"]) (plantBroker [ascii "plant/#"]) := by
  have heff : restTemperature.effect (plantBroker [ascii "plant/#"]) (plantBroker [ascii "plant/#"]) =
      .ok (ascii "s7/db1/temp") := by
    decide
  have hno : ¬ restTemperature.may (plantBroker [ascii "plant/#"]) (ascii "s7/db1/temp") := by
    rw [Request.may]
    decide
  exact ⟨plantTrees_valid, rfl, heff, hno, fun h => hno (h _ heff (by decide)).2⟩

end MonsterMQ.Virtual
