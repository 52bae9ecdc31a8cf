import MonsterMQ.KeyedChannels
import MonsterMQ.MqttStoredPubrec

/-!
# Inbound QoS 2

A client that follows the sender rules and the broker's handlers, over any number of connections of one
session. The stored PUBREC is all the broker knows of an exchange; a PUBLISH that meets one is answered with
an error, which only a client of version 5 can read.
-/

namespace MonsterMQ.Mqtt

open LittleEndian FiniteMaps Inflight StateRuns KeyedChannels List

/-- A message of the client between its PUBLISH and its PUBCOMP; `released` after PUBREC. -/
structure Exchange where
  message : ℕ
  pk : Packet
  released : Bool

/-- `sent` are the identifiers the client has used on this connection, `handed` the messages
given to `publishToSubscribers`, `version` the protocol version of the connection. A packet under
way is noted with the message it is about. -/
structure InboundLink where
  version : UInt8
  exchanges : UInt16 → Option Exchange
  sent : List UInt16
  next : ℕ
  completed : List ℕ
  refused : List ℕ
  wire : List (Packet × ℕ)
  conn : Conn
  handed : List ℕ
  connected : Bool

@[grind =] def pubrelPacket (version : UInt8) (id : UInt16) : Packet where
  type := .pubrel
  qos := 1
  dup := false
  retain := false
  packetID := id
  topicName := []
  payload := []
  reasonCode := 0
  reasonCodes := []
  properties := Properties.none
  protocolVersion := version
  created := 0
  expiry := 0

/-- The reason code that the client reads: `encodePubAckRelRecComp` writes none before version 5. -/
def readCode (version : UInt8) (pk : Packet) : UInt8 := if version = 5 then pk.reasonCode else 0

/-- What the client sends for an exchange on a new connection. -/
def Exchange.again (e : Exchange) (version : UInt8) : Packet :=
  if e.released then pubrelPacket version e.pk.packetID else { e.pk with dup := true }

/-- The handler called `publishToSubscribers` for a message that is not ignored. -/
@[grind =] def handedOver (events : List Event) : Bool :=
  events.any (fun e => match e with
    | .publish _ ignored => !ignored
    | _ => false)

inductive InboundStep where
  | start (pk : Packet)
  | resend (id : UInt16)
  | deliver (k : ℕ) (b : Broker) (writable : Bool)
  | disconnect
  | connect (s r : ℤ) (version : UInt8)
  | outbound (t : Conn.Step)

namespace InboundLink

/-- The connection ends: what is under way is lost. -/
def drop (st : InboundLink) : InboundLink :=
  { st with
    conn := { st.conn with closed := true }
    connected := false
    wire := [] }

@[grind =]
def handle (st : InboundLink) (b : Broker) (h : Handled) (message : ℕ) (writable : Bool) : InboundLink :=
  let st := { st with
    conn := st.conn.finish h writable b.maximumMessageExpiryInterval b.now
    handed := if handedOver h.events then st.handed ++ [message] else st.handed }
  if h.err then st.drop
  else { st with wire := st.wire ++ (Conn.writes h.events).map (fun pk => (pk, message)) }

def receivePubrec (st : InboundLink) (pk : Packet) : InboundLink :=
  match st.exchanges pk.packetID with
  | none => st
  | some e =>
    if e.released then { st with wire := st.wire ++ [(pubrelPacket st.version pk.packetID, e.message)] }
    else if readCode st.version pk ≥ errUnspecifiedError.code then
      { st with
        exchanges := Function.update st.exchanges pk.packetID none
        refused := st.refused ++ [e.message] }
    else
      { st with
        exchanges := Function.update st.exchanges pk.packetID (some { e with released := true })
        wire := st.wire ++ [(pubrelPacket st.version pk.packetID, e.message)] }

def receivePubcomp (st : InboundLink) (pk : Packet) : InboundLink :=
  match st.exchanges pk.packetID with
  | none => st
  | some e =>
    if e.released then
      { st with
        exchanges := Function.update st.exchanges pk.packetID none
        completed := st.completed ++ [e.message] }
    else st

/-- The client starts a message under an identifier it does not use. -/
def begin (st : InboundLink) (pk : Packet) : InboundLink :=
  match st.exchanges pk.packetID with
  | some _ => st
  | none =>
    let st' := { st with
      exchanges := Function.update st.exchanges pk.packetID (some ⟨st.next, pk, false⟩)
      next := st.next + 1 }
    if st.connected then
      { st' with wire := st.wire ++ [(pk, st.next)], sent := pk.packetID :: st.sent }
    else st'

/-- The client sends an exchange of an earlier connection again, once. -/
def retransmit (st : InboundLink) (id : UInt16) : InboundLink :=
  if st.connected && !st.sent.contains id then
    match st.exchanges id with
    | none => st
    | some e =>
      { st with wire := st.wire ++ [(e.again st.version, e.message)], sent := id :: st.sent }
  else st

def step (st : InboundLink) : InboundStep → InboundLink
  | .start pk => st.begin pk
  | .resend id => st.retransmit id
  | .deliver k b writable =>
    match st.wire[k]? with
    | none => st
    | some (pk, message) =>
      let st := { st with wire := st.wire.eraseIdx k }
      match pk.type with
      | .publish => st.handle b (b.processPublish st.conn.inflight pk writable) message writable
      | .pubrel => st.handle b (b.processPubrel st.conn.inflight pk writable) message writable
      | .pubrec => st.receivePubrec pk
      | .pubcomp => st.receivePubcomp pk
      | _ => st
  | .disconnect => st.drop
  | .connect s r version =>
    { st with
      version := version
      connected := true
      sent := []
      wire := []
      conn := { Conn.fresh s r with inflight := Conn.inherited s r st.conn.inflight } }
  | .outbound t => { st with conn := st.conn.step t }

def fresh (s r : ℤ) : InboundLink where
  version := 5
  exchanges := fun _ => none
  sent := []
  next := 0
  completed := []
  refused := []
  wire := []
  conn := Conn.fresh s r
  handed := []
  connected := false

end InboundLink

namespace Broker

/-- Every check of `processPublish` allows the message. -/
def allows (b : Broker) (pk : Packet) : Bool :=
  b.aliasTopic pk ≠ some [] && b.isValidTopic (b.publishTopic pk) && b.onACLCheck (b.publishTopic pk) true &&
    b.maximumQos ≥ 2 && (match b.resolveVirtualPublish (b.publishTopic pk) with
      | .ok topic => (match b.onPublish (b.stampPublish { pk with topicName := topic }) with
        | .accept => true
        | _ => false)
      | .error _ => false)

theorem hookPublish_allowed {b : Broker} {pk : Packet} (hq : pk.qos = 2) (hmax : b.maximumQos ≥ 2)
    (haccept : b.onPublish pk = .accept) (i : Inflight) (writable : Bool) :
    ∃ ack : Packet, ack.type = .pubrec ∧ ack.packetID = pk.packetID ∧ ack.reasonCode = 0 ∧
      (b.hookPublish i pk writable).1.inflight = i.put ack ∧ (b.hookPublish i pk writable).2 = false ∧
      (b.hookPublish i pk writable).1.err = !writable ∧
      Conn.writes (b.hookPublish i pk writable).1.events = [ack] ∧
      handedOver (b.hookPublish i pk writable).1.events = writable := by
  have hnot : ¬ pk.qos > b.maximumQos := by
    rw [hq]
    exact UInt8.not_lt.mpr hmax
  have h0 : pk.qos ≠ 0 := by rw [hq]; decide
  have h1 : pk.qos ≠ 1 := by rw [hq]; decide
  refine ⟨b.ackPublish pk codeSuccess, by simp [ackPublish, buildAck, hq], rfl, rfl, ?_⟩
  cases writable with
  | false =>
    simp only [hookPublish, hnot, ↓reduceIte, haccept, acceptPublish, h0, Inflight.set, Bool.not_false]
    refine ⟨trivial, by simp [hq], trivial, ?_, ?_⟩
    · cases pk.retain <;> cases (i.get (b.ackPublish pk codeSuccess).packetID).isNone <;> simp [Conn.writes]
    · cases pk.retain <;> cases (i.get (b.ackPublish pk codeSuccess).packetID).isNone <;> simp [handedOver]
  | true =>
    simp only [hookPublish, hnot, ↓reduceIte, haccept, acceptPublish, h0, Inflight.set, Bool.not_true,
      Bool.false_eq_true, h1]
    refine ⟨trivial, by simp [hq], trivial, ?_, ?_⟩
    · cases pk.retain <;> cases (i.get (b.ackPublish pk codeSuccess).packetID).isNone <;> simp [Conn.writes]
    · cases pk.retain <;> cases (i.get (b.ackPublish pk codeSuccess).packetID).isNone <;> simp [handedOver]

/-- An allowed PUBLISH that meets no stored PUBREC: it is refused for its receive quota, or
its PUBREC is stored, and it is handed over when that could be written. -/
theorem processPublish_allowed {b : Broker} {i : Inflight} {pk : Packet} (hq : pk.qos = 2)
    (hallow : b.allows pk = true) (hfree : stored i pk.packetID = false) (writable : Bool) :
    (b.processPublish i pk writable).inflight = i ∧ (b.processPublish i pk writable).err = true ∧
        handedOver (b.processPublish i pk writable).events = false ∨
      ∃ (j : Inflight) (ack : Packet), (∀ n, n ≠ pk.packetID → j.get n = i.get n) ∧ ack.type = .pubrec ∧
        ack.packetID = pk.packetID ∧ ack.reasonCode = 0 ∧
        (b.processPublish i pk writable).inflight = j.put ack ∧
        (b.processPublish i pk writable).err = !writable ∧
        Conn.writes (b.processPublish i pk writable).events = [ack] ∧
        handedOver (b.processPublish i pk writable).events = writable := by
  simp only [allows, Bool.and_eq_true, decide_eq_true_eq] at hallow
  obtain ⟨⟨⟨⟨halias, htopic⟩, hacl⟩, hmax⟩, hrest⟩ := hallow
  have h0 : pk.qos ≠ 0 := by rw [hq]; decide
  rw [publishTopic] at htopic hacl hrest
  by_cases hquota : i.receiveQuota ≤ 0
  · left
    simp [processPublish, halias, htopic, h0, decreaseReceiveQuota, hquota, handedOver]
  · right
    cases hv : b.resolveVirtualPublish ((b.aliasTopic pk).getD pk.topicName) with
    | error code => simp [hv] at hrest
    | ok topic =>
      simp only [hv] at hrest
      have haccept : b.onPublish (b.stampPublish { pk with topicName := topic }) = .accept := by
        cases ho : b.onPublish (b.stampPublish { pk with topicName := topic }) with
        | accept => rfl
        | ignore | reject code | fail => simp [ho] at hrest
      obtain ⟨j, hj, hdup⟩ : ∃ j : Inflight, (∀ n, n ≠ pk.packetID → j.get n = i.get n) ∧
          b.checkDuplicate { i with receiveQuota := i.receiveQuota - 1 }
            (b.stampPublish { pk with topicName := topic }) writable =
          b.hookPublish j (b.stampPublish { pk with topicName := topic }) writable := by
        have hpos : (b.stampPublish { pk with topicName := topic }).qos > 0 := by
          have hsame : (b.stampPublish { pk with topicName := topic }).qos = pk.qos := rfl
          rw [hsame, hq]
          decide
        have hid : (b.stampPublish { pk with topicName := topic }).packetID = pk.packetID := rfl
        have hget : ({ i with receiveQuota := i.receiveQuota - 1 } : Inflight).get pk.packetID =
            i.get pk.packetID := rfl
        simp only [checkDuplicate, hpos, ↓reduceIte, hid, hget]
        cases hg : i.get pk.packetID with
        | none => exact ⟨{ i with receiveQuota := i.receiveQuota - 1 }, fun n _ => rfl, rfl⟩
        | some pki =>
          have hrec : pki.type ≠ .pubrec := by
            intro ht
            simp [stored, hg, ht] at hfree
          refine ⟨(({ i with receiveQuota := i.receiveQuota - 1 } : Inflight).delete pk.packetID).1,
            fun n hn => get_delete_ne _ hn, ?_⟩
          simp only [hrec, ↓reduceIte]
      have hq' : (b.stampPublish { pk with topicName := topic }).qos = 2 := hq
      obtain ⟨ack, htype, hid, hcode, hinf, hres, herr, hwrites, hhanded⟩ :=
        hookPublish_allowed hq' hmax haccept j writable
      have heq : b.processPublish i pk writable =
          (b.hookPublish j (b.stampPublish { pk with topicName := topic }) writable).1 := by
        simp only [processPublish, halias, htopic, h0, decreaseReceiveQuota, hquota, authorizePublish, hacl,
          hv, hdup, hres, ↓reduceIte, Bool.not_true, Bool.false_eq_true]
      rw [heq]
      exact ⟨j, ack, hj, htype, hid, hcode, hinf, herr, hwrites, hhanded⟩

/-- An allowed PUBLISH that meets a stored PUBREC is refused for its receive quota, or answered and
not handed over; the map stays. -/
theorem processPublish_stored {b : Broker} {i : Inflight} {pk : Packet} (hq : pk.qos = 2)
    (hallow : b.allows pk = true) (hstored : stored i pk.packetID = true) (writable : Bool) :
    (∀ n, (b.processPublish i pk writable).inflight.get n = i.get n) ∧
      handedOver (b.processPublish i pk writable).events = false ∧
      ((b.processPublish i pk writable).err = false → ∃ ack : Packet, ack.type = .pubrec ∧
        ack.packetID = pk.packetID ∧ Conn.writes (b.processPublish i pk writable).events = [ack]) := by
  simp only [allows, Bool.and_eq_true, decide_eq_true_eq] at hallow
  obtain ⟨⟨⟨⟨halias, htopic⟩, hacl⟩, hmax⟩, hrest⟩ := hallow
  have h0 : pk.qos ≠ 0 := by rw [hq]; decide
  rw [publishTopic] at htopic hacl hrest
  by_cases hquota : i.receiveQuota ≤ 0
  · simp [processPublish, halias, htopic, h0, decreaseReceiveQuota, hquota, handedOver]
  cases hv : b.resolveVirtualPublish ((b.aliasTopic pk).getD pk.topicName) with
  | error code => simp [hv] at hrest
  | ok topic =>
    obtain ⟨pki, hget, hrec⟩ : ∃ pki, i.get pk.packetID = some pki ∧ pki.type = .pubrec := by
      cases hg : i.get pk.packetID with
      | none => simp [stored, hg] at hstored
      | some pki => exact ⟨pki, rfl, by simpa [stored, hg] using hstored⟩
    have hpos : pk.qos > 0 := by rw [hq]; decide
    have hget' : ({ i with receiveQuota := i.receiveQuota - 1 } : Inflight).get pk.packetID = some pki := hget
    have heq : b.processPublish i pk writable =
        ⟨({ i with receiveQuota := i.receiveQuota - 1 } : Inflight).increaseReceiveQuota.1,
          [.write (b.buildAck pk.packetID .pubrec 0 pk.properties errPacketIdentifierInUse)], !writable⟩ := by
      simp [processPublish, halias, htopic, h0, decreaseReceiveQuota, hquota, authorizePublish, hacl, hv,
        checkDuplicate, stampPublish, hpos, hget', hrec]
    rw [heq]
    refine ⟨fun n => ?_, rfl, fun _ =>
      ⟨b.buildAck pk.packetID .pubrec 0 pk.properties errPacketIdentifierInUse, rfl, rfl, rfl⟩⟩
    rw [Inflight.get, increaseReceiveQuota_internal]
    rfl

theorem processPubrel_answers (b : Broker) (i : Inflight) {pk : Packet} (hok : failed pk = false)
    (writable : Bool) : (∀ n, n ≠ pk.packetID → (b.processPubrel i pk writable).inflight.get n = i.get n) ∧
      handedOver (b.processPubrel i pk writable).events = false ∧
      ∃ ack : Packet, ack.type = .pubcomp ∧ ack.packetID = pk.packetID ∧
        Conn.writes (b.processPubrel i pk writable).events = [ack] := by
  have hnotfound : ∀ h : Handled, h = ⟨i, [.write (b.buildAck pk.packetID .pubcomp 0 pk.properties
      errPacketIdentifierNotFound)], !writable⟩ → (∀ n, n ≠ pk.packetID → h.inflight.get n = i.get n) ∧
      handedOver h.events = false ∧ ∃ ack : Packet, ack.type = .pubcomp ∧ ack.packetID = pk.packetID ∧
        Conn.writes h.events = [ack] := by
    rintro h rfl
    exact ⟨fun n _ => rfl, rfl,
      b.buildAck pk.packetID .pubcomp 0 pk.properties errPacketIdentifierNotFound, rfl, rfl, rfl⟩
  cases hg : i.get pk.packetID with
  | none => exact hnotfound _ (by simp [processPubrel, hg])
  | some pki =>
    by_cases hrec : pki.type = .pubrec
    · have hid : (b.buildAck pk.packetID .pubcomp 0 pk.properties codeSuccess).packetID = pk.packetID := rfl
      cases writable with
      | false =>
        have heq : b.processPubrel i pk false =
            ⟨i.put (b.buildAck pk.packetID .pubcomp 0 pk.properties codeSuccess),
              [.write (b.buildAck pk.packetID .pubcomp 0 pk.properties codeSuccess)], true⟩ := by
          simp [processPubrel, hg, hrec, hok]
        rw [heq]
        exact ⟨fun n hn => get_put_ne i hn, rfl,
          b.buildAck pk.packetID .pubcomp 0 pk.properties codeSuccess, rfl, rfl, rfl⟩
      | true =>
        have heq : b.processPubrel i pk true =
            ⟨((i.put (b.buildAck pk.packetID .pubcomp 0 pk.properties codeSuccess)).delete
              pk.packetID).1.increaseReceiveQuota.1,
              [.write (b.buildAck pk.packetID .pubcomp 0 pk.properties codeSuccess), .qosComplete pk],
              false⟩ := by
          simp [processPubrel, hg, hrec, hok]
        rw [heq]
        refine ⟨fun n hn => ?_, rfl, b.buildAck pk.packetID .pubcomp 0 pk.properties codeSuccess, rfl, rfl,
          rfl⟩
        rw [Inflight.get, increaseReceiveQuota_internal, ← Inflight.get, get_delete_ne _ hn]
        exact get_put_ne i hn
    · exact hnotfound _ (by simp [processPubrel, hg, hrec])

end Broker

namespace InboundLink

/-- What is under way for an exchange: at most one packet, in the order PUBLISH, PUBREC,
PUBREL, PUBCOMP. The client reads a PUBREC as a success, and its message was handed over. -/
inductive Flow (version : UInt8) (handed : List ℕ) (e : Exchange) : List (Packet × ℕ) → Prop where
  | idle : Flow version handed e []
  | published {pk : Packet} (before : e.released = false) (type : pk.type = .publish) (qos : pk.qos = 2) :
      Flow version handed e [(pk, e.message)]
  | received {pk : Packet} (before : e.released = false) (type : pk.type = .pubrec)
      (code : readCode version pk = 0) (done : e.message ∈ handed) : Flow version handed e [(pk, e.message)]
  | releasing {pk : Packet} (after : e.released = true) (type : pk.type = .pubrel)
      (ok : failed pk = false) : Flow version handed e [(pk, e.message)]
  | completing {pk : Packet} (after : e.released = true) (type : pk.type = .pubcomp) :
      Flow version handed e [(pk, e.message)]

@[grind =]
def underway (st : InboundLink) (n : UInt16) : List (Packet × ℕ) := under (fun x => x.1.packetID) n st.wire

structure ExchangeOk (st : InboundLink) (n : UInt16) (e : Exchange) : Prop where
  id : e.pk.packetID = n
  type : e.pk.type = .publish
  qos : e.pk.qos = 2
  old : e.message < st.next
  memory : e.released = false → e.message ∈ st.handed → stored st.conn.inflight n = true
  handed : e.released = true → e.message ∈ st.handed
  flow : Flow st.version st.handed e (st.underway n)
  sent : st.underway n ≠ [] → n ∈ st.sent

structure Inv (st : InboundLink) : Prop where
  wf : st.conn.inflight.WF
  nodup : st.handed.Nodup
  old : ∀ m ∈ st.handed, m < st.next
  exchanges : ∀ n e, st.exchanges n = some e → ExchangeOk st n e
  distinct : ∀ n n' e e', st.exchanges n = some e → st.exchanges n' = some e' → e.message = e'.message → n = n'
  free : ∀ n, st.exchanges n = none → st.underway n = []
  completed : ∀ m ∈ st.completed, m ∈ st.handed
  refused : st.refused = []

theorem Flow.mono {version : UInt8} {handed handed' : List ℕ} {e : Exchange} {l : List (Packet × ℕ)}
    (h : Flow version handed e l) (hsub : ∀ m ∈ handed, m ∈ handed') : Flow version handed' e l := by
  cases h with
  | idle => exact .idle
  | published before type qos => exact .published before type qos
  | received before type code done => exact .received before type code (hsub _ done)
  | releasing after type ok => exact .releasing after type ok
  | completing after type => exact .completing after type

theorem Flow.publish {version : UInt8} {handed : List ℕ} {e : Exchange} {pk : Packet} {m : ℕ}
    (h : Flow version handed e [(pk, m)]) (htype : pk.type = .publish) : e.released = false ∧ pk.qos = 2 := by
  cases h with
  | published before type qos => exact ⟨before, qos⟩
  | received before type code done | releasing after type ok | completing after type => simp [htype] at type

theorem Inv.arrives {st : InboundLink} (h : Inv st) {k : ℕ} {pk : Packet} {m : ℕ}
    (hk : st.wire[k]? = some (pk, m)) :
    ∃ e, st.exchanges pk.packetID = some e ∧ ExchangeOk st pk.packetID e ∧ m = e.message ∧
      Flow st.version st.handed e [(pk, m)] ∧ under (fun x => x.1.packetID) pk.packetID (st.wire.eraseIdx k) = [] ∧
      pk.packetID ∈ st.sent := by
  have hmem : (pk, m) ∈ st.underway pk.packetID := (mem_under).mpr ⟨mem_of_getElem? hk, rfl⟩
  cases he : st.exchanges pk.packetID with
  | none =>
    rw [h.free _ he] at hmem
    cases hmem
  | some e =>
    have hok := h.exchanges _ e he
    have hflow := hok.flow
    obtain ⟨x, hx⟩ : ∃ x, st.underway pk.packetID = [x] := by
      cases hl : st.underway pk.packetID with
      | nil =>
        rw [hl] at hmem
        cases hmem
      | cons x l =>
        rw [hl] at hflow
        cases hflow <;> exact ⟨_, rfl⟩
    obtain ⟨rfl, hgone⟩ := under_eraseIdx_self hk hx
    rw [hx] at hflow
    have hm : m = e.message := by cases hflow <;> rfl
    exact ⟨e, rfl, hok, hm, hflow, hgone, hok.sent (by rw [hx]; simp)⟩

theorem Inv.lose {st st' : InboundLink} (h : Inv st) (hexch : st'.exchanges = st.exchanges)
    (hnext : st'.next = st.next) (hcomp : st'.completed = st.completed) (href : st'.refused = st.refused)
    (hhanded : st'.handed = st.handed) (hwire : st'.wire = []) (hwf : st'.conn.inflight.WF)
    (hmem : ∀ n e, st.exchanges n = some e → e.released = false → e.message ∈ st.handed →
      stored st'.conn.inflight n = true) : Inv st' := by
  have hat : ∀ n, st'.underway n = [] := by
    intro n
    rw [InboundLink.underway, hwire]
    rfl
  refine ⟨hwf, ?_, ?_, ?_, ?_, fun n _ => hat n, ?_, ?_⟩
  · rw [hhanded]
    exact h.nodup
  · rw [hhanded, hnext]
    exact h.old
  · intro n e he
    rw [hexch] at he
    have hok := h.exchanges n e he
    refine ⟨hok.id, hok.type, hok.qos, hnext ▸ hok.old, ?_, ?_, ?_, ?_⟩
    · rw [hhanded]
      exact hmem n e he
    · rw [hhanded]
      exact hok.handed
    · rw [hat]
      exact .idle
    · intro hne
      exact absurd (hat n) hne
  · rw [hexch]
    exact h.distinct
  · rw [hcomp, hhanded]
    exact h.completed
  · rw [href]
    exact h.refused

theorem Inv.change {st st' : InboundLink} (h : Inv st) (n : UInt16) (hwf : st'.conn.inflight.WF)
    (hversion : st'.version = st.version)
    (others : ∀ k, k ≠ n → st'.exchanges k = st.exchanges k ∧ st'.underway k = st.underway k ∧
      (k ∈ st.sent → k ∈ st'.sent) ∧ stored st'.conn.inflight k = stored st.conn.inflight k)
    (hnext : st.next ≤ st'.next) (hsub : ∀ m ∈ st.handed, m ∈ st'.handed)
    (hnew : ∀ m ∈ st'.handed, m ∈ st.handed ∨ ∃ e, st.exchanges n = some e ∧ m = e.message)
    (hnodup : st'.handed.Nodup) (hold : ∀ m ∈ st'.handed, m < st'.next)
    (self : ∀ e, st'.exchanges n = some e → ExchangeOk st' n e)
    (own : ∀ e, st'.exchanges n = some e →
      (∃ e0, st.exchanges n = some e0 ∧ e0.message = e.message) ∨ st.next ≤ e.message)
    (hfree : st'.exchanges n = none → st'.underway n = [])
    (hcomp : ∀ m ∈ st'.completed, m ∈ st'.handed) (href : st'.refused = []) : Inv st' := by
  refine ⟨hwf, hnodup, hold, ?_, ?_, ?_, hcomp, href⟩
  · intro k e he
    by_cases hk : k = n
    · subst hk
      exact self e he
    · obtain ⟨hexch, hway, hsent, hstored⟩ := others k hk
      rw [hexch] at he
      have hok := h.exchanges k e he
      refine ⟨hok.id, hok.type, hok.qos, hok.old.trans_le hnext, ?_, ?_, ?_, ?_⟩
      · intro hrel hm
        rw [hstored]
        rcases hnew _ hm with hm | ⟨e0, he0, hm⟩
        · exact hok.memory hrel hm
        · exact absurd (h.distinct k n e e0 he he0 hm) hk
      · exact fun hrel => hsub _ (hok.handed hrel)
      · rw [hway, hversion]
        exact hok.flow.mono hsub
      · intro hne
        rw [hway] at hne
        exact hsent (hok.sent hne)
  · have hcross : ∀ k e e', k ≠ n → st'.exchanges n = some e → st.exchanges k = some e' →
        e.message ≠ e'.message := by
      intro k e e' hk he he' heq
      rcases own e he with ⟨e0, he0, h0⟩ | hge
      · exact hk (h.distinct k n e' e0 he' he0 (heq.symm.trans h0.symm))
      · have := (h.exchanges k e' he').old
        omega
    intro k k' e e' he he' heq
    by_cases hk : k = n
    · subst hk
      by_cases hk' : k' = k
      · exact hk'.symm
      · rw [(others k' hk').1] at he'
        exact absurd heq (hcross k' e e' hk' he he')
    · rw [(others k hk).1] at he
      by_cases hk' : k' = n
      · subst hk'
        exact absurd heq.symm (hcross k e' e hk he' he)
      · rw [(others k' hk').1] at he'
        exact h.distinct k k' e e' he he' heq
  · intro k he
    by_cases hk : k = n
    · subst hk
      exact hfree he
    · obtain ⟨hexch, hway, -, -⟩ := others k hk
      rw [hexch] at he
      rw [hway]
      exact h.free k he

theorem underway_other {st : InboundLink} {k : ℕ} {pk : Packet} {m : ℕ} (hk : st.wire[k]? = some (pk, m))
    {l : List (Packet × ℕ)} (hl : ∀ x ∈ l, x.1.packetID = pk.packetID) {n : UInt16} (hn : n ≠ pk.packetID) :
    under (fun x => x.1.packetID) n (st.wire.eraseIdx k ++ l) = st.underway n := by
  have hnone : under (fun x : Packet × ℕ => x.1.packetID) n l = [] := by
    rw [under, filter_eq_nil_iff]
    intro x hx
    simp [hl x hx, Ne.symm hn]
  rw [under_append, hnone, append_nil, under_eraseIdx_ne hk (Ne.symm hn), underway]

theorem underway_answer {l : List (Packet × ℕ)} {n : UInt16}
    (hgone : under (fun x : Packet × ℕ => x.1.packetID) n l = []) {ack : Packet} (hid : ack.packetID = n)
    {m : ℕ} : under (fun x : Packet × ℕ => x.1.packetID) n (l ++ [(ack, m)]) = [(ack, m)] := by
  rw [under_append, hgone, nil_append]
  exact under_singleton_self (a := (ack, m)) hid

section Arrivals

variable {st : InboundLink} {k : ℕ} {pk : Packet} {m : ℕ}

section

variable (h : Inv st)
include h

/-- A handler keeps the invariant when it touches the entry of its own packet only and answers with one
packet, or fails before it has handed the message over. -/
theorem handle_inv (hk : st.wire[k]? = some (pk, m)) {e : Exchange} (he : st.exchanges pk.packetID = some e)
    {b : Broker} {r : Handled} {writable : Bool} (hwf : r.inflight.WF) {handed : List ℕ}
    (hhanded : (if handedOver r.events then st.handed ++ [m] else st.handed) = handed)
    (hnew : handedOver r.events = true → r.err = false ∧ m ∉ st.handed)
    (hsame : ∀ n, n ≠ pk.packetID → stored r.inflight n = stored st.conn.inflight n)
    (hself : e.released = false → m ∈ handed → stored r.inflight pk.packetID = true)
    (hanswer : r.err = false → ∃ ack, ack.packetID = pk.packetID ∧ Conn.writes r.events = [ack] ∧
      Flow st.version handed e [(ack, m)]) :
    Inv ({ st with wire := st.wire.eraseIdx k }.handle b r m writable) := by
  have hunique : ∀ e', st.exchanges pk.packetID = some e' → e = e' :=
    fun e' he' => Option.some.inj (he.symm.trans he')
  obtain ⟨e', he', hok, hm, -, hgone, hsent⟩ := h.arrives hk
  obtain rfl := hunique e' he'
  obtain ⟨hwf', hkeep⟩ := Conn.finish_keeps st.conn r writable b.maximumMessageExpiryInterval b.now hwf
  cases herr : r.err with
  | true =>
    have hhand : handedOver r.events = false := by
      by_contra hn
      rw [(hnew (by simpa using hn)).1] at herr
      cases herr
    rw [hhand, if_neg Bool.false_ne_true] at hhanded
    subst hhanded
    simp only [handle, herr, hhand, Bool.false_eq_true, ↓reduceIte]
    refine h.lose rfl rfl rfl rfl rfl rfl hwf' fun n e' he' hrel hin => ?_
    refine (hkeep n).trans ?_
    by_cases hn : n = pk.packetID
    · subst hn
      obtain rfl := hunique e' he'
      exact hself hrel (hm ▸ hin)
    · rw [hsame n hn]
      exact (h.exchanges n e' he').memory hrel hin
  | false =>
    obtain ⟨ack, hackid, hwrites, hflow⟩ := hanswer herr
    have hsub : ∀ x ∈ st.handed, x ∈ handed := by
      intro x hx
      rw [← hhanded]
      split
      · exact mem_append_left _ hx
      · exact hx
    have hin : ∀ x ∈ handed, x ∈ st.handed ∨ x = m := by
      intro x hx
      rw [← hhanded] at hx
      split at hx
      · exact (mem_append.mp hx).imp_right mem_singleton.mp
      · exact .inl hx
    simp only [handle, herr, hhanded, hwrites, Bool.false_eq_true, ↓reduceIte, map_cons, map_nil]
    refine h.change pk.packetID hwf' rfl ?_ le_rfl hsub ?_ ?_ ?_ ?_ (fun e' he' => .inl ⟨e', he', rfl⟩) ?_
      (fun x hx => hsub x (h.completed x hx)) h.refused
    · intro n hn
      exact ⟨rfl, underway_other hk (by simp [hackid]) hn, id, (hkeep n).trans (hsame n hn)⟩
    · exact fun x hx => (hin x hx).imp_right fun heq => ⟨e, he, heq.trans hm⟩
    · rw [← hhanded]
      split
      · next hhand =>
        refine nodup_append.mpr ⟨h.nodup, nodup_singleton _, fun x hx y hy hxy => (hnew hhand).2 ?_⟩
        rwa [← mem_singleton.mp hy, ← hxy]
      · exact h.nodup
    · intro x hx
      rcases hin x hx with hx | rfl
      · exact h.old x hx
      · exact hm ▸ hok.old
    · intro e' he'
      obtain rfl := hunique e' he'
      refine ⟨hok.id, hok.type, hok.qos, hok.old, ?_, fun hrel => hsub _ (hok.handed hrel), ?_, fun _ => hsent⟩
      · exact fun hrel hdone => (hkeep _).trans (hself hrel (hm ▸ hdone))
      · rw [underway, underway_answer hgone hackid]
        exact hm ▸ hflow
    · intro hnone
      rw [he] at hnone
      cases hnone

theorem publish_inv (hk : st.wire[k]? = some (pk, m)) (htype : pk.type = .publish)
    {b : Broker} (hb : 0 ≤ b.now + b.maximumMessageExpiryInterval) (hallow : b.allows pk = true)
    (hfree : stored st.conn.inflight pk.packetID = false) (writable : Bool) :
    Inv ({ st with wire := st.wire.eraseIdx k }.handle b
      (b.processPublish st.conn.inflight pk writable) m writable) := by
  obtain ⟨e, he, hok, rfl, hflow, -⟩ := h.arrives hk
  obtain ⟨hrel, hqos⟩ := hflow.publish htype
  have hnew : e.message ∉ st.handed := by
    intro hin
    rw [hok.memory hrel hin] at hfree
    cases hfree
  have hwf := (Conn.processPublish_quiet hb st.conn.inflight pk writable).wf h.wf
  rcases Broker.processPublish_allowed hqos hallow hfree writable with
    ⟨hinf, herr, hhand⟩ | ⟨j, ack, hj, hacktype, hackid, hcode, hinf, herr, hwrites, hhand⟩
  · refine handle_inv h hk he hwf rfl (by simp [hhand]) (fun n _ => by rw [hinf]) ?_ (by simp [herr])
    simp only [hhand, Bool.false_eq_true, ↓reduceIte]
    exact fun _ hin => absurd hin hnew
  · refine handle_inv h hk he hwf rfl (fun hover => ⟨?_, hnew⟩) (fun n hn => ?_) (fun _ _ => ?_)
      (fun hok => ⟨ack, hackid, hwrites, ?_⟩)
    · rw [herr, ← hhand, hover, Bool.not_true]
    · rw [hinf, stored, get_put_ne _ (hackid ▸ hn), hj n hn, stored]
    · rw [hinf, stored, ← hackid, get_put_self]
      simp [hacktype]
    · obtain rfl : writable = true := by simpa [herr] using hok
      rw [hhand, if_pos rfl]
      exact .received hrel hacktype (by rw [readCode, hcode, ite_self]) (by simp)

theorem duplicate_inv (hk : st.wire[k]? = some (pk, m)) (htype : pk.type = .publish)
    {b : Broker} (hb : 0 ≤ b.now + b.maximumMessageExpiryInterval) (hallow : b.allows pk = true)
    (hversion : st.version ≠ 5) (hdone : m ∈ st.handed) (hstored : stored st.conn.inflight pk.packetID = true)
    (writable : Bool) : Inv ({ st with wire := st.wire.eraseIdx k }.handle b
      (b.processPublish st.conn.inflight pk writable) m writable) := by
  obtain ⟨e, he, -, rfl, hflow, -⟩ := h.arrives hk
  obtain ⟨hrel, hqos⟩ := hflow.publish htype
  obtain ⟨hget, hhand, hanswer⟩ := Broker.processPublish_stored hqos hallow hstored writable
  have hsame : ∀ n, stored (b.processPublish st.conn.inflight pk writable).inflight n =
      stored st.conn.inflight n := by
    intro n
    rw [stored, hget n, stored]
  refine handle_inv h hk he ((Conn.processPublish_quiet hb st.conn.inflight pk writable).wf h.wf)
    (if_neg (by simp [hhand])) (by simp [hhand]) (fun n _ => hsame n) (fun _ _ => (hsame _).trans hstored) ?_
  intro herr
  obtain ⟨ack, hacktype, hackid, hwrites⟩ := hanswer herr
  exact ⟨ack, hackid, hwrites, .received hrel hacktype (if_neg hversion) hdone⟩

theorem pubrel_inv (hk : st.wire[k]? = some (pk, m)) (htype : pk.type = .pubrel)
    {b : Broker} (hb : 0 ≤ b.now + b.maximumMessageExpiryInterval) (writable : Bool) :
    Inv ({ st with wire := st.wire.eraseIdx k }.handle b
      (b.processPubrel st.conn.inflight pk writable) m writable) := by
  obtain ⟨e, he, -, rfl, hflow, -⟩ := h.arrives hk
  obtain ⟨hrel, hfail⟩ : e.released = true ∧ failed pk = false := by
    cases hflow with
    | published before type qos | received before type code done | completing after type =>
      simp [htype] at type
    | releasing after type ok => exact ⟨after, ok⟩
  obtain ⟨hget, hhand, ack, hacktype, hackid, hwrites⟩ :=
    b.processPubrel_answers st.conn.inflight hfail writable
  refine handle_inv h hk he ((Conn.processPubrel_quiet hb st.conn.inflight pk writable).wf h.wf)
    (if_neg (by simp [hhand])) (by simp [hhand]) (fun n hn => ?_) (fun hrel' _ => ?_)
    (fun _ => ⟨ack, hackid, hwrites, .completing hrel hacktype⟩)
  · rw [stored, hget n hn, stored]
  · rw [hrel] at hrel'
    cases hrel'

theorem pubrec_inv (hk : st.wire[k]? = some (pk, m)) (htype : pk.type = .pubrec) :
    Inv ({ st with wire := st.wire.eraseIdx k }.receivePubrec pk) := by
  obtain ⟨e, he, hok, hm, hflow, hgone, hsent⟩ := h.arrives hk
  obtain ⟨hrel, hcode, hdone⟩ : e.released = false ∧ readCode st.version pk = 0 ∧ e.message ∈ st.handed := by
    cases hflow with
    | published before type qos | releasing after type ok | completing after type => simp [htype] at type
    | received before type code done => exact ⟨before, code, done⟩
  have hok' : ¬ readCode st.version pk ≥ errUnspecifiedError.code := by
    rw [hcode]
    decide
  simp only [receivePubrec, he, hrel, hok', Bool.false_eq_true, ↓reduceIte]
  refine h.change pk.packetID h.wf rfl ?_ le_rfl (fun _ hx => hx) (fun _ hx => .inl hx) h.nodup h.old ?_ ?_ ?_
    h.completed h.refused
  · intro n hn
    refine ⟨Function.update_of_ne hn _ _, ?_, id, rfl⟩
    exact underway_other hk (by simp [pubrelPacket]) hn
  · intro e' he'
    simp only [Function.update_self, Option.some.injEq] at he'
    subst he'
    refine ⟨hok.id, hok.type, hok.qos, hok.old, ?_, fun _ => hdone, ?_, fun _ => hsent⟩
    · intro hrel'
      cases hrel'
    · have hid : (pubrelPacket st.version pk.packetID).packetID = pk.packetID := rfl
      rw [underway, underway_answer hgone hid]
      exact Flow.releasing (e := { e with released := true }) rfl rfl (by simp [failed, pubrelPacket,
        reasonCodeValid, codeOf, errUnspecifiedError])
  · intro e' he'
    simp only [Function.update_self, Option.some.injEq] at he'
    subst he'
    exact .inl ⟨e, he, rfl⟩
  · intro hnone
    simp at hnone

theorem pubcomp_inv (hk : st.wire[k]? = some (pk, m)) (htype : pk.type = .pubcomp) :
    Inv ({ st with wire := st.wire.eraseIdx k }.receivePubcomp pk) := by
  obtain ⟨e, he, hok, hm, hflow, hgone, hsent⟩ := h.arrives hk
  have hrel : e.released = true := by
    cases hflow with
    | published before type qos | received before type code done => simp [htype] at type
    | releasing after type ok => exact after
    | completing after type => exact after
  simp only [receivePubcomp, he, hrel, ↓reduceIte]
  refine h.change pk.packetID h.wf rfl ?_ le_rfl (fun _ hx => hx) (fun _ hx => .inl hx) h.nodup h.old ?_ ?_ ?_ ?_
    h.refused
  · intro n hn
    refine ⟨Function.update_of_ne hn _ _, ?_, id, rfl⟩
    rw [underway, ← append_nil (st.wire.eraseIdx k)]
    exact underway_other hk (by simp) hn
  · intro e' he'
    simp at he'
  · intro e' he'
    simp at he'
  · exact fun _ => hgone
  · intro x hx
    rcases mem_append.mp hx with hx | hx
    · exact h.completed x hx
    · rw [mem_singleton.mp hx]
      exact hok.handed hrel

private theorem arrives_type (hk : st.wire[k]? = some (pk, m)) :
    pk.type = .publish ∨ pk.type = .pubrel ∨ pk.type = .pubrec ∨ pk.type = .pubcomp := by
  obtain ⟨e, he, hok, hm, hflow, hgone, hsent⟩ := h.arrives hk
  cases hflow with
  | published before type qos => exact .inl type
  | received before type code done => exact .inr (.inr (.inl type))
  | releasing after type ok => exact .inr (.inl type)
  | completing after type => exact .inr (.inr (.inr type))

end

end Arrivals

section Client

variable {st : InboundLink}

theorem underway_sent {n k : UInt16} (hk : k ≠ n) {pk : Packet} (hid : pk.packetID = n) {m : ℕ} :
    under (fun x : Packet × ℕ => x.1.packetID) k (st.wire ++ [(pk, m)]) = st.underway k := by
  have hne : pk.packetID ≠ k := by
    rw [hid]
    exact Ne.symm hk
  rw [under_append, under_singleton_ne (a := (pk, m)) hne, append_nil, underway]

theorem begin_inv (h : Inv st) {pk : Packet} (htype : pk.type = .publish) (hqos : pk.qos = 2) :
    Inv (st.begin pk) := by
  simp only [begin]
  split
  · exact h
  · rename_i hnone
    have hempty := h.free _ hnone
    have hfresh : st.next ∉ st.handed := fun hin => (h.old _ hin).false
    have hself : ∀ {e' : Exchange},
        Function.update st.exchanges pk.packetID (some ⟨st.next, pk, false⟩) pk.packetID = some e' →
        e' = ⟨st.next, pk, false⟩ := by
      intro e' he'
      rw [Function.update_self, Option.some.injEq] at he'
      exact he'.symm
    have hown : ∀ e', Function.update st.exchanges pk.packetID (some ⟨st.next, pk, false⟩) pk.packetID =
        some e' → (∃ e0, st.exchanges pk.packetID = some e0 ∧ e0.message = e'.message) ∨
          st.next ≤ e'.message := by
      intro e' he'
      rw [hself he']
      exact .inr le_rfl
    have hfull : Function.update st.exchanges pk.packetID (some ⟨st.next, pk, false⟩) pk.packetID = none →
        ∀ l : List (Packet × ℕ), l = [] := by
      intro hno
      rw [Function.update_self] at hno
      cases hno
    have hold : ∀ x ∈ st.handed, x < st.next + 1 := fun x hx => (h.old x hx).trans (Nat.lt_succ_self _)
    split
    · refine h.change pk.packetID h.wf rfl ?_ (Nat.le_succ _) (fun _ hx => hx) (fun _ hx => .inl hx) h.nodup hold
        ?_ hown (fun hno => hfull hno _) h.completed h.refused
      · intro n hn
        exact ⟨Function.update_of_ne hn _ _, underway_sent hn rfl, mem_cons_of_mem _, rfl⟩
      · intro e' he'
        rw [hself he']
        refine ⟨rfl, htype, hqos, Nat.lt_succ_self _, fun _ hin => absurd hin hfresh,
          (fun hrel => by cases hrel), ?_, fun _ => mem_cons_self ..⟩
        rw [underway, underway_answer hempty rfl]
        exact Flow.published (e := ⟨st.next, pk, false⟩) rfl htype hqos
    · refine h.change pk.packetID h.wf rfl ?_ (Nat.le_succ _) (fun _ hx => hx) (fun _ hx => .inl hx) h.nodup hold
        ?_ hown (fun hno => hfull hno _) h.completed h.refused
      · intro n hn
        exact ⟨Function.update_of_ne hn _ _, rfl, id, rfl⟩
      · intro e' he'
        have hnil : under (fun x : Packet × ℕ => x.1.packetID) pk.packetID st.wire = [] := hempty
        rw [hself he']
        refine ⟨rfl, htype, hqos, Nat.lt_succ_self _, fun _ hin => absurd hin hfresh,
          (fun hrel => by cases hrel), ?_, ?_⟩
        · rw [underway, hnil]
          exact .idle
        · intro hne
          exact absurd hnil hne

theorem retransmit_inv (h : Inv st) (n : UInt16) : Inv (st.retransmit n) := by
  simp only [retransmit]
  split
  · rename_i hcond
    have hnot : n ∉ st.sent := by
      simp only [Bool.and_eq_true, Bool.not_eq_true', contains_eq_mem, decide_eq_false_iff_not] at hcond
      exact hcond.2
    split
    · exact h
    · rename_i e he
      have hok := h.exchanges n e he
      have hempty : under (fun x : Packet × ℕ => x.1.packetID) n st.wire = [] := by
        by_contra hne
        exact hnot (hok.sent hne)
      have hid : (e.again st.version).packetID = n := by
        simp only [Exchange.again]
        split
        · exact hok.id
        · exact hok.id
      refine h.change n h.wf rfl ?_ le_rfl (fun _ hx => hx) (fun _ hx => .inl hx) h.nodup h.old ?_
        (fun e' he' => .inl ⟨e', he', rfl⟩) ?_ h.completed h.refused
      · intro k hk
        exact ⟨rfl, underway_sent hk hid, mem_cons_of_mem _, rfl⟩
      · intro e' he'
        have heq : e' = e := by
          rw [he, Option.some.injEq] at he'
          exact he'.symm
        subst heq
        refine ⟨hok.id, hok.type, hok.qos, hok.old, hok.memory, hok.handed, ?_, fun _ => mem_cons_self ..⟩
        rw [underway, underway_answer hempty hid]
        cases hrel : e'.released with
        | true =>
          refine .releasing hrel (by simp [Exchange.again, hrel, pubrelPacket]) ?_
          simp [Exchange.again, hrel, failed, pubrelPacket, reasonCodeValid, codeOf, errUnspecifiedError]
        | false =>
          exact .published hrel (by simp [Exchange.again, hrel, hok.type])
            (by simp [Exchange.again, hrel, hok.qos])
      · intro hno
        rw [he] at hno
        cases hno
  · exact h

end Client

private theorem inherited_keeps (s r : ℤ) (old : Inflight) : Keeps old (Conn.inherited s r old) := by
  intro hwf
  have hclone : old.clone.WF := ⟨hwf.keyed, hwf.waits, rfl⟩
  simp only [Conn.inherited]
  split
  · split
    · exact ⟨hclone.congr rfl rfl, fun _ => rfl⟩
    · exact ⟨hclone, fun _ => rfl⟩
  · rename_i hlen
    refine ⟨Conn.newInflights_sound.wf.congr rfl rfl, ?_⟩
    intro n
    have hnil : old.internal.entries = [] := eq_nil_of_length_eq_zero (Nat.eq_zero_of_not_pos hlen)
    have hnone : old.internal.lookup n = none := by
      rw [AList.lookup, hnil]
      rfl
    rw [stored_of_none (i := old) (by rw [Inflight.get, hnone]; rfl)]
    rfl

/-- A client that sends QoS 2 messages, a broker that allows them, and steps of the broker
that are not the handlers of `deliver`. -/
def wellFormed (st : InboundLink) : InboundStep → Bool
  | .start pk => pk.type = .publish && pk.qos = 2
  | .deliver k b _ => b.protocolVersion = st.version && 0 ≤ b.now + b.maximumMessageExpiryInterval &&
      (st.wire[k]?).all (fun x => x.1.type ≠ .publish || b.allows x.1)
  | .outbound (.inPublish _ _ _) => false
  | .outbound (.inPubrel _ _ _) => false
  | .outbound t => t.wellFormed
  | _ => true

/-- No PUBLISH meets a stored PUBREC, unless the client reads no reason code and the message was
handed over with the PUBREC, and no stored PUBREC expires. -/
def unmet (st : InboundLink) : InboundStep → Bool
  | .deliver k _ _ =>
    (st.wire[k]?).all (fun x => x.1.type ≠ .publish || !stored st.conn.inflight x.1.packetID ||
      st.version ≠ 5 && st.handed.contains x.2)
  | .outbound t => st.conn.ownStep t
  | _ => true

def Unmet (st : InboundLink) (t : InboundStep) : Prop := st.wellFormed t = true ∧ st.unmet t = true
deriving Decidable

private theorem fresh_inv (s r : ℤ) : Inv (fresh s r) := by
  refine ⟨Conn.newInflights_sound.wf.congr rfl rfl, nodup_nil, ?_, ?_, ?_, fun _ _ => rfl, ?_, rfl⟩
  · exact fun _ hm => by cases hm
  · exact fun _ _ he => by cases he
  · exact fun _ _ _ _ he => by cases he
  · exact fun _ hm => by cases hm

theorem step_inv (st : InboundLink) (t : InboundStep) (h : Inv st) (ht : st.Unmet t) : Inv (st.step t) := by
  obtain ⟨hwf, hun⟩ := ht
  cases t with
  | start pk =>
    simp only [wellFormed, Bool.and_eq_true, decide_eq_true_eq] at hwf
    exact begin_inv h hwf.1 hwf.2
  | resend id => exact retransmit_inv h id
  | deliver k b writable =>
    simp only [wellFormed, Bool.and_eq_true, decide_eq_true_eq] at hwf
    obtain ⟨⟨-, hb⟩, hallow⟩ := hwf
    simp only [step]
    cases hk : st.wire[k]? with
    | none => exact h
    | some x =>
      obtain ⟨pk, m⟩ := x
      simp only [unmet, hk, Option.all_some] at hun
      rw [hk, Option.all_some] at hallow
      rcases arrives_type h hk with htype | htype | htype | htype
      · simp only [htype]
        have hallow' : b.allows pk = true := by simpa [htype] using hallow
        cases hstored : stored st.conn.inflight pk.packetID with
        | false => exact publish_inv h hk htype hb hallow' hstored writable
        | true =>
          have hdup : st.version ≠ 5 ∧ m ∈ st.handed := by simpa [htype, hstored] using hun
          exact duplicate_inv h hk htype hb hallow' hdup.1 hdup.2 hstored writable
      · simp only [htype]
        exact pubrel_inv h hk htype hb writable
      · simp only [htype]
        exact pubrec_inv h hk htype
      · simp only [htype]
        exact pubcomp_inv h hk htype
  | disconnect =>
    refine h.lose rfl rfl rfl rfl rfl rfl h.wf ?_
    exact fun n e he hrel hin => (h.exchanges n e he).memory hrel hin
  | connect s r version =>
    obtain ⟨hwf', hkeep⟩ := inherited_keeps s r st.conn.inflight h.wf
    refine h.lose rfl rfl rfl rfl rfl rfl hwf' ?_
    intro n e he hrel hin
    exact (hkeep n).trans ((h.exchanges n e he).memory hrel hin)
  | outbound t =>
    have hstep : t.wellFormed = true := by
      cases t <;> first | exact hwf | cases hwf
    obtain ⟨hwf', hkeep⟩ := Conn.step_keeps st.conn t hstep hun h.wf
    refine ⟨hwf', h.nodup, h.old, ?_, h.distinct, h.free, h.completed, h.refused⟩
    intro n e he
    have hok := h.exchanges n e he
    refine ⟨hok.id, hok.type, hok.qos, hok.old, ?_, hok.handed, hok.flow, hok.sent⟩
    intro hrel hin
    exact (hkeep n).trans (hok.memory hrel hin)

/-- No message is handed over twice, a completed one was handed over exactly once, and every
PUBREC lets the exchange of a message that was handed over go on, as the client reads it. -/
structure ExactlyOnce (st : InboundLink) : Prop where
  atMostOnce : st.handed.Nodup
  completed : ∀ m ∈ st.completed, st.handed.count m = 1
  answered : ∀ pk m, (pk, m) ∈ st.wire → pk.type = .pubrec →
    readCode st.version pk < errUnspecifiedError.code ∧ m ∈ st.handed
  accepted : st.refused = []

theorem Inv.exactlyOnce {st : InboundLink} (h : Inv st) : ExactlyOnce st := by
  refine ⟨h.nodup, ?_, ?_, h.refused⟩
  · intro m hm
    exact count_eq_one_of_mem h.nodup (h.completed m hm)
  · intro pk m hmem htype
    obtain ⟨k, hk⟩ := mem_iff_getElem?.mp hmem
    obtain ⟨e, he, hok, hm, hflow, -, -⟩ := h.arrives hk
    cases hflow with
    | published before type qos | releasing after type ok | completing after type => simp [htype] at type
    | received before type code done =>
      refine ⟨?_, done⟩
      rw [code]
      decide

/-- A message that a client of version 3.1.1 sends again on a second connection and releases there,
and its identifier used again with version 5. -/
def twoMessages : List InboundStep :=
  [.connect 10 10 4,
    .start (Broker.message 1 2 [0x61]),
    .deliver 0 { Broker.allowing with protocolVersion := 4 } true,
    .disconnect,
    .connect 10 10 4,
    .resend 1,
    .deliver 0 { Broker.allowing with protocolVersion := 4 } true,
    .deliver 0 { Broker.allowing with protocolVersion := 4 } true,
    .deliver 0 { Broker.allowing with protocolVersion := 4 } true,
    .deliver 0 { Broker.allowing with protocolVersion := 4 } true,
    .connect 10 10 5,
    .start (Broker.message 1 2 [0x62]),
    .deliver 0 Broker.allowing true]

end InboundLink

end MonsterMQ.Mqtt
