import MonsterMQ.MqttHandlers

/-!
# Identifiers of the client and of the broker

Both directions share one map. A packet of the client leaves the broker's own messages alone, except for a
PUBLISH that reaches the duplicate check, a SUBSCRIBE or an UNSUBSCRIBE whose identifier the broker has in
use.
-/

namespace MonsterMQ.Mqtt

open LittleEndian FiniteMaps

/-- What the part of `processPublish` behind the duplicate check does to the map. -/
inductive HookEffect (b : Broker) (i : Inflight) (pk : Packet) : Handled × Bool → Prop where
  | refused {r : Handled × Bool} (inflight : r.1.inflight = i) (reserved : r.2 = true) : HookEffect b i pk r
  | received {r : Handled × Bool} (ack : Packet) (type : ack.type = .pubrec)
      (id : ack.packetID = pk.packetID) (expiry : ack.expiry = b.now + b.maximumMessageExpiryInterval)
      (inflight : r.1.inflight = i.put ack) (reserved : r.2 = false) : HookEffect b i pk r
  | acknowledged {r : Handled × Bool} (ack : Packet) (type : ack.type = .puback)
      (id : ack.packetID = pk.packetID) (expiry : ack.expiry = b.now + b.maximumMessageExpiryInterval)
      (inflight : r.1.inflight = ((i.put ack).delete pk.packetID).1.increaseReceiveQuota.1)
      (reserved : r.2 = false) : HookEffect b i pk r
  | unsent {r : Handled × Bool} (ack : Packet) (type : ack.type = .puback)
      (id : ack.packetID = pk.packetID) (expiry : ack.expiry = b.now + b.maximumMessageExpiryInterval)
      (inflight : r.1.inflight = i.put ack) (reserved : r.2 = true) : HookEffect b i pk r

theorem HookEffect.frame {b : Broker} {i : Inflight} {pk : Packet} {r : Handled × Bool}
    (h : HookEffect b i pk r) {n : UInt16} (hn : n ≠ pk.packetID) :
    r.1.inflight.internal.lookup n = i.internal.lookup n := by
  cases h with
  | refused inflight _ => rw [inflight]
  | received ack _ id _ inflight _ | unsent ack _ id _ inflight _ =>
    rw [inflight]
    exact i.lookup_put_ne (id ▸ hn)
  | acknowledged ack _ id _ inflight _ =>
    rw [inflight, Inflight.increaseReceiveQuota_internal, Inflight.lookup_delete_ne _ hn,
      i.lookup_put_ne (id ▸ hn)]

theorem HookEffect.sendQuota {b : Broker} {i : Inflight} {pk : Packet} {r : Handled × Bool}
    (h : HookEffect b i pk r) : r.1.inflight.sendQuota = i.sendQuota := by
  cases h with
  | refused inflight _ => rw [inflight]
  | received ack _ _ _ inflight _ | unsent ack _ _ _ inflight _ =>
    rw [inflight]
    exact congrArg Inflight.Quotas.sendQuota (i.put_quotas ack)
  | acknowledged ack _ _ _ inflight _ =>
    have hdelete := congrArg Inflight.Quotas.sendQuota ((i.put ack).delete_quotas pk.packetID)
    rw [inflight, Inflight.increaseReceiveQuota_sendQuota]
    exact hdelete.trans (congrArg Inflight.Quotas.sendQuota (i.put_quotas ack))

theorem HookEffect.self {b : Broker} {i : Inflight} {pk : Packet} {r : Handled × Bool}
    (h : HookEffect b i pk r) (hnone : i.internal.lookup pk.packetID = none) {e : InflightEntry}
    (he : r.1.inflight.internal.lookup pk.packetID = some e) : e.pk.outbound = false := by
  have hput : ∀ ack : Packet, ack.packetID = pk.packetID → (ack.type = .pubrec ∨ ack.type = .puback) →
      (i.put ack).internal.lookup pk.packetID = some e → e.pk.outbound = false := by
    intro ack hid htype hl
    obtain ⟨order, hself⟩ := i.lookup_put_self ack
    rw [hid, hl, Option.some.injEq] at hself
    subst hself
    rcases htype with htype | htype
    · simp [Packet.outbound, htype]
    · simp [Packet.outbound, htype]
  cases h with
  | refused inflight _ =>
    rw [inflight, hnone] at he
    cases he
  | received ack type id _ inflight _ =>
    rw [inflight] at he
    exact hput ack id (.inl type) he
  | acknowledged ack _ _ _ inflight _ =>
    rw [inflight, Inflight.increaseReceiveQuota_internal, Inflight.lookup_delete_self] at he
    cases he
  | unsent ack type id _ inflight _ =>
    rw [inflight] at he
    exact hput ack id (.inr type) he

namespace Broker

theorem refusePublish_inflight (b : Broker) (i : Inflight) (pk : Packet) (code : Code) (writable : Bool) :
    (b.refusePublish i pk code writable).inflight = i := by
  simp only [refusePublish]
  split
  · rfl
  · split <;> rfl

theorem acceptPublish_effect (b : Broker) (i : Inflight) (pk : Packet) (ignored writable : Bool) :
    HookEffect b i pk (b.acceptPublish i pk ignored writable) := by
  simp only [acceptPublish, Inflight.set]
  split
  · exact .refused rfl rfl
  · by_cases h2 : pk.qos = 2
    · have hack : (b.ackPublish pk codeSuccess).type = .pubrec := by simp [ackPublish, buildAck, h2]
      cases writable with
      | false => exact .received _ hack rfl rfl rfl (by simp [h2])
      | true =>
        have h1 : pk.qos ≠ 1 := by
          rw [h2]
          decide
        simp only [Bool.not_true, Bool.false_eq_true, ↓reduceIte, h1]
        exact .received _ hack rfl rfl rfl (by simp [h2])
    · have hack : (b.ackPublish pk codeSuccess).type = .puback := by simp [ackPublish, buildAck, h2]
      cases writable with
      | false => exact .unsent _ hack rfl rfl rfl (by simp [h2])
      | true =>
        simp only [Bool.not_true, Bool.false_eq_true, ↓reduceIte]
        split
        · exact .acknowledged _ hack rfl rfl rfl rfl
        · exact .unsent _ hack rfl rfl rfl (by simp [h2])

theorem hookPublish_effect (b : Broker) (i : Inflight) (pk : Packet) (writable : Bool) :
    HookEffect b i pk (b.hookPublish i pk writable) := by
  have hq : ∀ {q : UInt8} {r}, HookEffect b i { pk with qos := q } r → HookEffect b i pk r := by
    intro q r h
    cases h with
    | refused inflight reserved => exact .refused inflight reserved
    | received ack type id expiry inflight reserved => exact .received ack type id expiry inflight reserved
    | acknowledged ack type id expiry inflight reserved =>
      exact .acknowledged ack type id expiry inflight reserved
    | unsent ack type id expiry inflight reserved => exact .unsent ack type id expiry inflight reserved
  obtain ⟨q, hsame⟩ : ∃ q, (if pk.qos > b.maximumQos then { pk with qos := b.maximumQos } else pk) =
      { pk with qos := q } := by
    split
    · exact ⟨b.maximumQos, rfl⟩
    · exact ⟨pk.qos, rfl⟩
  simp only [hookPublish]
  rw [hsame]
  apply hq
  split
  · exact b.acceptPublish_effect i _ false writable
  · exact b.acceptPublish_effect i _ true writable
  · exact .refused (b.refusePublish_inflight i _ _ writable) rfl
  · exact .refused rfl rfl

@[grind =] def publishTopic (b : Broker) (pk : Packet) : Bytes := (b.aliasTopic pk).getD pk.topicName

/-- The PUBLISH passes every check in front of the duplicate check. -/
@[grind =] def reachesCheck (b : Broker) (i : Inflight) (pk : Packet) : Bool :=
  b.aliasTopic pk ≠ some [] && b.isValidTopic (b.publishTopic pk) && i.receiveQuota > 0 &&
    b.onACLCheck (b.publishTopic pk) true && (b.resolveVirtualPublish (b.publishTopic pk)).isOk

/-- The receive quota of a PUBLISH that ended is given back unless its PUBREC keeps it. -/
@[grind =] def settleQuota (r : Handled × Bool) : Handled :=
  if r.2 then { r.1 with inflight := r.1.inflight.increaseReceiveQuota.1 } else r.1

variable {b : Broker} {i : Inflight}

variable {pk : Packet}

theorem processPublish_reaches (hq : pk.qos ≠ 0)
    (h : b.reachesCheck i pk = true) (writable : Bool) :
    ∃ pk', pk'.packetID = pk.packetID ∧ pk'.qos = pk.qos ∧ ∀ i', i'.receiveQuota = i.receiveQuota →
      b.processPublish i' pk writable =
        settleQuota (b.checkDuplicate { i' with receiveQuota := i'.receiveQuota - 1 } pk' writable) := by
  simp only [reachesCheck, Bool.and_eq_true, decide_eq_true_eq] at h
  obtain ⟨⟨⟨⟨halias, htopic⟩, hquota⟩, hacl⟩, hvirtual⟩ := h
  obtain ⟨topic, hok⟩ : ∃ topic, b.resolveVirtualPublish (b.publishTopic pk) = .ok topic := by
    cases hv : b.resolveVirtualPublish (b.publishTopic pk) with
    | ok topic => exact ⟨topic, rfl⟩
    | error code =>
      rw [hv] at hvirtual
      cases hvirtual
  refine ⟨b.stampPublish { pk with topicName := topic }, rfl, rfl, ?_⟩
  intro i' hi
  have hpos : ¬ i'.receiveQuota ≤ 0 := by omega
  rw [publishTopic] at htopic hacl hok
  simp only [processPublish, halias, htopic, hq, Inflight.decreaseReceiveQuota, hpos, authorizePublish,
    hacl, hok, settleQuota, ↓reduceIte, Bool.not_true, Bool.false_eq_true]

theorem refusePublish_blind (b : Broker) (i i' : Inflight) (pk : Packet) (code : Code) (writable : Bool) :
    (b.refusePublish i' pk code writable).events = (b.refusePublish i pk code writable).events ∧
      (b.refusePublish i' pk code writable).err = (b.refusePublish i pk code writable).err := by
  simp only [refusePublish]
  split
  · exact ⟨rfl, rfl⟩
  · split <;> exact ⟨rfl, rfl⟩

/-- The answer of a handler to the same packet with another map in front of it. -/
structure Blind (f : Inflight → Handled) (i i' : Inflight) : Prop where
  events : (f i').events = (f i).events
  err : (f i').err = (f i).err
  internal : (f i').inflight.internal = i'.internal
  sendQuota : (f i').inflight.sendQuota = i'.sendQuota

theorem refused_blind {i' : Inflight} {pk' : Packet} {code : Code} {writable : Bool}
    (h : ∀ j : Inflight, j.receiveQuota = i.receiveQuota → b.processPublish j pk writable =
      settleQuota (b.refusePublish { j with receiveQuota := j.receiveQuota - 1 } pk' code writable, true))
    (hi : i'.receiveQuota = i.receiveQuota) : Blind (fun i => b.processPublish i pk writable) i i' := by
  have hblind := b.refusePublish_blind { i with receiveQuota := i.receiveQuota - 1 }
    { i' with receiveQuota := i'.receiveQuota - 1 } pk' code writable
  have hself := b.refusePublish_inflight { i' with receiveQuota := i'.receiveQuota - 1 } pk' code writable
  refine ⟨?_, ?_, ?_, ?_⟩
  · simp only [h i rfl, h i' hi]
    exact hblind.1
  · simp only [h i rfl, h i' hi]
    exact hblind.2
  · simp only [h i' hi, settleQuota, hself, ↓reduceIte, Inflight.increaseReceiveQuota_internal]
  · simp only [h i' hi, settleQuota, hself, ↓reduceIte, Inflight.increaseReceiveQuota_sendQuota]

theorem processPublish_early (hq : pk.qos ≠ 0) (h : b.reachesCheck i pk = false) (writable : Bool) :
    (∃ events err, ∀ j : Inflight, j.receiveQuota = i.receiveQuota →
        b.processPublish j pk writable = ⟨j, events, err⟩) ∨
      ∃ pk' code, ∀ j : Inflight, j.receiveQuota = i.receiveQuota → b.processPublish j pk writable =
        settleQuota (b.refusePublish { j with receiveQuota := j.receiveQuota - 1 } pk' code writable, true) := by
  by_cases halias : b.aliasTopic pk = some []
  · exact .inl ⟨[.disconnect errTopicAliasInvalid], true, fun j _ => by simp [processPublish, halias]⟩
  cases htopic : b.isValidTopic ((b.aliasTopic pk).getD pk.topicName) with
  | false => exact .inl ⟨[], false, fun j _ => by simp [processPublish, halias, htopic]⟩
  | true =>
    by_cases hquota : i.receiveQuota ≤ 0
    · refine .inl ⟨[.disconnect errReceiveMaximum], true, fun j hj => ?_⟩
      simp [processPublish, halias, htopic, hq, Inflight.decreaseReceiveQuota, hj, hquota]
    · cases hacl : b.onACLCheck ((b.aliasTopic pk).getD pk.topicName) true with
      | false =>
        refine .inr ⟨{ pk with topicName := (b.aliasTopic pk).getD pk.topicName }, errNotAuthorized, ?_⟩
        intro j hj
        simp [processPublish, halias, htopic, hq, Inflight.decreaseReceiveQuota, hj, hquota,
          authorizePublish, hacl, settleQuota]
      | true =>
        cases hv : b.resolveVirtualPublish ((b.aliasTopic pk).getD pk.topicName) with
        | error code =>
          refine .inr ⟨{ pk with topicName := (b.aliasTopic pk).getD pk.topicName }, code, ?_⟩
          intro j hj
          simp [processPublish, halias, htopic, hq, Inflight.decreaseReceiveQuota, hj, hquota,
            authorizePublish, hacl, hv, settleQuota]
        | ok topic =>
          have hpos : i.receiveQuota > 0 := by omega
          simp [reachesCheck, publishTopic, halias, htopic, hpos, hacl, hv, Except.isOk, Except.toBool] at h

theorem processPublish_stops (hq : pk.qos ≠ 0)
    (h : b.reachesCheck i pk = false) (writable : Bool) {i' : Inflight}
    (hi : i'.receiveQuota = i.receiveQuota) : Blind (fun i => b.processPublish i pk writable) i i' := by
  rcases processPublish_early hq h writable with ⟨events, err, heq⟩ | ⟨pk', code, heq⟩
  · constructor <;> simp only [heq i rfl, heq i' hi]
  · exact refused_blind heq hi

/-- A packet that starts or continues an exchange of the client. -/
inductive Inbound where
  | publish (pk : Packet)
  | pubrel (pk : Packet)
  | subscribe (pk : FilterPacket)
  | unsubscribe (pk : FilterPacket)

@[grind =] def Inbound.packetID : Inbound → UInt16
  | .publish pk => pk.packetID
  | .pubrel pk => pk.packetID
  | .subscribe pk => pk.packetID
  | .unsubscribe pk => pk.packetID

def Inbound.acknowledged : Inbound → Prop
  | .publish pk => pk.qos = 1 ∨ pk.qos = 2
  | _ => True

@[grind =] def process (b : Broker) (i : Inflight) (writable : Bool) : Inbound → Handled
  | .publish pk => b.processPublish i pk writable
  | .pubrel pk => b.processPubrel i pk writable
  | .subscribe pk => b.processSubscribe i pk writable
  | .unsubscribe pk => b.processUnsubscribe i pk writable

/-- The broker has the identifier in use for a message of its own. -/
@[grind =] def inUse (i : Inflight) (id : UInt16) : Bool := (i.get id).any Packet.outbound

/-- The map without the broker's own message under the identifier. -/
@[grind =]
def withoutOutbound (i : Inflight) (id : UInt16) : Inflight := if inUse i id then (i.delete id).1 else i

/-- The packet leaves the broker's messages and the send quota alone, and is answered as if
the broker had no message under its identifier. -/
structure Independent (b : Broker) (i : Inflight) (m : Inbound) (writable : Bool) : Prop where
  kept : ∀ n e, i.internal.lookup n = some e → e.pk.outbound = true →
    (b.process i writable m).inflight.internal.lookup n = some e
  sendQuota : (b.process i writable m).inflight.sendQuota = i.sendQuota
  events : (b.process i writable m).events = (b.process (withoutOutbound i m.packetID) writable m).events
  err : (b.process i writable m).err = (b.process (withoutOutbound i m.packetID) writable m).err

/-- The packet meets a message of the broker under its identifier. -/
@[grind =] def collides (b : Broker) (i : Inflight) : Inbound → Bool
  | .publish pk => inUse i pk.packetID && b.reachesCheck i pk
  | .pubrel _ => false
  | .subscribe pk => inUse i pk.packetID
  | .unsubscribe pk => inUse i pk.packetID

theorem withoutOutbound_quotas (i : Inflight) (id : UInt16) : (withoutOutbound i id).quotas = i.quotas := by
  simp only [withoutOutbound]
  split
  · exact i.delete_quotas id
  · rfl

variable {id : UInt16}

theorem withoutOutbound_of_free (h : inUse i id = false) : withoutOutbound i id = i := by
  simp [withoutOutbound, h]

variable {e : InflightEntry}

theorem ne_of_outbound {n : UInt16} (h : inUse i id = false)
    (he : i.internal.lookup n = some e) (ho : e.pk.outbound = true) : n ≠ id := by
  rintro rfl
  simp [inUse, Inflight.get, he, ho] at h

theorem checkDuplicate_cases (b : Broker) (i : Inflight) (hq : pk.qos ≠ 0) (writable : Bool) :
    (b.checkDuplicate i pk writable).1.inflight = i ∧ (b.checkDuplicate i pk writable).2 = true ∧
        (i.get pk.packetID).any (·.type = .pubrec) = true ∨
      (i.get pk.packetID).any (·.type = .pubrec) = false ∧
        HookEffect b (i.delete pk.packetID).1 pk (b.checkDuplicate i pk writable) := by
  have hpos : pk.qos > 0 := UInt8.pos_iff_ne_zero.mpr hq
  cases hget : i.get pk.packetID with
  | none =>
    right
    have hdel : (i.delete pk.packetID).1 = i := by
      have hl : i.internal.lookup pk.packetID = none := by
        simpa [Inflight.get] using hget
      simp [Inflight.delete, hl]
    rw [hdel]
    simp only [checkDuplicate, hpos, ↓reduceIte, hget]
    exact ⟨rfl, b.hookPublish_effect i pk writable⟩
  | some pki =>
    by_cases hrec : pki.type = .pubrec
    · left
      simp [checkDuplicate, hpos, hget, hrec]
    · right
      simp only [checkDuplicate, hpos, ↓reduceIte, hget, hrec]
      exact ⟨by simp [hrec], b.hookPublish_effect _ pk writable⟩

theorem settleQuota_internal (r : Handled × Bool) :
    (settleQuota r).inflight.internal = r.1.inflight.internal := by
  simp only [settleQuota]
  split
  · exact Inflight.increaseReceiveQuota_internal _
  · rfl

private theorem settleQuota_sendQuota (r : Handled × Bool) :
    (settleQuota r).inflight.sendQuota = r.1.inflight.sendQuota := by
  simp only [settleQuota]
  split
  · exact Inflight.increaseReceiveQuota_sendQuota _
  · rfl

theorem processPublish_frame (b : Broker) (i : Inflight) (hq : pk.qos ≠ 0) (writable : Bool) :
    (∀ n, n ≠ pk.packetID → (b.processPublish i pk writable).inflight.internal.lookup n =
        i.internal.lookup n) ∧
      (b.processPublish i pk writable).inflight.sendQuota = i.sendQuota := by
  cases hr : b.reachesCheck i pk with
  | false =>
    have hblind : Blind (fun i => b.processPublish i pk writable) i i :=
      processPublish_stops hq hr writable rfl
    exact ⟨fun n _ => congrArg (fun m : FMap UInt16 InflightEntry => m.lookup n) hblind.internal,
      hblind.sendQuota⟩
  | true =>
    obtain ⟨pk', hid, hqos, heq⟩ := processPublish_reaches hq hr writable
    have hq' : pk'.qos ≠ 0 := by rw [hqos]; exact hq
    rw [heq i rfl, settleQuota_internal, settleQuota_sendQuota, ← hid]
    rcases b.checkDuplicate_cases { i with receiveQuota := i.receiveQuota - 1 } hq' writable with
      ⟨hsame, -, -⟩ | ⟨-, heff⟩
    · rw [hsame]
      exact ⟨fun n _ => rfl, rfl⟩
    · refine ⟨?_, ?_⟩
      · intro n hn
        rw [heff.frame hn, Inflight.lookup_delete_ne _ hn]
      · rw [heff.sendQuota]
        exact congrArg Inflight.Quotas.sendQuota (Inflight.delete_quotas _ _)

theorem processPublish_replaces (hq : pk.qos ≠ 0)
    (hr : b.reachesCheck i pk = true) (hu : inUse i pk.packetID = true) (writable : Bool)
    (he : (b.processPublish i pk writable).inflight.internal.lookup pk.packetID = some e) :
    e.pk.outbound = false := by
  obtain ⟨pk', hid, hqos, heq⟩ := processPublish_reaches hq hr writable
  have hq' : pk'.qos ≠ 0 := by rw [hqos]; exact hq
  rw [heq i rfl, settleQuota_internal, ← hid] at he
  rcases b.checkDuplicate_cases { i with receiveQuota := i.receiveQuota - 1 } hq' writable with
    ⟨-, -, hrec⟩ | ⟨-, heff⟩
  · have hrec' : (i.get pk.packetID).any (·.type = .pubrec) = true := by
      rw [← hid]
      exact hrec
    cases hget : i.get pk.packetID with
    | none => simp [hget] at hrec'
    | some pki =>
      have htype : pki.type = .pubrec := by simpa [hget] using hrec'
      simp [inUse, hget, Packet.outbound, htype] at hu
  · exact heff.self (Inflight.lookup_delete_self _ _) he

theorem publish_independent_iff (b : Broker) (i : Inflight) (hq : pk.qos ≠ 0)
    (writable : Bool) : Independent b i (.publish pk) writable ↔ collides b i (.publish pk) = false := by
  have hframe := b.processPublish_frame i hq writable
  constructor
  · intro h
    by_contra hc
    simp only [collides, Bool.not_eq_false, Bool.and_eq_true] at hc
    obtain ⟨hu, hr⟩ := hc
    obtain ⟨e, he, ho⟩ : ∃ e, i.internal.lookup pk.packetID = some e ∧ e.pk.outbound = true := by
      cases hl : i.internal.lookup pk.packetID with
      | none => simp [inUse, Inflight.get, hl] at hu
      | some e => exact ⟨e, rfl, by simpa [inUse, Inflight.get, hl] using hu⟩
    have hkept := h.kept pk.packetID e he ho
    have := processPublish_replaces hq hr hu writable hkept
    rw [this] at ho
    cases ho
  · intro hc
    simp only [collides, Bool.and_eq_false_iff] at hc
    cases hu : inUse i pk.packetID with
    | false =>
      have hwithout : withoutOutbound i pk.packetID = i := withoutOutbound_of_free hu
      refine ⟨?_, hframe.2, ?_, ?_⟩
      · intro n e he ho
        exact (hframe.1 n (ne_of_outbound hu he ho)).trans he
      · simp only [Inbound.packetID, hwithout]
      · simp only [Inbound.packetID, hwithout]
    | true =>
      have hr : b.reachesCheck i pk = false := by
        rcases hc with hc | hc
        · rw [hu] at hc
          cases hc
        · exact hc
      have hquota : (withoutOutbound i pk.packetID).receiveQuota = i.receiveQuota :=
        congrArg Inflight.Quotas.receiveQuota (withoutOutbound_quotas i pk.packetID)
      have hblind := processPublish_stops hq hr writable hquota
      have hself : Blind (fun i => b.processPublish i pk writable) i i :=
        processPublish_stops hq hr writable rfl
      refine ⟨?_, hframe.2, hblind.events.symm, hblind.err.symm⟩
      intro n e he _
      exact (congrArg (fun m : FMap UInt16 InflightEntry => m.lookup n) hself.internal).trans he

theorem pubrel_independent (b : Broker) (i : Inflight) (pk : Packet) (writable : Bool) :
    Independent b i (.pubrel pk) writable := by
  cases hu : inUse i pk.packetID with
  | true =>
    obtain ⟨pki, hpki, hne⟩ : ∃ pki, i.get pk.packetID = some pki ∧ pki.type ≠ .pubrec := by
      cases hg : i.get pk.packetID with
      | none => simp [inUse, hg] at hu
      | some pki =>
        refine ⟨pki, rfl, ?_⟩
        intro ht
        simp [inUse, hg, Packet.outbound, ht] at hu
    have hgone : (withoutOutbound i pk.packetID).get pk.packetID = none := by
      simp only [withoutOutbound, hu, ↓reduceIte]
      exact i.get_delete_self pk.packetID
    have heq : b.process i writable (.pubrel pk) =
        ⟨i, [.write (b.buildAck pk.packetID .pubcomp 0 pk.properties errPacketIdentifierNotFound)],
          !writable⟩ := by
      simp only [process, processPubrel, hpki, ne_eq, hne, not_false_eq_true, ↓reduceIte]
    have heq' : b.process (withoutOutbound i pk.packetID) writable (.pubrel pk) =
        ⟨withoutOutbound i pk.packetID,
          [.write (b.buildAck pk.packetID .pubcomp 0 pk.properties errPacketIdentifierNotFound)],
          !writable⟩ := by
      simp only [process, processPubrel, hgone]
    refine ⟨?_, ?_, ?_, ?_⟩
    · intro n e he _
      rw [heq]
      exact he
    · rw [heq]
    · rw [heq, Inbound.packetID, heq']
    · rw [heq, Inbound.packetID, heq']
  | false =>
    have hwithout : withoutOutbound i pk.packetID = i := withoutOutbound_of_free hu
    have hframe : (∀ n, n ≠ pk.packetID →
        (b.process i writable (.pubrel pk)).inflight.internal.lookup n = i.internal.lookup n) ∧
        (b.process i writable (.pubrel pk)).inflight.sendQuota = i.sendQuota := by
      have hdel := congrArg Inflight.Quotas.sendQuota (i.delete_quotas pk.packetID)
      simp only [process, processPubrel]
      split
      · exact ⟨fun n _ => rfl, rfl⟩
      · split
        · exact ⟨fun n _ => rfl, rfl⟩
        · split
          · refine ⟨fun n hn => ?_, ?_⟩
            · rw [Inflight.increaseReceiveQuota_internal, Inflight.lookup_delete_ne _ hn]
            · rw [Inflight.increaseReceiveQuota_sendQuota]
              exact hdel
          · split
            · refine ⟨fun n hn => i.lookup_put_ne hn, ?_⟩
              exact congrArg Inflight.Quotas.sendQuota (i.put_quotas _)
            · refine ⟨fun n hn => ?_, ?_⟩
              · rw [Inflight.increaseReceiveQuota_internal, Inflight.lookup_delete_ne _ hn]
                exact i.lookup_put_ne hn
              · rw [Inflight.increaseReceiveQuota_sendQuota]
                exact (congrArg Inflight.Quotas.sendQuota (Inflight.delete_quotas _ _)).trans
                  (congrArg Inflight.Quotas.sendQuota (i.put_quotas _))
    refine ⟨?_, hframe.2, ?_, ?_⟩
    · intro n e he ho
      exact (hframe.1 n (ne_of_outbound hu he ho)).trans he
    · simp only [Inbound.packetID, hwithout]
    · simp only [Inbound.packetID, hwithout]

theorem identifierCode_of_inUse (h : inUse i id = true) : identifierCode i id = errPacketIdentifierInUse ∧
      identifierCode (withoutOutbound i id) id = codeSuccess := by
  constructor
  · have hsome : (i.get id).isSome = true := by
      cases hg : i.get id with
      | none => simp [inUse, hg] at h
      | some pk => rfl
    simp [identifierCode, hsome]
  · have hgone : (withoutOutbound i id).get id = none := by
      simp only [withoutOutbound, h, ↓reduceIte]
      exact i.get_delete_self id
    simp [identifierCode, hgone]

theorem filtersAck_ne (type : PacketType) (pk : FilterPacket) (rcs rcs' : List UInt8) :
    filtersAck type pk codeSuccess rcs' ≠ filtersAck type pk errPacketIdentifierInUse rcs := by
  intro h
  have hreason : "" = "packet identifier in use" :=
    congrArg (fun p : Packet => p.properties.reasonString) h
  exact absurd hreason (by decide)

/-- A request that leaves the map alone is independent exactly if it does not see its identifier. -/
theorem independent_iff_of_inflight (b : Broker) {m : Inbound} (writable : Bool)
    (hsame : (b.process i writable m).inflight = i) (hcol : collides b i m = inUse i m.packetID)
    (hne : inUse i m.packetID = true → (b.process i writable m).events ≠
      (b.process (withoutOutbound i m.packetID) writable m).events) :
    Independent b i m writable ↔ collides b i m = false := by
  constructor
  · intro h
    by_contra hc
    exact hne (by simpa [hcol] using hc) h.events
  · intro hc
    have hwithout : withoutOutbound i m.packetID = i := withoutOutbound_of_free (hcol ▸ hc)
    refine ⟨?_, ?_, ?_, ?_⟩
    · intro n e he _
      rw [hsame]
      exact he
    · rw [hsame]
    · rw [hwithout]
    · rw [hwithout]

theorem subscribe_independent_iff (b : Broker) (i : Inflight) (pk : FilterPacket) (writable : Bool) :
    Independent b i (.subscribe pk) writable ↔ collides b i (.subscribe pk) = false := by
  refine independent_iff_of_inflight b writable ?_ rfl ?_
  · simp only [process, processSubscribe]
    split <;> rfl
  · intro hu hevents
    obtain ⟨hin, hout⟩ := identifierCode_of_inUse hu
    simp only [Inbound.packetID] at hin hout
    have hmem : Event.write (filtersAck .suback pk codeSuccess
        ((pk.filters.map (fun sub => (sub, b.subscribeFilter sub))).map (fun r => r.2.1))) ∈
        (b.process i writable (.subscribe pk)).events := by
      rw [hevents]
      simp [process, processSubscribe, Inbound.packetID, hout]
    simp only [process, processSubscribe, hin, ne_eq, show errPacketIdentifierInUse ≠ codeSuccess by decide,
      not_false_eq_true, ↓reduceIte, List.mem_singleton, Event.write.injEq] at hmem
    exact filtersAck_ne _ _ _ _ hmem

theorem unsubscribe_independent_iff (b : Broker) (i : Inflight) (pk : FilterPacket) (writable : Bool) :
    Independent b i (.unsubscribe pk) writable ↔ collides b i (.unsubscribe pk) = false := by
  refine independent_iff_of_inflight b writable ?_ rfl ?_
  · simp only [process, processUnsubscribe]
    split <;> rfl
  · intro hu hevents
    obtain ⟨hin, hout⟩ := identifierCode_of_inUse hu
    simp only [Inbound.packetID] at hin hout
    have hmem : Event.write (filtersAck .unsuback pk codeSuccess (pk.filters.map (fun sub =>
        if b.unsubscribeExisted sub.filter then codeSuccess.code else codeNoSubscriptionExisted.code))) ∈
        (b.process i writable (.unsubscribe pk)).events := by
      rw [hevents]
      simp [process, processUnsubscribe, Inbound.packetID, hout]
    simp only [process, processUnsubscribe, hin, ne_eq, show errPacketIdentifierInUse ≠ codeSuccess by decide,
      not_false_eq_true, ↓reduceIte, List.mem_singleton, Event.write.injEq] at hmem
    exact filtersAck_ne _ _ _ _ hmem

/-- Every entry of an inbound flow stands as before. -/
def InboundKept (i i' : Inflight) : Prop :=
  ∀ n e, i.internal.lookup n = some e → e.pk.inbound = true → i'.internal.lookup n = some e

theorem ne_of_inbound {n : UInt16} {pki : Packet} (hget : i.get id = some pki)
    (hpki : pki.inbound = false) (he : i.internal.lookup n = some e)
    (hin : e.pk.inbound = true) : n ≠ id := by
  rintro rfl
  rw [Inflight.get, he, Option.map_some, Option.some.injEq] at hget
  rw [hget, hpki] at hin
  cases hin

theorem inboundKept_delete {pki : Packet} (hget : i.get id = some pki)
    (hpki : pki.inbound = false) : InboundKept i (i.delete id).1.increaseSendQuota.1 := by
  intro n e he hin
  rw [Inflight.increaseSendQuota_internal, Inflight.lookup_delete_ne _ (ne_of_inbound hget hpki he hin)]
  exact he

private theorem processPuback_inboundKept (i : Inflight) (pk : Packet) :
    InboundKept i (processPuback i pk).inflight := by
  simp only [processPuback]
  split
  · exact fun n e he _ => he
  · rename_i pki hget
    split
    · exact fun n e he _ => he
    · rename_i hcond
      have htype : pki.type = .publish := by
        by_contra hne
        exact hcond (.inl hne)
      exact inboundKept_delete hget (by simp [Packet.inbound, htype])

theorem processPubrec_inboundKept (b : Broker) (i : Inflight) (pk : Packet) (writable : Bool) :
    InboundKept i (b.processPubrec i pk writable).inflight := by
  simp only [processPubrec]
  split
  · exact fun n e he _ => he
  · rename_i pki hget
    split
    · exact fun n e he _ => he
    · rename_i hcond
      have htype : pki.type = .publish := by
        by_contra hne
        exact hcond (.inl hne)
      have hpki : pki.inbound = false := by simp [Packet.inbound, htype]
      split
      · exact inboundKept_delete hget hpki
      · intro n e he hin
        have hn : n ≠ (b.buildAck pk.packetID .pubrel 1 pk.properties codeSuccess).packetID :=
          ne_of_inbound hget hpki he hin
        exact (i.lookup_put_ne hn).trans he

private theorem processPubcomp_inboundKept (i : Inflight) (pk : Packet) :
    InboundKept i (processPubcomp i pk).inflight := by
  simp only [processPubcomp]
  split
  · exact fun n e he _ => he
  · rename_i pki hget
    split
    · exact fun n e he _ => he
    · rename_i hcond
      have htype : pki.type = .pubrel := by
        by_contra hne
        exact hcond hne
      exact inboundKept_delete hget (by simp [Packet.inbound, htype])

/-- A packet of the client is independent of the broker's identifiers exactly when it does
not meet a message of the broker under its own identifier, and the client's
acknowledgements leave inbound flows alone. -/
theorem identifiers_independent_iff (b : Broker) (i : Inflight) (m : Inbound) (hm : m.acknowledged)
    (writable : Bool) : (Independent b i m writable ↔ collides b i m = false) ∧
      ∀ pk, InboundKept i (processPuback i pk).inflight ∧
        InboundKept i (b.processPubrec i pk writable).inflight ∧
        InboundKept i (processPubcomp i pk).inflight := by
  constructor
  · cases m with
    | publish pk =>
      have hq : pk.qos ≠ 0 := by
        rcases hm with hm | hm
        · rw [hm]
          decide
        · rw [hm]
          decide
      exact b.publish_independent_iff i hq writable
    | pubrel pk => exact iff_of_true (b.pubrel_independent i pk writable) rfl
    | subscribe pk => exact b.subscribe_independent_iff i pk writable
    | unsubscribe pk => exact b.unsubscribe_independent_iff i pk writable
  · intro pk
    exact ⟨processPuback_inboundKept i pk, b.processPubrec_inboundKept i pk writable,
      processPubcomp_inboundKept i pk⟩

def allowing : Broker where
  maximumQos := 2
  maximumMessageExpiryInterval := 86400
  noInheritedPropertiesOnAck := false
  obscureNotAuthorized := false
  protocolVersion := 5
  now := 1000
  aliasTopic := fun _ => none
  isValidTopic := fun _ => true
  isValidFilter := fun _ => true
  isSharedFilter := fun _ => false
  onACLCheck := fun _ _ => true
  resolveVirtualPublish := fun t => .ok t
  onPublish := fun _ => .accept
  onSubscribeValidate := fun _ => codeSuccess
  subscribeIsNew := fun _ => true
  unsubscribeExisted := fun _ => true

def message (id : UInt16) (qos : UInt8) (topic : Bytes) : Packet where
  type := .publish
  qos := qos
  dup := false
  retain := false
  packetID := id
  topicName := topic
  payload := []
  reasonCode := 0
  reasonCodes := []
  properties := Properties.none
  protocolVersion := 5
  created := 900
  expiry := 87300

/-- A connection on which the broker sent one QoS 1 message under identifier 1. -/
def sentOne : Inflight :=
  (((newInflights.resetReceiveQuota 10).resetSendQuota 10).setOutbound (message 1 1 [0x61])).1

theorem identifiers_independent_sample : Inbound.acknowledged (.publish (message 2 2 [0x62])) ∧
      (Independent allowing sentOne (.publish (message 2 2 [0x62])) true ↔
        collides allowing sentOne (.publish (message 2 2 [0x62])) = false) ∧
      collides allowing sentOne (.publish (message 2 2 [0x62])) = false :=
  ⟨.inr rfl, (identifiers_independent_iff allowing sentOne (.publish (message 2 2 [0x62])) (.inr rfl) true).1,
    by decide⟩

/-- The client publishes under identifier 1: the broker's own unacknowledged message is gone. -/
theorem publish_removes_outbound : sentOne.get 1 = some (message 1 1 [0x61]) ∧
      (allowing.process sentOne true (.publish (message 1 1 [0x62]))).inflight.get 1 = none ∧
      ¬ Independent allowing sentOne (.publish (message 1 1 [0x62])) true := by
  have hbefore : sentOne.internal.lookup 1 = some ⟨message 1 1 [0x61], 1⟩ := by decide
  have hafter : (allowing.process sentOne true (.publish (message 1 1 [0x62]))).inflight.internal.lookup 1 =
      none := by decide
  refine ⟨by decide, by decide, ?_⟩
  intro h
  have := h.kept 1 _ hbefore (by decide)
  rw [hafter] at this
  cases this

end Broker

end MonsterMQ.Mqtt
