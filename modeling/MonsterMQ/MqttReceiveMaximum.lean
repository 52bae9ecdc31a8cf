import MonsterMQ.MqttOutstanding

/-!
# The client's Receive Maximum

Live deliveries, claims and answers keep the number of unanswered PUBLISH packets below it. `WithinMaximum`
excludes resends without quota, inherited messages on a new connection and the replay without quota.
-/

namespace MonsterMQ.Mqtt

open LittleEndian FiniteMaps Inflight StateRuns List

namespace Conn

section Claims

variable {s : ℤ} {c : Conn}

theorem claimDeferred_budget (hs : 1 ≤ s) (h : Budget s c) (m now : ℤ) : c.claimDeferred m now = (c, none) ∨
      ∃ next : Packet, next.type = .publish ∧ (next.qos = 1 ∨ next.qos = 2) ∧ next.deferred = false ∧
        0 < c.inflight.sendQuota ∧ c.claimDeferred m now = ({ c with
          inflight := { c.inflight.put next with sendQuota := c.inflight.sendQuota - 1 } }, some next) := by
  have hmax : 0 < c.inflight.maximumSendQuota := by
    rw [h.maximum]
    omega
  rcases claimDeferred_cases h.sound.wf hmax m now with ⟨heq, -⟩ | ⟨pk, x, hg, hd, hq, hx, heq⟩
  · exact .inl heq
  · right
    have hpub := h.sound.wf.publish hg hd
    have hqos := h.sound.acknowledged _ pk hg hpub
    refine ⟨{ pk with expiry := x }, hpub, hqos, ?_, hq, ?_⟩
    · simp [Packet.deferred, not_lt.mpr hx]
    · rw [heq, put_sendQuota_comm]

theorem writeNextDeferred_budget (hs : 1 ≤ s) (h : Budget s c) (m now : ℤ) :
    Budget s (c.writeNextDeferred m now) := by
  rcases claimDeferred_budget hs h m now with heq | ⟨next, htype, hqos, hd, hq, heq⟩
  · simp only [writeNextDeferred, heq]
    exact h
  · simp only [writeNextDeferred, heq, writePacket]
    split
    · rename_i hclosed
      exact h.take hqos hd hq hclosed
    · exact h.send htype hqos hd hq

private theorem encodeNextDeferred_budget (hs : 1 ≤ s) (h : Budget s c) (m now : ℤ) :
    Budget s (c.encodeNextDeferred m now) := by
  rcases claimDeferred_budget hs h m now with heq | ⟨next, htype, hqos, hd, hq, heq⟩
  · simp only [encodeNextDeferred, heq]
    exact h
  · simp only [encodeNextDeferred, heq]
    exact (h.send htype hqos hd hq).perm_queue (perm_append_singleton _ _)

/-- The end of `processPacket` after a handler that stays within the budget. -/
theorem finish_budget (hs : 1 ≤ s) {h : Handled} (hb : Budget s { c with inflight := h.inflight })
    (hw : ∀ pk ∈ writes h.events, pk.acknowledged = false) (writable : Bool) (m now : ℤ) :
    Budget s (c.finish h writable m now) := by
  have hd : Budget s (if writable then (writes h.events).foldl enqueue { c with inflight := h.inflight }
      else { c with inflight := h.inflight }) := by
    split
    · exact hb.foldl_enqueue_other _ hw
    · exact hb
  simp only [finish]
  split
  · exact hd.close
  · exact writeNextDeferred_budget hs hd m now

end Claims

section Answers

variable {s : ℤ} {c : Conn} {n : UInt16} {p : Phase}

theorem covered_answer {queue : List Queued} {os os' : List Outstanding} {i i' : Inflight} (n : UInt16)
    (p : Phase) (h : Covered queue os i) (hkeep : ∀ o ∈ os, o.answeredBy n p = false → o ∈ os')
    (hsub : ∀ k pk, i'.get k = some pk → pk.holding = true → i.get k = some pk ∧ (k ≠ n ∨ pk.phase ≠ p)) :
    Covered queue os' i' := by
  intro k pk hg hhold
  obtain ⟨hgi, hne⟩ := hsub k pk hg hhold
  obtain ⟨o, ho, hid, hphase, hrest⟩ := h k pk hgi hhold
  refine ⟨o, hkeep o ho ?_, hid, hphase, hrest⟩
  rcases hne with hne | hne
  · simp [Outstanding.answeredBy, hid, hne]
  · simp [Outstanding.answeredBy, hphase, hne]

theorem answered_keep (h : Budget s c)
    (hno : ∀ pk, c.inflight.get n = some pk → pk.holding = true → pk.phase ≠ p) :
    Budget s { c with outstanding := answered n p c.outstanding } := by
  have hwithin := h.within
  have hle : (answered n p c.outstanding).length ≤ c.outstanding.length := eraseP_sublist.length_le
  refine { h with within := ?_, tagged := h.tagged.answered n p, covered := ?_ }
  · simp only
    omega
  · intro hopen
    refine covered_answer n p (h.covered hopen) (fun o ho hans => ?_) ?_
    · exact (mem_eraseP_of_neg (by simp [hans])).mpr ho
    · intro k pk hg hhold
      refine ⟨hg, ?_⟩
      by_cases hk : k = n
      · subst hk
        exact .inr (hno pk hg hhold)
      · exact .inl hk

private theorem received_keep (h : Budget s c)
    (hno : ∀ pk, c.inflight.get n = some pk → pk.holding = true → pk.phase ≠ .awaitPubrec) :
    Budget s { c with outstanding := received n c.outstanding } := by
  refine { h with within := ?_, tagged := h.tagged.received n, covered := ?_ }
  · simp only [(received_tags n c.outstanding).2]
    exact h.within
  · intro hopen
    refine covered_answer n .awaitPubrec (h.covered hopen)
      (fun o ho hans => mem_received_of_neg ho hans) ?_
    intro k pk hg hhold
    refine ⟨hg, ?_⟩
    by_cases hk : k = n
    · subst hk
      exact .inr (hno pk hg hhold)
    · exact .inl hk

theorem increaseSendQuota_le (i : Inflight) (h : 0 ≤ i.sendQuota) :
    i.increaseSendQuota.1.sendQuota ≤ i.sendQuota + 1 ∧ 0 ≤ i.increaseSendQuota.1.sendQuota ∧
      i.increaseSendQuota.1.maximumSendQuota = i.maximumSendQuota := by
  simp only [increaseSendQuota]
  split
  · exact ⟨(lt_add_one i.sendQuota).le, h, rfl⟩
  · exact ⟨le_rfl, by simp only; omega, rfl⟩

theorem get_increaseSendQuota (i : Inflight) (k : UInt16) : i.increaseSendQuota.1.get k = i.get k := by
  rw [Inflight.get, increaseSendQuota_internal, Inflight.get]

theorem answered_return (h : Budget s c) (hans : ∃ o ∈ c.outstanding, o.answeredBy n p = true) :
    Budget s { c with
      outstanding := answered n p c.outstanding
      inflight := (c.inflight.delete n).1.increaseSendQuota.1 } := by
  have hwithin := h.within
  have hlen := length_answered_lt hans
  have hquota := increaseSendQuota_le (c.inflight.delete n).1 (by rw [delete_sendQuota]; exact h.nonneg)
  rw [delete_sendQuota, delete_maximumSendQuota] at hquota
  refine ⟨(h.sound.delete n).increaseSendQuota, ?_, hquota.2.1, ?_, h.tagged.answered n p, ?_⟩
  · exact hquota.2.2.trans h.maximum
  · simp only
    omega
  · intro hopen
    refine covered_answer n p (h.covered hopen) (fun o ho hno => ?_) ?_
    · exact (mem_eraseP_of_neg (by simp [hno])).mpr ho
    · intro k pk hg hhold
      simp only [get_increaseSendQuota] at hg
      by_cases hk : k = n
      · rw [hk, get_delete_self] at hg
        cases hg
      · rw [get_delete_ne _ hk] at hg
        exact ⟨hg, .inl hk⟩

theorem received_move (h : Budget s c) (hans : ∃ o ∈ c.outstanding, o.answeredBy n .awaitPubrec = true)
    {ack : Packet} (htype : ack.type = .pubrel) (hid : ack.packetID = n) (hd : ack.deferred = false) :
    Budget s { c with outstanding := received n c.outstanding, inflight := c.inflight.put ack } := by
  have hsound : (c.inflight.put ack).Sound := h.sound.put (by simp [hd]) (by simp [htype])
  refine ⟨hsound, ?_, ?_, ?_, h.tagged.received n, ?_⟩
  · simpa using h.maximum
  · simpa using h.nonneg
  · simp only [put_sendQuota, (received_tags n c.outstanding).2]
    exact h.within
  · intro hopen k pk hg hhold
    by_cases hk : k = n
    · subst hk
      have hg' : (c.inflight.put ack).get k = some pk := hg
      rw [← hid, get_put_self, Option.some.injEq] at hg'
      subst hg'
      obtain ⟨o, ho, hoid, hphase, hw⟩ := exists_received hans
      exact ⟨o, ho, hoid, by simp [hphase, Packet.phase, htype], .inl hw⟩
    · have hg' : (c.inflight.put ack).get k = some pk := hg
      rw [get_put_ne _ (hid ▸ hk)] at hg'
      obtain ⟨o, ho, hoid, hrest⟩ := h.covered hopen k pk hg' hhold
      refine ⟨o, mem_received_of_neg ho ?_, hoid, hrest⟩
      simp [Outstanding.answeredBy, hoid, hk]

theorem holding_publish {pk : Packet} (ht : pk.type = .publish) (he : 0 ≤ pk.expiry) : pk.holding = true := by
  simp [Packet.holding, Packet.outbound, Packet.deferred, ht, he]

theorem outbound_cases {pk : Packet} (h : pk.holding = true) :
    (pk.type = .publish ∨ pk.type = .pubrel) ∧ 0 ≤ pk.expiry := by
  simpa [Packet.holding, Packet.outbound, Packet.deferred] using h

theorem processPuback_cases (i : Inflight) (pk : Packet) : writes (Broker.processPuback i pk).events = [] ∧
      (((Broker.processPuback i pk).inflight = i ∧ ∀ pki, i.get pk.packetID = some pki →
          pki.holding = true → pki.phase ≠ .awaitPuback) ∨
        ((Broker.processPuback i pk).inflight = (i.delete pk.packetID).1.increaseSendQuota.1 ∧
          ∃ pki, i.get pk.packetID = some pki ∧ pki.holding = true ∧ pki.phase = .awaitPuback)) := by
  cases hg : i.get pk.packetID with
  | none => simp [Broker.processPuback, hg, writes]
  | some pki =>
    by_cases hcond : pki.type ≠ .publish ∨ pki.qos ≠ 1 ∨ pki.expiry < 0
    · have heq : Broker.processPuback i pk = ⟨i, [], false⟩ := by
        simp only [Broker.processPuback, hg]
        rw [if_pos hcond]
      rw [heq]
      refine ⟨rfl, .inl ⟨rfl, ?_⟩⟩
      rintro pki' ⟨⟩ hhold
      obtain ⟨htype, he⟩ := outbound_cases hhold
      rcases htype with htype | htype
      · have hq : pki.qos ≠ 1 := by
          rcases hcond with ht | hq | hlt
          · exact absurd htype ht
          · exact hq
          · omega
        simp [Packet.phase, htype, firstPhase, hq]
      · simp [Packet.phase, htype]
    · have heq : Broker.processPuback i pk =
          ⟨(i.delete pk.packetID).1.increaseSendQuota.1, [.qosComplete pk], false⟩ := by
        simp only [Broker.processPuback, hg]
        rw [if_neg hcond]
      rw [heq]
      simp only [not_or, not_not, not_lt] at hcond
      refine ⟨rfl, .inr ⟨rfl, pki, rfl, holding_publish hcond.1 hcond.2.2, ?_⟩⟩
      simp [Packet.phase, hcond.1, firstPhase, hcond.2.1]

theorem processPubcomp_cases {i : Inflight} (hwf : i.WF) (pk : Packet) :
    writes (Broker.processPubcomp i pk).events = [] ∧
      (((Broker.processPubcomp i pk).inflight = i ∧ ∀ pki, i.get pk.packetID = some pki →
          pki.holding = true → pki.phase ≠ .awaitPubcomp) ∨
        ((Broker.processPubcomp i pk).inflight = (i.delete pk.packetID).1.increaseSendQuota.1 ∧
          ∃ pki, i.get pk.packetID = some pki ∧ pki.holding = true ∧ pki.phase = .awaitPubcomp)) := by
  cases hg : i.get pk.packetID with
  | none => simp [Broker.processPubcomp, hg, writes]
  | some pki =>
    by_cases hcond : pki.type = .pubrel
    · have heq : Broker.processPubcomp i pk =
          ⟨(i.delete pk.packetID).1.increaseSendQuota.1, [.qosComplete pk], false⟩ := by
        simp [Broker.processPubcomp, hg, hcond]
      have hnd : pki.deferred = false := by
        cases hd : pki.deferred with
        | false => rfl
        | true =>
          have := hwf.publish hg hd
          rw [hcond] at this
          cases this
      rw [heq]
      refine ⟨rfl, .inr ⟨rfl, pki, rfl, ?_, by simp [Packet.phase, hcond]⟩⟩
      simp [Packet.holding, Packet.outbound, hcond, hnd]
    · have heq : Broker.processPubcomp i pk = ⟨i, [], false⟩ := by
        simp [Broker.processPubcomp, hg, hcond]
      rw [heq]
      refine ⟨rfl, .inl ⟨rfl, ?_⟩⟩
      rintro pki' ⟨⟩ _
      simp only [Packet.phase, hcond, ↓reduceIte]
      exact firstPhase_ne pki

theorem processPubrec_cases (b : Broker) {i : Inflight} (hsound : i.Sound) (pk : Packet) (writable : Bool) :
    (∀ m ∈ writes (b.processPubrec i pk writable).events, m.acknowledged = false) ∧
      (((b.processPubrec i pk writable).inflight = i ∧ ∀ pki, i.get pk.packetID = some pki →
          pki.holding = true → pki.phase ≠ .awaitPubrec) ∨
        (∃ pki, i.get pk.packetID = some pki ∧ pki.holding = true ∧ pki.phase = .awaitPubrec ∧
          ((failed pk = true ∧ (b.processPubrec i pk writable).inflight =
              (i.delete pk.packetID).1.increaseSendQuota.1) ∨
            (failed pk = false ∧ (b.processPubrec i pk writable).inflight =
              i.put (b.buildAck pk.packetID .pubrel 1 pk.properties codeSuccess))))) := by
  have hrel : ∀ code, (b.buildAck pk.packetID .pubrel 1 pk.properties code).acknowledged = false := by
    intro code
    simp [Packet.acknowledged, Broker.buildAck]
  cases hg : i.get pk.packetID with
  | none =>
    have heq : b.processPubrec i pk writable =
        ⟨i, [.write (b.buildAck pk.packetID .pubrel 1 pk.properties errPacketIdentifierNotFound)],
          !writable⟩ := by
      simp [Broker.processPubrec, hg]
    rw [heq]
    exact ⟨by simp [writes, hrel], .inl ⟨rfl, fun _ h => by cases h⟩⟩
  | some pki =>
    by_cases hcond : pki.type ≠ .publish ∨ pki.qos ≠ 2 ∨ pki.expiry < 0
    · have heq : b.processPubrec i pk writable =
          ⟨i, [.write (b.buildAck pk.packetID .pubrel 1 pk.properties errPacketIdentifierNotFound)],
            !writable⟩ := by
        simp only [Broker.processPubrec, hg]
        rw [if_pos hcond]
      rw [heq]
      refine ⟨by simp [writes, hrel], .inl ⟨rfl, ?_⟩⟩
      rintro pki' ⟨⟩ hhold
      obtain ⟨htype, he⟩ := outbound_cases hhold
      rcases htype with htype | htype
      · have hq : pki.qos = 1 := by
          rcases hcond with ht | hq | hlt
          · exact absurd htype ht
          · exact (hsound.acknowledged _ pki hg htype).resolve_right hq
          · omega
        simp [Packet.phase, htype, firstPhase, hq]
      · simp [Packet.phase, htype]
    · have heq : b.processPubrec i pk writable = if failed pk then
            ⟨(i.delete pk.packetID).1.increaseSendQuota.1, [.qosDropped pk], false⟩
          else ⟨i.put (b.buildAck pk.packetID .pubrel 1 pk.properties codeSuccess),
            [.write (b.buildAck pk.packetID .pubrel 1 pk.properties codeSuccess)], !writable⟩ := by
        simp only [Broker.processPubrec, hg]
        rw [if_neg hcond]
      simp only [not_or, not_not, not_lt] at hcond
      have hhold := holding_publish hcond.1 hcond.2.2
      have hphase : pki.phase = .awaitPubrec := by
        simp [Packet.phase, hcond.1, firstPhase, hcond.2.1]
      cases hf : failed pk with
      | true =>
        rw [hf] at heq
        rw [heq]
        exact ⟨by simp [writes], .inr ⟨pki, rfl, hhold, hphase, .inl ⟨rfl, rfl⟩⟩⟩
      | false =>
        rw [hf] at heq
        rw [heq]
        exact ⟨by simp [writes, hrel], .inr ⟨pki, rfl, hhold, hphase, .inr ⟨rfl, rfl⟩⟩⟩

end Answers

/-- A handler of an inbound flow: the send quota stays and no message is added. -/
structure Quiet (i i' : Inflight) : Prop where
  wf : i.WF → i'.WF
  sound : i.Sound → i'.Sound
  maximum : i'.maximumSendQuota = i.maximumSendQuota
  sendQuota : i'.sendQuota = i.sendQuota
  entries : ∀ n pk, i'.get n = some pk → pk.holding = true → i.get n = some pk

namespace Quiet

variable {i j k : Inflight}

theorem refl (i : Inflight) : Quiet i i := ⟨id, id, rfl, rfl, fun _ _ h _ => h⟩

theorem trans (h : Quiet i j) (h' : Quiet j k) : Quiet i k := by
  refine ⟨fun hw => h'.wf (h.wf hw), fun hs => h'.sound (h.sound hs), h'.maximum.trans h.maximum,
    h'.sendQuota.trans h.sendQuota, ?_⟩
  intro n pk hg hhold
  exact h.entries n pk (h'.entries n pk hg hhold) hhold

theorem delete (i : Inflight) (n : UInt16) : Quiet i (i.delete n).1 := by
  refine ⟨fun hw => hw.delete n, fun hs => hs.delete n, delete_maximumSendQuota i n,
    delete_sendQuota i n, ?_⟩
  intro m pk hg _
  by_cases hm : m = n
  · rw [hm, get_delete_self] at hg
    cases hg
  · rw [get_delete_ne _ hm] at hg
    exact hg

theorem put (i : Inflight) {m : Packet} (ho : m.outbound = false) (hd : m.deferred = false) :
    Quiet i (i.put m) := by
  have hpub : m.type ≠ .publish := by
    intro ht
    simp [Packet.outbound, ht] at ho
  refine ⟨fun hw => hw.put (by simp [hd]), fun hs => hs.put (by simp [hd]) (fun ht => absurd ht hpub),
    put_maximumSendQuota i m, put_sendQuota i m, ?_⟩
  intro n pk hg hhold
  by_cases hn : n = m.packetID
  · rw [hn, get_put_self, Option.some.injEq] at hg
    rw [← hg, Packet.holding, ho] at hhold
    cases hhold
  · rw [get_put_ne _ hn] at hg
    exact hg

theorem of_receiveQuota (i : Inflight) (x : ℤ) : Quiet i { i with receiveQuota := x } :=
  ⟨fun hw => hw.congr rfl rfl, fun hs => hs.congr rfl rfl, rfl, rfl, fun _ _ h _ => h⟩

theorem increaseReceiveQuota (i : Inflight) : Quiet i i.increaseReceiveQuota.1 := by
  simp only [Inflight.increaseReceiveQuota]
  split
  · exact refl i
  · exact of_receiveQuota i _

theorem budget {s : ℤ} {c : Conn} (h : Budget s c) {i : Inflight} (hq : Quiet c.inflight i) :
    Budget s { c with inflight := i } :=
  h.shrink (hq.sound h.sound) hq.maximum (hq.sendQuota ▸ h.nonneg) hq.sendQuota.le hq.entries

end Quiet

section

variable {b : Broker} (hb : 0 ≤ b.now + b.maximumMessageExpiryInterval)
include hb

theorem hookEffect_quiet {i : Inflight}
    {pk : Packet} {r : Handled × Bool} (h : HookEffect b i pk r) : Quiet i r.1.inflight := by
  have hack : ∀ ack : Packet, ack.type = .pubrec ∨ ack.type = .puback →
      ack.expiry = b.now + b.maximumMessageExpiryInterval → Quiet i (i.put ack) := by
    intro ack htype hexp
    refine Quiet.put i ?_ (by simp [Packet.deferred, hexp, hb])
    rcases htype with htype | htype <;> simp [Packet.outbound, htype]
  cases h with
  | refused inflight _ =>
    rw [inflight]
    exact .refl i
  | received ack type id expiry inflight _ =>
    rw [inflight]
    exact hack ack (.inl type) expiry
  | acknowledged ack type id expiry inflight _ =>
    rw [inflight]
    exact ((hack ack (.inr type) expiry).trans (.delete _ _)).trans (.increaseReceiveQuota _)
  | unsent ack type id expiry inflight _ =>
    rw [inflight]
    exact hack ack (.inr type) expiry

theorem authorizePublish_quiet (i : Inflight)
    (pk : Packet) (writable : Bool) : Quiet i (b.authorizePublish i pk writable).1.inflight := by
  simp only [Broker.authorizePublish]
  split
  · rw [Broker.refusePublish_inflight]
    exact .refl i
  split
  · rw [Broker.refusePublish_inflight]
    exact .refl i
  · simp only [Broker.checkDuplicate]
    split
    · split
      · split
        · exact .refl i
        · exact (Quiet.delete i _).trans (hookEffect_quiet hb (b.hookPublish_effect _ _ _))
      · exact hookEffect_quiet hb (b.hookPublish_effect _ _ _)
    · exact hookEffect_quiet hb (b.hookPublish_effect _ _ _)

theorem processPublish_quiet (i : Inflight)
    (pk : Packet) (writable : Bool) : Quiet i (b.processPublish i pk writable).inflight := by
  have hdec : Quiet i i.decreaseReceiveQuota.1 := by
    simp only [decreaseReceiveQuota]
    split
    · exact .refl i
    · exact .of_receiveQuota i _
  simp only [Broker.processPublish]
  split
  · exact .refl i
  split
  · exact .refl i
  split
  · exact authorizePublish_quiet hb i _ writable
  split
  · exact hdec
  · have hauth := hdec.trans (authorizePublish_quiet hb i.decreaseReceiveQuota.1
      { pk with topicName := (b.aliasTopic pk).getD pk.topicName } writable)
    split
    · exact hauth.trans (.increaseReceiveQuota _)
    · exact hauth

theorem processPubrel_quiet (i : Inflight)
    (pk : Packet) (writable : Bool) : Quiet i (b.processPubrel i pk writable).inflight := by
  have hput : Quiet i (i.put (b.buildAck pk.packetID .pubcomp 0 pk.properties codeSuccess)) :=
    .put i (by simp [Packet.outbound, Broker.buildAck]) (by simp [Packet.deferred, Broker.buildAck, hb])
  simp only [Broker.processPubrel]
  split
  · exact .refl i
  split
  · exact .refl i
  split
  · exact (Quiet.delete i _).trans (.increaseReceiveQuota _)
  split
  · exact hput
  · exact (hput.trans (.delete _ _)).trans (.increaseReceiveQuota _)

end

def WritesAcks (events : List Event) : Prop := ∀ m ∈ writes events, m.acknowledged = false

theorem WritesAcks.append {es es' : List Event} (h : WritesAcks es) (h' : WritesAcks es') :
    WritesAcks (es ++ es') := by
  intro m hm
  rw [writes, filterMap_append, mem_append] at hm
  rcases hm with hm | hm
  · exact h m hm
  · exact h' m hm

theorem writesAcks_ack (b : Broker) (n : UInt16) {t : PacketType} (ht : t ≠ .publish) (q : UInt8)
    (ps : Properties) (code : Code) : WritesAcks [.write (b.buildAck n t q ps code)] := by
  intro m hm
  have : m = b.buildAck n t q ps code := by simpa [writes] using hm
  rw [this]
  simp [Packet.acknowledged, Broker.buildAck, ht]

theorem writesAcks_none {es : List Event} (h : ∀ e ∈ es, ∀ pk, e ≠ .write pk) : WritesAcks es := by
  intro m hm
  obtain ⟨e, he, heq⟩ := mem_filterMap.mp hm
  cases e with
  | write pk => exact absurd rfl (h _ he pk)
  | _ => cases heq

theorem writesAcks_ackPublish (b : Broker) (pk : Packet) (code : Code) :
    WritesAcks [.write (b.ackPublish pk code)] := by
  simp only [Broker.ackPublish]
  split
  · exact writesAcks_ack b _ (by decide) _ _ _
  · exact writesAcks_ack b _ (by decide) _ _ _

theorem refusePublish_writes (b : Broker) (i : Inflight) (pk : Packet) (code : Code) (writable : Bool) :
    WritesAcks (b.refusePublish i pk code writable).events := by
  simp only [Broker.refusePublish]
  split
  · exact writesAcks_none (by simp)
  split
  · exact writesAcks_none (by simp)
  · exact writesAcks_ackPublish b pk code

theorem acceptPublish_writes (b : Broker) (i : Inflight) (pk : Packet) (ignored writable : Bool) :
    WritesAcks (b.acceptPublish i pk ignored writable).1.events := by
  have hretain : WritesAcks (if pk.retain then [Event.retain pk ignored] else []) := by
    split <;> exact writesAcks_none (by simp)
  have hset : WritesAcks (if (i.set (b.ackPublish pk codeSuccess)).2 then
      [Event.qosPublish (b.ackPublish pk codeSuccess)] else []) := by
    split <;> exact writesAcks_none (by simp)
  have hev := (hretain.append hset).append (writesAcks_ackPublish b pk codeSuccess)
  simp only [Broker.acceptPublish]
  split
  · exact hretain.append (writesAcks_none (by simp))
  split
  · exact hev
  split
  · exact hev.append (writesAcks_none (by simp))
  · exact hev.append (writesAcks_none (by simp))

theorem hookPublish_writes (b : Broker) (i : Inflight) (pk : Packet) (writable : Bool) :
    WritesAcks (b.hookPublish i pk writable).1.events := by
  simp only [Broker.hookPublish]
  split
  · exact acceptPublish_writes b i _ _ writable
  · exact acceptPublish_writes b i _ _ writable
  · exact refusePublish_writes b i _ _ writable
  · exact writesAcks_none (by simp)

theorem processPublish_writes (b : Broker) (i : Inflight) (pk : Packet) (writable : Bool) :
    WritesAcks (b.processPublish i pk writable).events := by
  have hauth : ∀ j m, WritesAcks (b.authorizePublish j m writable).1.events := by
    intro j m
    simp only [Broker.authorizePublish]
    split
    · exact refusePublish_writes b j m _ writable
    split
    · exact refusePublish_writes b j m _ writable
    · simp only [Broker.checkDuplicate]
      split
      · split
        · split
          · exact writesAcks_ack b _ (by decide) _ _ _
          · exact hookPublish_writes b _ _ writable
        · exact hookPublish_writes b _ _ writable
      · exact hookPublish_writes b _ _ writable
  simp only [Broker.processPublish]
  split
  · exact writesAcks_none (by simp)
  split
  · exact writesAcks_none (by simp)
  split
  · exact hauth i _
  split
  · exact writesAcks_none (by simp)
  split
  · exact hauth _ _
  · exact hauth _ _

private theorem processPubrel_writes (b : Broker) (i : Inflight) (pk : Packet) (writable : Bool) :
    WritesAcks (b.processPubrel i pk writable).events := by
  have hcomp : ∀ code, WritesAcks [.write (b.buildAck pk.packetID .pubcomp 0 pk.properties code)] :=
    fun code => writesAcks_ack b _ (by decide) _ _ code
  have hdone : WritesAcks [.qosComplete pk] := writesAcks_none (by simp)
  simp only [Broker.processPubrel]
  split
  · exact hcomp _
  split
  · exact hcomp _
  split
  · exact writesAcks_none (by simp)
  split
  · exact hcomp _
  · exact (hcomp codeSuccess).append hdone

section Deliveries

variable {s : ℤ} {c : Conn}

private theorem defer_budget (h : Budget s c) {m : Packet} (hm : m.type = .publish)
    (hqos : m.qos = 1 ∨ m.qos = 2) (hd : m.deferred = true) :
    Budget s { c with inflight := c.inflight.put m } := by
  refine h.shrink (h.sound.put (fun _ => hm) (fun _ => hqos)) (put_maximumSendQuota ..) ?_
    (put_sendQuota ..).le ?_
  · rw [put_sendQuota]
    exact h.nonneg
  · intro n pk hg hhold
    by_cases hn : n = m.packetID
    · rw [hn, get_put_self, Option.some.injEq] at hg
      rw [← hg, Packet.holding, hd, Bool.not_true, Bool.and_false] at hhold
      cases hhold
    · rw [get_put_ne _ hn] at hg
      exact hg

theorem rollback_budget (h : Budget s c) {m : Packet} (hqos : m.qos = 1 ∨ m.qos = 2)
    (hd : m.deferred = false) (hq : 0 < c.inflight.sendQuota) : Budget s { c with
      inflight := (({ c.inflight.put m with sendQuota := c.inflight.sendQuota - 1 } : Inflight).delete
        m.packetID).1.increaseSendQuota.1 } := by
  set j : Inflight := { c.inflight.put m with sendQuota := c.inflight.sendQuota - 1 } with hj
  have hjq : j.sendQuota = c.inflight.sendQuota - 1 := rfl
  have hjm : j.maximumSendQuota = c.inflight.maximumSendQuota := put_maximumSendQuota c.inflight m
  have hsound : j.Sound := (h.sound.put (by simp [hd]) (fun _ => hqos)).congr rfl rfl
  have hquota := increaseSendQuota_le (j.delete m.packetID).1 (by rw [delete_sendQuota]; omega)
  rw [delete_sendQuota, delete_maximumSendQuota] at hquota
  refine h.shrink (hsound.delete _).increaseSendQuota (hquota.2.2.trans hjm) hquota.2.1 (by omega) ?_
  intro n pk hg _
  rw [get_increaseSendQuota] at hg
  by_cases hn : n = m.packetID
  · rw [hn, get_delete_self] at hg
    cases hg
  · rw [get_delete_ne _ hn] at hg
    exact (get_put_ne c.inflight hn).symm.trans hg

theorem sendOutbound_budget (hs : 1 ≤ s) (h : Budget s c) {m : Packet} (hm : m.type = .publish)
    (hqos : m.qos = 1 ∨ m.qos = 2) (hexp : 0 ≤ m.expiry) (pushed : Bool) (mei now : ℤ) :
    Budget s (c.sendOutbound m pushed mei now) := by
  have hmax : c.inflight.maximumSendQuota > 0 := by
    rw [h.maximum]
    omega
  have hd : m.deferred = false := by simp [Packet.deferred, hexp]
  by_cases hq : c.inflight.sendQuota ≤ 0 ∨ c.inflight.deferredCount > 0
  · have hset : c.inflight.setOutbound m = (c.inflight.put { m with expiry := -1 }, true) := by
      simp [setOutbound, hmax, hq]
    have hwait : Budget s { c with inflight := c.inflight.put { m with expiry := -1 } } :=
      defer_budget h hm hqos (by simp [Packet.deferred])
    simp only [sendOutbound, hset, ↓reduceIte]
    split
    · exact hwait
    · exact writeNextDeferred_budget hs hwait mei now
  · have hpos : 0 < c.inflight.sendQuota := by omega
    have hset : c.inflight.setOutbound m =
        ({ c.inflight.put m with sendQuota := c.inflight.sendQuota - 1 }, false) := by
      simp only [setOutbound, hmax, hq, ↓reduceIte, put_sendQuota_comm]
    simp only [sendOutbound, hset, Bool.false_eq_true, ↓reduceIte]
    split
    · rename_i hclosed
      exact h.take hqos hd hpos hclosed
    split
    · exact h.send hm hqos hd hpos
    · exact rollback_budget h hqos hd hpos

theorem min_le_left_uint8 (a b : UInt8) : min a b ≤ a := by
  have hmin : min a b = if a ≤ b then a else b := rfl
  rw [hmin]
  split
  · exact UInt8.le_refl a
  · rename_i hlt
    exact UInt8.le_of_lt (UInt8.not_le.mp hlt)

theorem packetID_budget (h : Budget s c) (n : ℕ) : Budget s { c with packetID := n } :=
  ⟨h.sound, h.maximum, h.nonneg, h.within, h.tagged, h.covered⟩

theorem publishToClient_budget (hs : 1 ≤ s) (h : Budget s c) (o : DeliveryOptions) {pk : Packet}
    (hm : pk.type = .publish) (hqos : pk.qos ≤ 2) (hexp : 0 ≤ pk.expiry) (qos : UInt8)
    (replica pushed : Bool) (now : ℤ) : Budget s (c.publishToClient o pk qos replica pushed now) := by
  simp only [publishToClient]
  split
  · rename_i hzero
    split
    · exact h
    · exact h.enqueue_other (by simp [Packet.acknowledged, hzero])
  rename_i hzero
  split
  · exact h
  split
  · exact h
  split
  · exact h
  split
  · exact h
  · rename_i n _
    have hle : min (min pk.qos qos) o.maximumQos ≤ 2 :=
      UInt8.le_trans (UInt8.le_trans (min_le_left_uint8 _ _) (min_le_left_uint8 _ _)) hqos
    have hq12 : min (min pk.qos qos) o.maximumQos = 1 ∨ min (min pk.qos qos) o.maximumQos = 2 := by
      generalize min (min pk.qos qos) o.maximumQos = q at hzero hle
      have hle' : q.toNat ≤ 2 := UInt8.le_iff_toNat_le.mp hle
      have hne : q.toNat ≠ 0 := fun h0 => hzero (UInt8.toNat_inj.mp h0)
      obtain h1 | h2 : q.toNat = 1 ∨ q.toNat = 2 := by omega
      · exact .inl (UInt8.toNat_inj.mp h1)
      · exact .inr (UInt8.toNat_inj.mp h2)
    refine sendOutbound_budget hs (packetID_budget h n) ?_ ?_ ?_ pushed _ now
    · exact hm
    · exact hq12
    · exact hexp

private theorem replayOutbound_budget (h : Budget s c) {m : Packet} (hm : m.type = .publish)
    (hqos : m.qos = 1 ∨ m.qos = 2) (hexp : 0 ≤ m.expiry) (hfree : c.inflight.get m.packetID = none)
    (hq : 0 < c.inflight.sendQuota) : Budget s (c.replayOutbound m) := by
  have hd : m.deferred = false := by simp [Packet.deferred, hexp]
  have hdec : (c.inflight.put m).decreaseSendQuota.1 =
      { c.inflight.put m with sendQuota := c.inflight.sendQuota - 1 } := by
    simp [decreaseSendQuota, not_le.mpr hq]
  simp only [replayOutbound, Inflight.set, hfree, Option.isNone_none, ↓reduceIte, hdec]
  split
  · exact rollback_budget h hqos hd hq
  · exact h.send hm hqos hd hq

private theorem replay_budget (h : Budget s c) (o : DeliveryOptions) {pk : Packet} (hm : pk.type = .publish)
    (hqos : pk.qos = 1 ∨ pk.qos = 2) (hexp : 0 ≤ pk.expiry) (hq : 0 < c.inflight.sendQuota) :
    Budget s (c.replay o pk) := by
  simp only [replay]
  split
  · exact h
  · rename_i n hnext
    have hfree : c.inflight.get (UInt16.ofNat n) = none := nextPacketID_free hnext
    refine replayOutbound_budget (packetID_budget h n) ?_ ?_ ?_ ?_ hq
    · exact hm
    · exact hqos
    · exact hexp
    · exact hfree

end Deliveries

section Writer

variable {s : ℤ} {c : Conn}

variable {q : Queued}

private theorem mem_eraseIdx_of_ne {queue : List Queued} {k : ℕ} {q' : Queued} (hq : queue[k]? = some q)
    (hq' : q' ∈ queue) (hne : q' ≠ q) : q' ∈ queue.eraseIdx k := by
  obtain ⟨j, hj⟩ := mem_iff_getElem?.mp hq'
  refine mem_eraseIdx_iff_getElem?.mpr ⟨j, ?_, hj⟩
  rintro rfl
  rw [hq, Option.some.injEq] at hj
  exact hne hj.symm

theorem coveredBy_dequeue {queue : List Queued} {k : ℕ} (hq : queue[k]? = some q)
    {n : UInt16} {pk : Packet} {o : Outstanding} (h : CoveredBy queue n pk o)
    (hne : q.pk.acknowledged = false ∨ o.tag ≠ q.tag) : CoveredBy (queue.eraseIdx k) n pk o := by
  obtain ⟨hid, hphase, hw⟩ := h
  refine ⟨hid, hphase, ?_⟩
  rcases hw with hw | ⟨q', hq', hack, htag, hrest⟩
  · exact .inl hw
  · refine .inr ⟨q', mem_eraseIdx_of_ne hq hq' ?_, hack, htag, hrest⟩
    rintro rfl
    rcases hne with hne | hne
    · rw [hne] at hack
      cases hack
    · exact hne htag.symm

private theorem queued_unique (h : Tagged c.queue c.outstanding c.nextTag) (hq : q ∈ c.queue)
    (hack : q.pk.acknowledged = true) {o : Outstanding} (ho : o ∈ c.outstanding) (htag : o.tag = q.tag) :
    o.id = q.pk.packetID ∧ o.written = false := by
  obtain ⟨o', ho', htag', hid, hw⟩ := h.queued q hq hack
  have heq : o = o' := Tagged.eq_of_tag h.outstandingTags ho ho' (htag.trans htag'.symm)
  rw [heq]
  exact ⟨hid, hw⟩

private theorem written_budget (h : Budget s c) {k : ℕ} (hq : c.queue[k]? = some q) :
    Budget s { c with queue := c.queue.eraseIdx k, outstanding := markWritten q.tag c.outstanding } := by
  refine ⟨h.sound, h.maximum, h.nonneg, ?_, h.tagged.written hq, ?_⟩
  · simpa [markWritten] using h.within
  · intro hopen n pk hg hhold
    obtain ⟨o, ho, hcov⟩ := h.covered hopen n pk hg hhold
    by_cases htag : o.tag = q.tag
    · refine ⟨{ o with written := true }, mem_map.mpr ⟨o, ho, by rw [if_pos htag]⟩, hcov.1, hcov.2.1,
        .inl rfl⟩
    · exact ⟨o, mem_map.mpr ⟨o, ho, by rw [if_neg htag]⟩, coveredBy_dequeue hq hcov (.inr htag)⟩

/-- The packet is dropped; what it leaves uncovered is the message under its identifier. -/
theorem unqueued_covered (h : Budget s c) (hopen : c.closed = false) {k : ℕ}
    (hq : c.queue[k]? = some q) (hack : q.pk.acknowledged = true) {n : UInt16} {pk : Packet}
    (hg : c.inflight.get n = some pk) (hhold : pk.holding = true)
    (hne : n ≠ q.pk.packetID ∨ c.matchesEntry q.pk = false) :
    ∃ o ∈ unqueue q.tag c.outstanding, CoveredBy (c.queue.eraseIdx k) n pk o := by
  obtain ⟨o, ho, hcov⟩ := h.covered hopen n pk hg hhold
  have hmem := mem_of_getElem? hq
  have htag : o.tag ≠ q.tag := by
    intro htag
    obtain ⟨hid, hw⟩ := queued_unique h.tagged hmem hack ho htag
    rcases hne with hne | hne
    · exact hne (hcov.1.symm.trans hid)
    · rcases hcov.2.2 with hwr | ⟨q', hq', -, htag', hcreated, htopic⟩
      · rw [hw] at hwr
        cases hwr
      · have heq : q' = q := Tagged.eq_of_tag h.tagged.queueTags hq' hmem (htag'.trans htag)
        have hpub : pk.type = .publish := by
          refine (outbound_cases hhold).1.resolve_right ?_
          intro hrel
          have hphase := hcov.2.1
          rw [Packet.phase, if_pos hrel] at hphase
          exact h.tagged.unwritten o ho hw hphase
        have hn : q.pk.packetID = n := hid.symm.trans hcov.1
        rw [heq] at hcreated htopic
        simp [matchesEntry, hn, hg, hpub, hcreated, htopic] at hne
  refine ⟨o, mem_filter.mpr ⟨ho, by simpa using htag⟩, coveredBy_dequeue hq hcov (.inr htag)⟩

private theorem unqueue_length (h : Budget s c) (hq : q ∈ c.queue) (hack : q.pk.acknowledged = true) :
    (unqueue q.tag c.outstanding).length < c.outstanding.length := by
  obtain ⟨o, ho, htag, -⟩ := h.tagged.queued q hq hack
  rw [← htag]
  exact length_unqueue_lt ho

theorem dropOversize_budget (hs : 1 ≤ s) (h : Budget s c) {k : ℕ} (hq : c.queue[k]? = some q)
    (hack : q.pk.acknowledged = true) (m now : ℤ) : Budget s ({ c with
      queue := c.queue.eraseIdx k
      outstanding := unqueue q.tag c.outstanding }.dropOversize q.pk m now) := by
  have hlen := unqueue_length h (mem_of_getElem? hq) hack
  have hwithin := h.within
  set d : Conn := { c with queue := c.queue.eraseIdx k, outstanding := unqueue q.tag c.outstanding } with hd
  have hmatches : d.matchesEntry q.pk = c.matchesEntry q.pk := rfl
  simp only [dropOversize]
  split
  · have hquota := increaseSendQuota_le (c.inflight.delete q.pk.packetID).1
      (by rw [delete_sendQuota]; exact h.nonneg)
    rw [delete_sendQuota, delete_maximumSendQuota] at hquota
    have hgone : Budget s { d with inflight := (c.inflight.delete q.pk.packetID).1.increaseSendQuota.1 } := by
      refine ⟨(h.sound.delete _).increaseSendQuota, hquota.2.2.trans h.maximum, hquota.2.1, ?_,
        h.tagged.unqueued hq, ?_⟩
      · simp only [hd]
        omega
      · intro hopen n pk hg hhold
        simp only [get_increaseSendQuota] at hg
        by_cases hn : n = q.pk.packetID
        · rw [hn, get_delete_self] at hg
          cases hg
        · rw [get_delete_ne _ hn] at hg
          exact unqueued_covered h hopen hq hack hg hhold (.inl hn)
    split
    · exact encodeNextDeferred_budget hs hgone m now
    · exact hgone
  · rename_i hmatch
    refine ⟨h.sound, h.maximum, h.nonneg, ?_, h.tagged.unqueued hq, ?_⟩
    · simp only [hd]
      omega
    · intro hopen n pk hg hhold
      exact unqueued_covered h hopen hq hack hg hhold (.inr (by simpa [hmatches] using hmatch))

private theorem encode_budget (hs : 1 ≤ s) (h : Budget s c) (k : ℕ) (oversize : Bool) (m now : ℤ) :
    Budget s (c.encode k oversize m now) := by
  simp only [encode]
  split
  · exact h
  · rename_i q hq
    split
    · rename_i hack
      split
      · exact dropOversize_budget hs h hq hack m now
      · exact written_budget h hq
    · rename_i hack
      refine ⟨h.sound, h.maximum, h.nonneg, h.within, h.tagged.dequeue k, ?_⟩
      intro hopen n pk hg hhold
      obtain ⟨o, ho, hcov⟩ := h.covered hopen n pk hg hhold
      exact ⟨o, ho, coveredBy_dequeue hq hcov (.inl (by simpa using hack))⟩

end Writer

section Removals

variable {s : ℤ} {c : Conn}

theorem resend_budget (h : Budget s c) (acl : Bytes → Bool)
    (hacl : c.closed = true ∨ ∀ pk ∈ c.inflight.getAll, pk.type = .publish → acl pk.topicName = false) :
    Budget s (c.resendInflightMessages acl) := by
  have hloop : Budget s (c.resendInflightMessages acl) ∧ (c.resendInflightMessages acl).closed = c.closed := by
    refine resendLoop_keeps (P := fun d => Budget s d ∧ d.closed = c.closed) ?_ ⟨h, rfl⟩
    rintro pk hpk d ⟨hd, hclosed⟩ hwrite
    rw [resendOne]
    split
    · exact ⟨hd, hclosed⟩
    rename_i hpubrec
    split
    · exact ⟨hd.delete _, hclosed⟩
    · rename_i hallow
      have hnot : pk.type ≠ .publish := by
        intro htype
        rcases hacl with hc | hacl
        · have := hwrite (hclosed.trans hc)
          simp_all [resends]
        · exact hallow ⟨htype, by simp [hacl pk hpk htype]⟩
      have henq : Budget s (d.enqueue pk) := hd.enqueue_other (by simp [Packet.acknowledged, hnot])
      simp only [if_neg hnot]
      split
      · exact ⟨henq.delete pk.packetID, hclosed⟩
      · exact ⟨henq, hclosed⟩
  exact hloop.1

private theorem clearExpired_budget (h : Budget s c) (now maximumExpiry : ℤ) :
    Budget s { c with inflight := clearExpiredInflights now maximumExpiry c.inflight } := by
  have hfold : ∀ (pks : List Packet) (j : Inflight), Budget s { c with inflight := j } →
      Budget s { c with inflight := pks.foldl (fun i pk => (i.delete pk.packetID).1) j } := by
    intro pks
    induction pks with
    | nil => exact fun j hj => hj
    | cons pk pks ih => exact fun j hj => ih _ (hj.delete pk.packetID)
  exact hfold _ c.inflight h

end Removals

/-- The map of a new connection, as `inheritClientSession` leaves it: the messages of the old
one with full quotas. -/
@[grind =] def inherited (s r : ℤ) (old : Inflight) : Inflight :=
  if old.len > 0 then
    if r ≠ 0 then (old.clone.resetReceiveQuota r).resetSendQuota s else old.clone
  else (newInflights.resetReceiveQuota r).resetSendQuota s

structure ClientSession where
  conn : Conn
  receiveMaximum : ℤ

inductive SessionStep where
  | on (t : Step)
  | reconnect (s r : ℤ)

@[grind =] def ClientSession.step (st : ClientSession) : SessionStep → ClientSession
  | .on t => { st with conn := st.conn.step t }
  | .reconnect s r =>
    { conn := { fresh s r with inflight := inherited s r st.conn.inflight }
      receiveMaximum := s }

/-- The PUBLISH packets written on the connection and not answered. -/
def ClientSession.unanswered (st : ClientSession) : ℕ := (st.conn.outstanding.filter (·.written)).length

def answers (c : Conn) (n : UInt16) (p : Phase) : Bool :=
  c.outstanding.all (fun o => o.id ≠ n || o.phase ≠ p) || c.outstanding.any (Outstanding.answeredBy n p)

/-- The packets a caller passes, and a client that answers what it was sent. -/
def wellFormedOn (c : Conn) : Step → Bool
  | .publish _ pk _ _ _ _ => pk.type = .publish && pk.qos ≤ 2 && 0 ≤ pk.expiry
  | .replay _ pk => pk.type = .publish && (pk.qos = 1 || pk.qos = 2) && 0 ≤ pk.expiry
  | .inPublish b _ _ => 0 ≤ b.now + b.maximumMessageExpiryInterval
  | .inPubrel b _ _ => 0 ≤ b.now + b.maximumMessageExpiryInterval
  | .inPuback _ pk => c.answers pk.packetID .awaitPuback
  | .inPubrec b pk _ => 0 ≤ b.now + b.maximumMessageExpiryInterval && c.answers pk.packetID .awaitPubrec
  | _ => true

/-- The inputs of a session: as above, and a Receive Maximum of at least one. -/
@[grind =] def ClientSession.wellFormed (st : ClientSession) : SessionStep → Bool
  | .on t => wellFormedOn st.conn t
  | .reconnect s r => 1 ≤ s && r ≠ 0

/-- No PUBLISH is queued without quota: a replay finds quota, a resend meets no PUBLISH the
client may read, and no message that took quota is inherited. -/
@[grind =] def ClientSession.pays (st : ClientSession) : SessionStep → Bool
  | .on (.replay _ _) => 0 < st.conn.inflight.sendQuota
  | .on (.resend acl) =>
    st.conn.closed || st.conn.inflight.getAll.all (fun pk => pk.type ≠ .publish || !acl pk.topicName)
  | .on _ => true
  | .reconnect _ _ => tally Packet.holding st.conn.inflight = 0

def ClientSession.WithinMaximum (st : ClientSession) (t : SessionStep) : Prop :=
  st.wellFormed t = true ∧ st.pays t = true
deriving Decidable

def ClientSession.start (s r : ℤ) : ClientSession := ⟨fresh s r, s⟩

section Runs

variable {s : ℤ} {c : Conn}

theorem answers_written {n : UInt16} {p : Phase} (h : c.answers n p = true) {o : Outstanding}
    (ho : o ∈ c.outstanding) (hid : o.id = n) (hphase : o.phase = p) :
    ∃ o ∈ c.outstanding, o.answeredBy n p = true := by
  simp only [answers, Bool.or_eq_true, all_eq_true, any_eq_true] at h
  rcases h with h | ⟨o', ho', hans⟩
  · have := h o ho
    simp [hid, hphase] at this
  · exact ⟨o', ho', hans⟩

private theorem puback_budget (h : Budget s c) (hopen : c.closed = false) (pk : Packet)
    (hans : c.answers pk.packetID .awaitPuback = true) : Budget s { c with
      outstanding := answered pk.packetID .awaitPuback c.outstanding
      inflight := (Broker.processPuback c.inflight pk).inflight } := by
  rcases (processPuback_cases c.inflight pk).2 with ⟨heq, hno⟩ | ⟨heq, pki, hg, hhold, hphase⟩
  · rw [heq]
    exact answered_keep h hno
  · rw [heq]
    obtain ⟨o, ho, hid, hop, -⟩ := h.covered hopen _ pki hg hhold
    exact answered_return h (answers_written hans ho hid (hop.trans hphase))

theorem pubcomp_budget (h : Budget s c) (hopen : c.closed = false) (pk : Packet) : Budget s { c with
      outstanding := answered pk.packetID .awaitPubcomp c.outstanding
      inflight := (Broker.processPubcomp c.inflight pk).inflight } := by
  rcases (processPubcomp_cases h.sound.wf pk).2 with ⟨heq, hno⟩ | ⟨heq, pki, hg, hhold, hphase⟩
  · rw [heq]
    exact answered_keep h hno
  · rw [heq]
    obtain ⟨o, ho, hid, hop, -⟩ := h.covered hopen _ pki hg hhold
    have hw : o.written = true := by
      cases hw : o.written with
      | true => rfl
      | false => exact absurd (hop.trans hphase) (h.tagged.unwritten o ho hw)
    exact answered_return h ⟨o, ho, by simp [Outstanding.answeredBy, hid, hop, hphase, hw]⟩

theorem pubrec_budget {b : Broker} (hb : 0 ≤ b.now + b.maximumMessageExpiryInterval) (h : Budget s c)
    (hopen : c.closed = false) (pk : Packet) (hans : c.answers pk.packetID .awaitPubrec = true)
    (writable : Bool) : Budget s { c with
      outstanding := if failed pk then answered pk.packetID .awaitPubrec c.outstanding
        else received pk.packetID c.outstanding
      inflight := (b.processPubrec c.inflight pk writable).inflight } := by
  rcases (processPubrec_cases b h.sound pk writable).2 with ⟨heq, hno⟩ | ⟨pki, hg, hhold, hphase, hrest⟩
  · rw [heq]
    split
    · exact answered_keep h hno
    · exact received_keep h hno
  · obtain ⟨o, ho, hid, hop, -⟩ := h.covered hopen _ pki hg hhold
    have hex := answers_written hans ho hid (hop.trans hphase)
    rcases hrest with ⟨hf, heq⟩ | ⟨hf, heq⟩
    · rw [heq, if_pos hf]
      exact answered_return h hex
    · rw [heq, if_neg (by simp [hf])]
      exact received_move h hex rfl rfl (by simp [Packet.deferred, Broker.buildAck, hb])

theorem step_budget (hs : 1 ≤ s) (h : Budget s c) (t : Step) (hwf : wellFormedOn c t = true)
    (hpays : ClientSession.pays ⟨c, s⟩ (.on t) = true) : Budget s (c.step t) := by
  cases t with
  | publish o pk qos replica pushed now =>
    simp only [wellFormedOn, Bool.and_eq_true, decide_eq_true_eq] at hwf
    exact publishToClient_budget hs h o hwf.1.1 hwf.1.2 hwf.2 qos replica pushed now
  | replay o pk =>
    simp only [wellFormedOn, Bool.and_eq_true, Bool.or_eq_true, decide_eq_true_eq] at hwf
    exact replay_budget h o hwf.1.1 hwf.1.2 hwf.2 (by simpa [ClientSession.pays] using hpays)
  | inPublish b pk writable =>
    simp only [wellFormedOn, decide_eq_true_eq] at hwf
    simp only [step]
    split
    · exact h
    · exact finish_budget hs (Quiet.budget h (processPublish_quiet hwf _ pk writable))
        (processPublish_writes b _ pk writable) _ _ _
  | inPubrel b pk writable =>
    simp only [wellFormedOn, decide_eq_true_eq] at hwf
    simp only [step]
    split
    · exact h
    · exact finish_budget hs (Quiet.budget h (processPubrel_quiet hwf _ pk writable))
        (processPubrel_writes b _ pk writable) _ _ _
  | inPuback b pk =>
    simp only [step]
    split
    · exact h
    · rename_i hopen
      refine finish_budget hs (puback_budget h (by simpa using hopen) pk hwf) ?_ _ _ _
      simp [(processPuback_cases c.inflight pk).1]
  | inPubrec b pk writable =>
    simp only [wellFormedOn, Bool.and_eq_true, decide_eq_true_eq] at hwf
    simp only [step]
    split
    · exact h
    · rename_i hopen
      exact finish_budget hs (pubrec_budget hwf.1 h (by simpa using hopen) pk hwf.2 writable)
        (processPubrec_cases b h.sound pk writable).1 _ _ _
  | inPubcomp b pk =>
    simp only [step]
    split
    · exact h
    · rename_i hopen
      refine finish_budget hs (pubcomp_budget h (by simpa using hopen) pk) ?_ _ _ _
      simp [(processPubcomp_cases h.sound.wf pk).1]
  | claim m now => exact writeNextDeferred_budget hs h m now
  | encode k oversize m now => exact encode_budget hs h k oversize m now
  | resend acl =>
    refine resend_budget h acl ?_
    simp only [ClientSession.pays, Bool.or_eq_true, all_eq_true] at hpays
    refine hpays.imp id (fun hall pk hpk htype => ?_)
    simpa [htype] using hall pk hpk
  | clearExpired now maximumExpiry => exact clearExpired_budget h now maximumExpiry
  | close => exact h.close
  | release =>
    simp only [step]
    split
    · exact ⟨h.sound, h.maximum, h.nonneg, h.within, h.tagged, h.covered⟩
    · exact h

theorem tagged_nil : Tagged [] [] 0 := by
  refine ⟨nodup_nil, nodup_nil, ?_, ?_, ?_, ?_⟩
  · exact fun _ h => by cases h
  · exact fun _ h => by cases h
  · exact fun _ h => by cases h
  · exact fun _ h => by cases h

theorem newInflights_sound : newInflights.Sound := by
  have hnone : ∀ n, newInflights.internal.lookup n = none := AList.lookup_empty
  refine ⟨⟨?_, ?_, rfl⟩, ?_⟩
  · intro n e he
    rw [hnone] at he
    cases he
  · intro n e he
    rw [hnone] at he
    cases he
  · intro n pk hg
    rw [Inflight.get, hnone] at hg
    cases hg

theorem fresh_budget {s : ℤ} (hs : 1 ≤ s) (r : ℤ) : Budget s (fresh s r) := by
  refine ⟨newInflights_sound.congr rfl rfl, rfl, ?_, ?_, tagged_nil, ?_⟩
  · exact (by omega : 0 ≤ s)
  · exact (by simp : s + ((0 : ℕ) : ℤ) ≤ s)
  · intro _ n pk hg
    have hnone : newInflights.internal.lookup n = none := AList.lookup_empty n
    have hg' : newInflights.get n = some pk := hg
    rw [Inflight.get, hnone] at hg'
    cases hg'

theorem inherited_budget {s r : ℤ} (hs : 1 ≤ s) (hr : r ≠ 0) {old : Inflight} (hsound : old.Sound)
    (hnone : tally Packet.holding old = 0) : Budget s { fresh s r with inflight := inherited s r old } := by
  simp only [inherited]
  split
  · have hclone : ((old.clone.resetReceiveQuota r).resetSendQuota s).Sound := by
      refine ⟨⟨?_, ?_, rfl⟩, ?_⟩
      · exact hsound.wf.keyed
      · exact hsound.wf.waits
      · exact hsound.acknowledged
    refine ⟨hclone, rfl, ?_, ?_, tagged_nil, ?_⟩
    · exact (by omega : 0 ≤ s)
    · exact (by simp : s + ((0 : ℕ) : ℤ) ≤ s)
    · intro _ n pk hg hhold
      have hpos : 0 < tally Packet.holding old := Balanced.tally_pos hg hhold
      omega
  · exact fresh_budget hs r

structure SessionBudget (st : ClientSession) : Prop where
  positive : 1 ≤ st.receiveMaximum
  budget : Budget st.receiveMaximum st.conn

private theorem session_step_budget (st : ClientSession) (t : SessionStep) (h : SessionBudget st)
    (ht : st.WithinMaximum t) : SessionBudget (st.step t) := by
  obtain ⟨hwf, hpays⟩ := ht
  cases t with
  | on t => exact ⟨h.positive, step_budget h.positive h.budget t hwf hpays⟩
  | reconnect s r =>
    simp only [ClientSession.wellFormed, Bool.and_eq_true, decide_eq_true_eq] at hwf
    simp only [ClientSession.pays, decide_eq_true_eq] at hpays
    exact ⟨hwf.1, inherited_budget hwf.1 hwf.2 h.budget.sound hpays⟩

end Runs

/-- In every session whose steps queue no PUBLISH without quota, the client never has more
unanswered PUBLISH packets than its Receive Maximum. -/
theorem run_receiveMaximum_respected {s : ℤ} (hs : 1 ≤ s) (r : ℤ) (ts : List SessionStep)
    (h : Along ClientSession.step ClientSession.WithinMaximum (ClientSession.start s r) ts) :
    ((run ClientSession.step (ClientSession.start s r) ts).unanswered : ℤ) ≤
      (run ClientSession.step (ClientSession.start s r) ts).receiveMaximum := by
  have hstart : SessionBudget (ClientSession.start s r) := ⟨hs, fresh_budget hs r⟩
  have hend := run_invariant session_step_budget hstart h
  generalize run ClientSession.step (ClientSession.start s r) ts = st at hend
  have hwithin := hend.budget.within
  have hnonneg := hend.budget.nonneg
  have hle : st.unanswered ≤ st.conn.outstanding.length := length_filter_le ..
  omega

/-- Two live deliveries to a client with Receive Maximum 1, the answer to the first, and a
new connection after the second was answered. -/
def answeredSession : List SessionStep :=
  [.on (.publish defaults (Broker.message 0 1 [0x61]) 1 false true 1000),
    .on (.publish defaults (Broker.message 0 1 [0x62]) 1 false true 1000),
    .on (.encode 0 false 86400 1000),
    .on (.inPuback Broker.allowing (Broker.message 1 1 [])),
    .on (.encode 0 false 86400 1000),
    .on (.inPuback Broker.allowing (Broker.message 2 1 [])),
    .on .close,
    .reconnect 1 10,
    .on (.resend (fun _ => true)),
    .on (.publish defaults (Broker.message 0 2 [0x63]) 2 false true 1000),
    .on (.encode 0 false 86400 1000)]

theorem run_receiveMaximum_respected_answeredSession : (1 : ℤ) ≤ 1 ∧
      Along ClientSession.step ClientSession.WithinMaximum (ClientSession.start 1 10) answeredSession ∧
      ((run ClientSession.step (ClientSession.start 1 10) answeredSession).unanswered : ℤ) ≤
        (run ClientSession.step (ClientSession.start 1 10) answeredSession).receiveMaximum := by
  have h : Along ClientSession.step ClientSession.WithinMaximum (ClientSession.start 1 10)
      answeredSession := by decide +kernel
  exact ⟨le_rfl, h, run_receiveMaximum_respected le_rfl 10 answeredSession h⟩

/-- An unacknowledged message is resent on a connection that starts with full quota, and a
live delivery takes that quota. -/
theorem resend_exceeds_receiveMaximum : ∃ ts : List SessionStep,
      Along ClientSession.step (fun st t => st.wellFormed t = true) (ClientSession.start 1 10) ts ∧
      (run ClientSession.step (ClientSession.start 1 10) ts).receiveMaximum = 1 ∧
      (run ClientSession.step (ClientSession.start 1 10) ts).unanswered = 2 := by
  refine ⟨[.on (.publish defaults (Broker.message 0 1 [0x61]) 1 false true 1000),
    .on .close,
    .reconnect 1 10,
    .on (.resend (fun _ => true)),
    .on (.publish defaults (Broker.message 0 1 [0x62]) 1 false true 1000),
    .on (.encode 0 false 86400 1000),
    .on (.encode 0 false 86400 1000)], ?_, ?_, ?_⟩
  · decide
  · decide
  · decide +kernel

end Conn

end MonsterMQ.Mqtt
