import MonsterMQ.MqttQuota
import MonsterMQ.StateRuns

/-!
# Conservation of the quotas

A message that holds quota must leave the map through a path that returns it. `Returning` excludes the steps
that have no such path: an inbound PUBLISH, the expiry, a denied resend, the replay and an oversize packet
that took no quota.
-/

namespace MonsterMQ.Mqtt

open LittleEndian FiniteMaps Inflight StateRuns List

/-- An inbound flow whose PUBCOMP was not written. -/
@[grind =] def Packet.unreported (pk : Packet) : Bool := pk.type = .pubcomp

namespace Inflight

theorem tally_delete_le (p : Packet → Bool) (i : Inflight) (n : UInt16) :
    tally p (i.delete n).1 ≤ tally p i := by
  have := tally_delete p i n
  omega

theorem tally_put_le {p : Packet → Bool} (i : Inflight) {m : Packet} (hm : p m = false) :
    tally p (i.put m) ≤ tally p i := by
  have := tally_put p i m
  rw [weight_some, hm] at this
  simp only [Bool.false_eq_true, ↓reduceIte, add_zero] at this
  omega

theorem tally_congr (p : Packet → Bool) {i j : Inflight} (h : j.internal = i.internal) :
    tally p j = tally p i := by
  rw [tally, tally, h]

end Inflight

namespace Conn

@[simp] theorem enqueue_inflight (c : Conn) (pk : Packet) : (c.enqueue pk).inflight = c.inflight := rfl

@[simp] theorem enqueue_closed (c : Conn) (pk : Packet) : (c.enqueue pk).closed = c.closed := rfl

@[simp] theorem writePacket_inflight (c : Conn) (pk : Packet) : (c.writePacket pk).inflight = c.inflight := by
  simp only [writePacket]
  split <;> rfl

@[simp] theorem writePacket_closed (c : Conn) (pk : Packet) : (c.writePacket pk).closed = c.closed := by
  simp only [writePacket]
  split <;> rfl

theorem foldl_enqueue (pks : List Packet) (c : Conn) :
    (pks.foldl enqueue c).inflight = c.inflight ∧ (pks.foldl enqueue c).closed = c.closed := by
  induction pks generalizing c with
  | nil => exact ⟨rfl, rfl⟩
  | cons pk pks ih => exact ih (c.enqueue pk)

/-- A claim fails without a waiting message or without quota, and otherwise moves one
message on. -/
theorem claimDeferred_cases {c : Conn} (h : c.inflight.WF) (hmax : 0 < c.inflight.maximumSendQuota)
    (m now : ℤ) : (c.claimDeferred m now = (c, none) ∧
        (tally Packet.deferred c.inflight = 0 ∨ c.inflight.sendQuota ≤ 0)) ∨
      ∃ pk x, c.inflight.get pk.packetID = some pk ∧ pk.deferred = true ∧ 0 < c.inflight.sendQuota ∧
        0 ≤ x ∧ c.claimDeferred m now =
          ({ c with inflight :=
              { c.inflight with sendQuota := c.inflight.sendQuota - 1 }.put { pk with expiry := x } },
            some { pk with expiry := x }) := by
  cases hd : c.inflight.hasDeferred with
  | false =>
    left
    have hcount := h.counted
    have hle : c.inflight.deferredCount ≤ 0 := by simpa [hasDeferred] using hd
    exact ⟨by simp [claimDeferred, hd], .inl (by omega)⟩
  | true =>
    rcases claimNextImmediate_cases h hmax (claimExpiry m now) with ⟨heq, hor⟩ | ⟨pk, x, hg, hdef, hq, hx, heq⟩
    · left
      exact ⟨by simp [claimDeferred, hd, heq], hor⟩
    · right
      exact ⟨pk, x, hg, hdef, hq, hx, by simp [claimDeferred, hd, heq]⟩

theorem claimDeferred_balanced {s r : ℤ} (hs : 1 ≤ s) {c : Conn} (h : Balanced s r 1 c.inflight) (m now : ℤ) :
    Balanced s r 0 (c.claimDeferred m now).1.inflight ∧
      tally Packet.unreported (c.claimDeferred m now).1.inflight ≤ tally Packet.unreported c.inflight ∧
      (c.claimDeferred m now).1.closed = c.closed := by
  have hmax : 0 < c.inflight.maximumSendQuota := by
    rw [h.maximumSend]
    omega
  rcases claimDeferred_cases h.wf hmax m now with ⟨heq, hor⟩ | ⟨pk, x, hg, hd, hq, hx, heq⟩
  · rw [heq]
    refine ⟨{ h with waits := ?_ }, le_rfl, rfl⟩
    intro hpos
    rcases hor with hzero | hzero
    · exact absurd hzero hpos.ne'
    · exact hzero
  · rw [heq]
    refine ⟨h.claim hg hd hq hx, ?_, rfl⟩
    exact tally_put_le _ (by simp [Packet.unreported, h.wf.publish hg hd])

theorem writeNextDeferred_eq (c : Conn) (m now : ℤ) :
    (c.writeNextDeferred m now).inflight = (c.claimDeferred m now).1.inflight ∧
      (c.writeNextDeferred m now).closed = (c.claimDeferred m now).1.closed := by
  simp only [writeNextDeferred]
  split
  · rename_i c' pk heq
    rw [heq]
    exact ⟨writePacket_inflight c' pk, writePacket_closed c' pk⟩
  · rename_i c' heq
    rw [heq]
    exact ⟨rfl, rfl⟩

theorem encodeNextDeferred_eq (c : Conn) (m now : ℤ) :
    (c.encodeNextDeferred m now).inflight = (c.claimDeferred m now).1.inflight ∧
      (c.encodeNextDeferred m now).closed = (c.claimDeferred m now).1.closed := by
  simp only [encodeNextDeferred]
  split
  · rename_i c' pk heq
    rw [heq]
    exact ⟨rfl, rfl⟩
  · rename_i c' heq
    rw [heq]
    exact ⟨rfl, rfl⟩

structure Conserving (s r : ℤ) (c : Conn) : Prop where
  balanced : Balanced s r 0 c.inflight
  reported : c.closed = false → tally Packet.unreported c.inflight = 0

theorem claim_conserving {s r : ℤ} (hs : 1 ≤ s) {c d : Conn} (h : Balanced s r 1 c.inflight)
    (hu : c.closed = false → tally Packet.unreported c.inflight = 0) {m now : ℤ}
    (hd : d.inflight = (c.claimDeferred m now).1.inflight ∧ d.closed = (c.claimDeferred m now).1.closed) :
    Conserving s r d := by
  obtain ⟨hinf, hclosed⟩ := hd
  obtain ⟨hb, hle, hsame⟩ := claimDeferred_balanced hs h m now
  refine ⟨?_, ?_⟩
  · rw [hinf]
    exact hb
  · intro hopen
    rw [hclosed, hsame] at hopen
    have := hu hopen
    rw [hinf]
    omega

theorem writeNextDeferred_conserving {s r : ℤ} (hs : 1 ≤ s) {c : Conn} (h : Balanced s r 1 c.inflight)
    (hu : c.closed = false → tally Packet.unreported c.inflight = 0) (m now : ℤ) :
    Conserving s r (c.writeNextDeferred m now) :=
  claim_conserving hs h hu (c.writeNextDeferred_eq m now)

/-- A handler that failed leaves nothing to claim; one that succeeded frees at most one unit. -/
structure Settles (s r : ℤ) (h : Handled) : Prop where
  balanced : Balanced s r (if h.err then 0 else 1) h.inflight
  reported : h.err = false → tally Packet.unreported h.inflight = 0

theorem finish_conserving {s r : ℤ} (hs : 1 ≤ s) (c : Conn) {h : Handled} (hh : Settles s r h)
    (writable : Bool) (m now : ℤ) : Conserving s r (c.finish h writable m now) := by
  have hinf : ∀ d : Conn, d.inflight = h.inflight →
      (if writable then (writes h.events).foldl enqueue d else d).inflight = h.inflight := by
    intro d hd
    split
    · rw [(foldl_enqueue _ d).1, hd]
    · exact hd
  have hd := hinf { c with inflight := h.inflight } rfl
  obtain ⟨hb, hr⟩ := hh
  simp only [finish]
  generalize (if writable then (writes h.events).foldl enqueue { c with inflight := h.inflight }
    else { c with inflight := h.inflight }) = d at hd
  cases herr : h.err with
  | true =>
    rw [herr] at hb
    refine ⟨?_, fun hclosed => by cases hclosed⟩
    simpa [hd] using hb
  | false =>
    rw [herr] at hb
    refine writeNextDeferred_conserving hs ?_ ?_ m now
    · simpa [hd] using hb
    · intro _
      rw [hd]
      exact hr herr

section Handlers

variable {s r : ℤ} {i : Inflight}

section

variable (h : Balanced s r 0 i)
include h

theorem settles_same (hu : tally Packet.unreported i = 0) (events : List Event)
    (err : Bool) : Settles s r ⟨i, events, err⟩ := by
  refine ⟨?_, fun _ => hu⟩
  cases err with
  | true => exact h
  | false => exact h.mono

theorem settles_delete_holding (hu : tally Packet.unreported i = 0) {n : UInt16}
    {pki : Packet} (hg : i.get n = some pki) (hp : pki.holding = true) (events : List Event) :
    Settles s r ⟨(i.delete n).1.increaseSendQuota.1, events, false⟩ := by
  refine ⟨(h.delete_holding hg hp).1, ?_⟩
  intro _
  have hle := tally_delete_le Packet.unreported i n
  rw [tally_congr _ (increaseSendQuota_internal _)]
  omega

private theorem processPuback_settles (hu : tally Packet.unreported i = 0) (pk : Packet) :
    Settles s r (Broker.processPuback i pk) := by
  simp only [Broker.processPuback]
  split
  · exact settles_same h hu _ _
  · rename_i pki hg
    split
    · exact settles_same h hu _ _
    · rename_i hcond
      simp only [not_or, not_not, not_lt] at hcond
      refine settles_delete_holding h hu hg ?_ _
      simp [Packet.holding, Packet.outbound, Packet.deferred, hcond.1, hcond.2.2]

private theorem processPubcomp_settles (hu : tally Packet.unreported i = 0) (pk : Packet) :
    Settles s r (Broker.processPubcomp i pk) := by
  simp only [Broker.processPubcomp]
  split
  · exact settles_same h hu _ _
  · rename_i pki hg
    split
    · exact settles_same h hu _ _
    · rename_i hcond
      rw [not_not] at hcond
      refine settles_delete_holding h hu hg ?_ _
      have hnd : pki.deferred = false := by
        cases hd : pki.deferred with
        | false => rfl
        | true =>
          have := h.wf.publish hg hd
          rw [hcond] at this
          cases this
      simp [Packet.holding, Packet.outbound, hcond, hnd]

end

variable {b : Broker}

theorem processPubrec_settles (hb : 0 ≤ b.now + b.maximumMessageExpiryInterval)
    (h : Balanced s r 0 i) (hu : tally Packet.unreported i = 0) (pk : Packet) (writable : Bool) :
    Settles s r (b.processPubrec i pk writable) := by
  simp only [Broker.processPubrec]
  split
  · exact settles_same h hu _ _
  · rename_i pki hg
    split
    · exact settles_same h hu _ _
    · rename_i hcond
      simp only [not_or, not_not, not_lt] at hcond
      have hp : pki.holding = true := by
        simp [Packet.holding, Packet.outbound, Packet.deferred, hcond.1, hcond.2.2]
      split
      · exact settles_delete_holding h hu hg hp _
      · have hbalanced : Balanced s r 0 (i.put (b.buildAck pk.packetID .pubrel 1 pk.properties codeSuccess)) := by
          refine h.put_same hg ?_ ?_ ?_
          · rw [hp]
            simp [Packet.holding, Packet.outbound, Packet.deferred, Broker.buildAck, hb]
          · simp [Packet.inbound, Broker.buildAck, hcond.1]
          · simp [Packet.deferred, Broker.buildAck, hb]
        refine settles_same hbalanced ?_ _ _
        have hle : tally Packet.unreported
            (i.put (b.buildAck pk.packetID .pubrel 1 pk.properties codeSuccess)) ≤
            tally Packet.unreported i := tally_put_le i (by simp [Packet.unreported, Broker.buildAck])
        omega

theorem processPubrel_settles (hb : 0 ≤ b.now + b.maximumMessageExpiryInterval)
    (h : Balanced s r 0 i) (hu : tally Packet.unreported i = 0) (pk : Packet) (writable : Bool) :
    Settles s r (b.processPubrel i pk writable) := by
  simp only [Broker.processPubrel]
  split
  · exact settles_same h hu _ _
  · rename_i pki hg
    split
    · exact settles_same h hu _ _
    · rename_i hcond
      rw [not_not] at hcond
      have hin : pki.inbound = true := by simp [Packet.inbound, hcond]
      split
      · refine ⟨(h.delete_inbound hg hin).mono, ?_⟩
        intro _
        have hle := tally_delete_le Packet.unreported i pk.packetID
        rw [tally_congr _ (increaseReceiveQuota_internal _)]
        omega
      · -- the PUBCOMP takes the place of the PUBREC until it is written
        set ack := b.buildAck pk.packetID .pubcomp 0 pk.properties codeSuccess with hack
        have hid : ack.packetID = pk.packetID := rfl
        have hackin : ack.inbound = true := by simp [hack, Packet.inbound, Broker.buildAck]
        have hackhold : ack.holding = false := by
          simp [hack, Packet.holding, Packet.outbound, Broker.buildAck]
        have hput : Balanced s r 0 (i.put ack) := by
          refine h.put_same hg ?_ ?_ ?_
          · rw [hackhold]
            simp [Packet.holding, Packet.outbound, hcond]
          · rw [hackin, hin]
          · simp [hack, Packet.deferred, Broker.buildAck, hb]
        split
        · exact ⟨hput, fun herr => by cases herr⟩
        · have hself : (i.put ack).get pk.packetID = some ack := i.get_put_self ack
          refine ⟨(hput.delete_inbound hself hackin).mono, ?_⟩
          intro _
          have hdel := tally_delete Packet.unreported (i.put ack) pk.packetID
          have htally := tally_put Packet.unreported i ack
          rw [hid, hg, weight_some, weight_some] at htally
          rw [hself, weight_some] at hdel
          rw [tally_congr _ (increaseReceiveQuota_internal _)]
          omega

theorem increaseReceiveQuota_back (h : i.receiveQuota ≤ i.maximumReceiveQuota) :
    ({ i with receiveQuota := i.receiveQuota - 1 } : Inflight).increaseReceiveQuota.1 = i := by
  have hlt : ¬ i.maximumReceiveQuota ≤ i.receiveQuota - 1 := by omega
  simp [increaseReceiveQuota, hlt]

variable {pk : Packet}

private theorem authorizePublish_zero (b : Broker) (i : Inflight) (hq : pk.qos = 0) (writable : Bool) :
    (b.authorizePublish i pk writable).1.inflight = i := by
  simp only [Broker.authorizePublish]
  split
  · exact b.refusePublish_inflight i pk _ writable
  · split
    · exact b.refusePublish_inflight i pk _ writable
    · simp only [Broker.checkDuplicate, Broker.stampPublish, hq, gt_iff_lt, ↓reduceIte,
        Broker.hookPublish, UInt8.not_lt_zero]
      split
      · simp [Broker.acceptPublish]
      · simp [Broker.acceptPublish]
      · exact b.refusePublish_inflight i _ _ writable
      · rfl

private theorem processPublish_unchanged (hq : pk.qos ≠ 0)
    (h : b.reachesCheck i pk = false) (hmax : i.receiveQuota ≤ i.maximumReceiveQuota) (writable : Bool) :
    (b.processPublish i pk writable).inflight = i := by
  rcases Broker.processPublish_early hq h writable with ⟨events, err, heq⟩ | ⟨pk', code, heq⟩
  · rw [heq i rfl]
  · simp [heq i rfl, Broker.settleQuota, Broker.refusePublish_inflight, increaseReceiveQuota_back hmax]

private theorem delete_receiveQuota_comm (i : Inflight) (x : ℤ) (n : UInt16) :
    (({ i with receiveQuota := x } : Inflight).delete n).1 = { (i.delete n).1 with receiveQuota := x } := by
  simp only [delete]
  split <;> rfl

theorem put_free {m : Packet} (hg : i.get m.packetID = none) (hd : m.deferred = false)
    (hh : m.holding = false) : tally Packet.holding (i.put m) = tally Packet.holding i ∧
      tally Packet.deferred (i.put m) = tally Packet.deferred i ∧
      tally Packet.inbound (i.put m) = tally Packet.inbound i + weight Packet.inbound (some m) := by
  have hold := tally_put Packet.holding i m
  have hin := tally_put Packet.inbound i m
  have hdef := tally_put Packet.deferred i m
  rw [hg, weight_none] at hold hin hdef
  rw [weight_some, hh] at hold
  rw [weight_some, hd] at hdef
  simp only [Bool.false_eq_true, ↓reduceIte, add_zero] at hold hdef
  exact ⟨hold, hdef, by omega⟩

/-- What stands behind the duplicate check keeps the balance: the unit reserved for the
PUBLISH goes to its PUBREC or comes back. -/
theorem hookEffect_balanced (hb : 0 ≤ b.now + b.maximumMessageExpiryInterval)
    (h : Balanced s r 0 i) (hu : tally Packet.unreported i = 0) (hq : 0 < i.receiveQuota)
    (hg : i.get pk.packetID = none) {res : Handled × Bool}
    (heff : HookEffect b { i with receiveQuota := i.receiveQuota - 1 } pk res) :
    Balanced s r 0 (Broker.settleQuota res).inflight ∧
      tally Packet.unreported (Broker.settleQuota res).inflight = 0 := by
  have hmax : i.receiveQuota ≤ i.maximumReceiveQuota := by
    have := h.receive
    rw [h.maximumReceive]
    omega
  set d : Inflight := { i with receiveQuota := i.receiveQuota - 1 } with hd
  have htally : ∀ p, tally p d = tally p i := fun _ => rfl
  have hwf : d.WF := h.wf.congr rfl rfl
  have hgd : d.get pk.packetID = none := hg
  have hsend := h.send
  have hrecv := h.receive
  have hdrq : d.receiveQuota = i.receiveQuota - 1 := rfl
  have hdsq : d.sendQuota = i.sendQuota := rfl
  have hdmax : d.maximumReceiveQuota = i.maximumReceiveQuota := rfl
  have hun : ∀ {ack : Packet}, ack.type = .pubrec ∨ ack.type = .puback →
      tally Packet.unreported (d.put ack) = 0 := by
    intro ack htype
    have hno : ack.unreported = false := by
      rcases htype with htype | htype <;> simp [Packet.unreported, htype]
    have := tally_put_le d hno
    rw [htally, hu] at this
    omega
  cases heff with
  | refused inflight reserved =>
    simp only [Broker.settleQuota, reserved, inflight, ↓reduceIte]
    rw [increaseReceiveQuota_back hmax]
    exact ⟨h, hu⟩
  | received ack type id expiry inflight reserved =>
    simp only [Broker.settleQuota, reserved, inflight, Bool.false_eq_true, ↓reduceIte]
    have hnd : ack.deferred = false := by simp [Packet.deferred, expiry, hb]
    have hnh : ack.holding = false := by simp [Packet.holding, Packet.outbound, type]
    have hin : ack.inbound = true := by simp [Packet.inbound, type]
    obtain ⟨hold, hdef, hinb⟩ := put_free (id ▸ hgd) hnd hnh
    rw [weight_some, hin] at hinb
    simp only [htally, ↓reduceIte] at hold hdef hinb
    refine ⟨⟨hwf.put (by simp [hnd]), ?_, ?_, ?_, ?_, ?_, ?_, ?_⟩, hun (.inl type)⟩
    · rw [put_maximumSendQuota]
      exact h.maximumSend
    · rw [put_maximumReceiveQuota]
      exact h.maximumReceive
    · rw [put_sendQuota]
      omega
    · rw [put_receiveQuota]
      omega
    · rw [put_sendQuota]
      exact h.sendNonneg
    · rw [put_receiveQuota]
      omega
    · rw [put_sendQuota, hdef]
      exact h.waits
  | acknowledged ack type id expiry inflight reserved =>
    simp only [Broker.settleQuota, reserved, inflight, Bool.false_eq_true, ↓reduceIte]
    have hself : (d.put ack).get pk.packetID = some ack := id ▸ d.get_put_self ack
    have hnone : d.get ack.packetID = none := id ▸ hgd
    have hround : ∀ p, tally p ((d.put ack).delete pk.packetID).1 = tally p i := by
      intro p
      have hput := tally_put p d ack
      have hdel := tally_delete p (d.put ack) pk.packetID
      rw [hnone, weight_none] at hput
      rw [hself] at hdel
      rw [htally] at hput
      omega
    have hback : ((d.put ack).delete pk.packetID).1.receiveQuota <
        ((d.put ack).delete pk.packetID).1.maximumReceiveQuota := by
      rw [delete_receiveQuota, put_receiveQuota, delete_maximumReceiveQuota, put_maximumReceiveQuota]
      omega
    have hnd : ack.deferred = false := by simp [Packet.deferred, expiry, hb]
    have hwf' : ((d.put ack).delete pk.packetID).1.WF := (hwf.put (by simp [hnd])).delete _
    rw [increaseReceiveQuota_of_lt hback]
    refine ⟨Balanced.requota hwf' rfl rfl ?_ ?_ ?_ ?_ ?_ ?_ ?_, ?_⟩
    · simpa using h.maximumSend
    · simpa using h.maximumReceive
    · simp only [delete_sendQuota, put_sendQuota, hround]
      exact hsend
    · simp only [delete_receiveQuota, put_receiveQuota, hround]
      omega
    · simpa using h.sendNonneg
    · simp only [delete_receiveQuota, put_receiveQuota]
      omega
    · simp only [delete_sendQuota, put_sendQuota, hround]
      exact h.waits
    · exact (hround _).trans hu
  | unsent ack type id expiry inflight reserved =>
    simp only [Broker.settleQuota, reserved, inflight, ↓reduceIte]
    have hnd : ack.deferred = false := by simp [Packet.deferred, expiry, hb]
    have hnh : ack.holding = false := by simp [Packet.holding, Packet.outbound, type]
    have hin : ack.inbound = false := by simp [Packet.inbound, type]
    obtain ⟨hold, hdef, hinb⟩ := put_free (id ▸ hgd) hnd hnh
    rw [weight_some, hin] at hinb
    simp only [htally, Bool.false_eq_true, ↓reduceIte, add_zero] at hold hdef hinb
    have hback : (d.put ack).receiveQuota < (d.put ack).maximumReceiveQuota := by
      rw [put_receiveQuota, put_maximumReceiveQuota]
      omega
    rw [increaseReceiveQuota_of_lt hback]
    refine ⟨Balanced.requota (hwf.put (by simp [hnd])) rfl rfl ?_ ?_ ?_ ?_ ?_ ?_ ?_, hun (.inr type)⟩
    · simpa using h.maximumSend
    · simpa using h.maximumReceive
    · simp only [put_sendQuota]
      omega
    · simp only [put_receiveQuota]
      omega
    · simpa using h.sendNonneg
    · simp only [put_receiveQuota]
      omega
    · simp only [put_sendQuota]
      rw [hdef]
      exact h.waits

theorem settles_of_balanced {h : Handled} (hb : Balanced s r 0 h.inflight)
    (hu : tally Packet.unreported h.inflight = 0) : Settles s r h :=
  settles_same hb hu h.events h.err

theorem settles_of_eq {h : Handled} (hsame : h.inflight = i) (hb : Balanced s r 0 i)
    (hu : tally Packet.unreported i = 0) : Settles s r h := by
  subst hsame
  exact settles_of_balanced hb hu

/-- A PUBLISH of the client keeps the balance unless it deletes a message that holds quota. -/
theorem processPublish_settles (hb : 0 ≤ b.now + b.maximumMessageExpiryInterval)
    (h : Balanced s r 0 i) (hu : tally Packet.unreported i = 0)
    (hfree : pk.qos ≠ 0 → b.reachesCheck i pk = true → (i.get pk.packetID).any Packet.holding = false)
    (writable : Bool) : Settles s r (b.processPublish i pk writable) := by
  have hmax : i.receiveQuota ≤ i.maximumReceiveQuota := by
    have := h.receive
    rw [h.maximumReceive]
    omega
  by_cases hq : pk.qos = 0
  · have hsame : (b.processPublish i pk writable).inflight = i := by
      simp only [Broker.processPublish, hq, ↓reduceIte]
      split
      · rfl
      · split
        · rfl
        · exact authorizePublish_zero b i rfl writable
    exact settles_of_eq hsame h hu
  cases hreach : b.reachesCheck i pk with
  | false =>
    exact settles_of_eq (processPublish_unchanged hq hreach hmax writable) h hu
  | true =>
    obtain ⟨pk', hid, hqos, heq⟩ := Broker.processPublish_reaches hq hreach writable
    have hq' : pk'.qos ≠ 0 := by rw [hqos]; exact hq
    rw [heq i rfl]
    rcases b.checkDuplicate_cases { i with receiveQuota := i.receiveQuota - 1 } hq' writable with
      ⟨hsame, hres, -⟩ | ⟨hrec, heff⟩
    · have hback : (Broker.settleQuota
          (b.checkDuplicate { i with receiveQuota := i.receiveQuota - 1 } pk' writable)).inflight = i := by
        simp only [Broker.settleQuota, hres, hsame, ↓reduceIte]
        exact increaseReceiveQuota_back hmax
      exact settles_of_eq hback h hu
    · have hpos : 0 < i.receiveQuota := by
        simp only [Broker.reachesCheck, Bool.and_eq_true, decide_eq_true_eq] at hreach
        omega
      have hnin : (i.get pk'.packetID).any Packet.inbound = false := by
        have hrec' : (i.get pk'.packetID).any (·.type = .pubrec) = false := hrec
        cases hg : i.get pk'.packetID with
        | none => rfl
        | some pki =>
          have hcomp : pki.unreported = false := by
            by_contra hne
            have := Balanced.tally_pos (p := Packet.unreported) hg (by simpa using hne)
            omega
          rw [hg] at hrec'
          simp only [Option.any_some, decide_eq_false_iff_not, Packet.unreported] at hrec' hcomp
          simp [Packet.inbound, hrec', hcomp]
      have hnh : (i.get pk'.packetID).any Packet.holding = false := by
        rw [hid]
        exact hfree hq hreach
      rw [delete_receiveQuota_comm] at heff
      have hdrq : (i.delete pk'.packetID).1.receiveQuota = i.receiveQuota := delete_receiveQuota i _
      have hle := tally_delete_le Packet.unreported i pk'.packetID
      rw [← hdrq] at heff hpos
      have hres := hookEffect_balanced hb (h.delete_free hnh hnin) (by omega) hpos
        (i.get_delete_self pk'.packetID) heff
      exact settles_of_balanced (hdrq ▸ hres.1) (hdrq ▸ hres.2)

end Handlers

section Deliveries

variable {s r k : ℤ} {i : Inflight}

theorem nextPacketID_free {last max n : ℕ} (h : nextPacketID i last max = some n) :
    i.get (UInt16.ofNat n) = none := by
  have := List.find?_some h
  simpa using this

theorem put_sendQuota_comm (i : Inflight) (x : ℤ) (m : Packet) :
    ({ i with sendQuota := x } : Inflight).put m = { i.put m with sendQuota := x } := by
  simp only [Inflight.put]
  split <;> rfl

variable {m : Packet}

theorem balanced_take (h : Balanced s r 0 i) (hg : i.get m.packetID = none)
    (hm : m.holding = true) (hq : 0 < i.sendQuota) :
    Balanced s r 0 { i.put m with sendQuota := i.sendQuota - 1 } ∧ tally Packet.deferred (i.put m) = 0 := by
  obtain ⟨hno, hnd⟩ := Balanced.holding_only hm
  have hwait : tally Packet.deferred i = 0 := by
    by_contra hne
    have := h.waits (by omega)
    omega
  have hold := tally_put Packet.holding i m
  have hin := tally_put Packet.inbound i m
  have hdef := tally_put Packet.deferred i m
  rw [hg, weight_none, weight_some] at hold hin hdef
  simp only [hm, hno, hnd, Bool.false_eq_true, ↓reduceIte, add_zero] at hold hin hdef
  have hsend := h.send
  have hrecv := h.receive
  refine ⟨Balanced.requota (h.wf.put (by simp [hnd])) rfl rfl ?_ ?_ ?_ ?_ ?_ ?_ ?_, by omega⟩
  · simpa using h.maximumSend
  · simpa using h.maximumReceive
  · simp only
    omega
  · simp only [put_receiveQuota]
    omega
  · simp only
    omega
  · simpa using h.receiveNonneg
  · intro hpos
    omega

theorem balanced_defer (h : Balanced s r 0 i) (hg : i.get m.packetID = none)
    (hm : m.type = .publish) (hd : m.deferred = true) (hq : i.sendQuota ≤ 0) : Balanced s r 0 (i.put m) := by
  have hno : m.holding = false ∧ m.inbound = false := by
    simp [Packet.holding, hd, Packet.inbound, hm]
  have hold := tally_put Packet.holding i m
  have hin := tally_put Packet.inbound i m
  rw [hg, weight_none, weight_some] at hold hin
  simp only [hno, Bool.false_eq_true, ↓reduceIte, add_zero] at hold hin
  have hsend := h.send
  have hrecv := h.receive
  refine ⟨h.wf.put (fun _ => hm), ?_, ?_, ?_, ?_, ?_, ?_, ?_⟩
  · simpa using h.maximumSend
  · simpa using h.maximumReceive
  · simp only [put_sendQuota]
    omega
  · simp only [put_receiveQuota]
    omega
  · simpa using h.sendNonneg
  · simpa using h.receiveNonneg
  · intro _
    simpa using hq

theorem balanced_rollback (h : Balanced s r 0 i) {n : UInt16} (hg : i.get n = some m)
    (hm : m.holding = true) (hw : tally Packet.deferred i = 0) :
    Balanced s r 0 (i.delete n).1.increaseSendQuota.1 := by
  have hb := (h.delete_holding hg hm).1
  refine { hb with waits := ?_ }
  intro hpos
  have hle := tally_delete_le Packet.deferred i n
  rw [tally_congr _ (increaseSendQuota_internal _)] at hpos
  omega

/-- The decision of `SetOutbound`. -/
theorem setOutbound_cases (hs : 1 ≤ s) (h : Balanced s r 0 i) (m : Packet) :
    (i.setOutbound m = (i.put { m with expiry := -1 }, true) ∧ i.sendQuota ≤ 0) ∨
      (i.setOutbound m = ({ i.put m with sendQuota := i.sendQuota - 1 }, false) ∧ 0 < i.sendQuota) := by
  have hmax : i.maximumSendQuota > 0 := by
    rw [h.maximumSend]
    omega
  have hcount := h.wf.counted
  by_cases hq : i.sendQuota ≤ 0 ∨ i.deferredCount > 0
  · left
    refine ⟨by simp [setOutbound, hmax, hq], ?_⟩
    rcases hq with hq | hq
    · exact hq
    · exact h.waits (by omega)
  · right
    have hpos : 0 < i.sendQuota := by omega
    refine ⟨?_, hpos⟩
    simp only [setOutbound, hmax, hq, ↓reduceIte, put_sendQuota_comm]

variable {c : Conn}

theorem sendOutbound_conserving (hs : 1 ≤ s) (h : Conserving s r c)
    (hpub : m.type = .publish) (hexp : 0 ≤ m.expiry) (hfree : c.inflight.get m.packetID = none)
    (pushed : Bool) (mei now : ℤ) : Conserving s r (c.sendOutbound m pushed mei now) := by
  have hhold : m.holding = true := by
    simp [Packet.holding, Packet.outbound, Packet.deferred, hpub, hexp]
  have hunput : ∀ x : ℤ, c.closed = false →
      tally Packet.unreported (c.inflight.put { m with expiry := x }) = 0 := by
    intro x hopen
    have hno : ({ m with expiry := x } : Packet).unreported = false := by
      simp [Packet.unreported, hpub]
    have hle := tally_put_le c.inflight hno
    have hzero := h.reported hopen
    omega
  rcases setOutbound_cases hs h.balanced m with ⟨heq, hq⟩ | ⟨heq, hq⟩
  · have hdef : ({ m with expiry := -1 } : Packet).deferred = true := by simp [Packet.deferred]
    have hwait : Balanced s r 0 (c.inflight.put { m with expiry := -1 }) :=
      balanced_defer h.balanced hfree hpub hdef hq
    simp only [sendOutbound, heq, ↓reduceIte]
    split
    · rename_i hclosed
      exact ⟨hwait, fun hopen => by simp [hclosed] at hopen⟩
    · exact writeNextDeferred_conserving hs hwait.mono (hunput (-1)) _ now
  · obtain ⟨htake, hnone⟩ := balanced_take h.balanced hfree hhold hq
    simp only [sendOutbound, heq, Bool.false_eq_true, ↓reduceIte]
    split
    · rename_i hclosed
      exact ⟨htake, fun hopen => by simp [hclosed] at hopen⟩
    · split
      · exact ⟨htake, hunput m.expiry⟩
      · have hself : ({ c.inflight.put m with sendQuota := c.inflight.sendQuota - 1 } : Inflight).get
            m.packetID = some m := c.inflight.get_put_self m
        refine ⟨balanced_rollback htake hself hhold hnone, ?_⟩
        intro hopen
        have hle := tally_delete_le Packet.unreported
          ({ c.inflight.put m with sendQuota := c.inflight.sendQuota - 1 } : Inflight) m.packetID
        have hzero : tally Packet.unreported
          ({ c.inflight.put m with sendQuota := c.inflight.sendQuota - 1 } : Inflight) = 0 :=
          hunput m.expiry hopen
        rw [tally_congr _ (increaseSendQuota_internal _)]
        exact Nat.eq_zero_of_le_zero (hle.trans hzero.le)

theorem publishToClient_conserving (hs : 1 ≤ s) (o : DeliveryOptions) (h : Conserving s r c)
    {pk : Packet} (hpub : pk.type = .publish) (hexp : 0 ≤ pk.expiry) (qos : UInt8) (replica pushed : Bool)
    (now : ℤ) : Conserving s r (c.publishToClient o pk qos replica pushed now) := by
  simp only [publishToClient]
  split
  · split
    · exact h
    · exact ⟨h.balanced, h.reported⟩
  · split
    · exact h
    split
    · exact h
    split
    · exact h
    split
    · exact h
    · rename_i n hnext
      have hc : Conserving s r { c with packetID := n } := ⟨h.balanced, h.reported⟩
      have hfree : ({ c with packetID := n } : Conn).inflight.get (UInt16.ofNat n) = none :=
        nextPacketID_free hnext
      refine sendOutbound_conserving hs hc ?_ ?_ ?_ pushed _ now
      · exact hpub
      · exact hexp
      · exact hfree

theorem replayOutbound_conserving (h : Conserving s r c)
    (hpub : m.type = .publish) (hexp : 0 ≤ m.expiry) (hfree : c.inflight.get m.packetID = none)
    (hq : 0 < c.inflight.sendQuota) : Conserving s r (c.replayOutbound m) := by
  have hhold : m.holding = true := by
    simp [Packet.holding, Packet.outbound, Packet.deferred, hpub, hexp]
  obtain ⟨htake, hnone⟩ := balanced_take h.balanced hfree hhold hq
  have hdec : (c.inflight.put m).decreaseSendQuota.1 =
      { c.inflight.put m with sendQuota := c.inflight.sendQuota - 1 } := by
    simp [decreaseSendQuota, not_le.mpr hq]
  have hself : ({ c.inflight.put m with sendQuota := c.inflight.sendQuota - 1 } : Inflight).get
      m.packetID = some m := c.inflight.get_put_self m
  simp only [replayOutbound, Inflight.set, hfree, Option.isNone_none, ↓reduceIte, hdec]
  split
  · rename_i hclosed
    refine ⟨balanced_rollback htake hself hhold hnone, ?_⟩
    intro hopen
    simp [hclosed] at hopen
  · refine ⟨htake, ?_⟩
    intro hopen
    have hno : m.unreported = false := by simp [Packet.unreported, hpub]
    have hle := tally_put_le c.inflight hno
    have hzero := h.reported hopen
    exact Nat.eq_zero_of_le_zero (hle.trans hzero.le)

private theorem replay_conserving (o : DeliveryOptions) (h : Conserving s r c) {pk : Packet}
    (hpub : pk.type = .publish) (hexp : 0 ≤ pk.expiry) (hq : 0 < c.inflight.sendQuota) :
    Conserving s r (c.replay o pk) := by
  simp only [replay]
  split
  · exact h
  · rename_i n hnext
    have hc : Conserving s r { c with packetID := n } := ⟨h.balanced, h.reported⟩
    have hfree : ({ c with packetID := n } : Conn).inflight.get (UInt16.ofNat n) = none :=
      nextPacketID_free hnext
    refine replayOutbound_conserving hc ?_ ?_ ?_ hq
    · exact hpub
    · exact hexp
    · exact hfree

end Deliveries

section Removals

variable {s r : ℤ}

variable {c : Conn} {pk : Packet}

theorem dropOversize_conserving (hs : 1 ≤ s) (h : Conserving s r c)
    (hdrop : c.matchesEntry pk = true → (c.inflight.get pk.packetID).any Packet.deferred = false)
    (m now : ℤ) : Conserving s r (c.dropOversize pk m now) := by
  simp only [dropOversize]
  split
  · rename_i hmatch
    obtain ⟨pki, hg, htype⟩ : ∃ pki, c.inflight.get pk.packetID = some pki ∧ pki.type = .publish := by
      simp only [matchesEntry] at hmatch
      cases hg : c.inflight.get pk.packetID with
      | none => simp [hg] at hmatch
      | some pki =>
        rw [hg] at hmatch
        simp only [Option.any_some, Bool.and_eq_true, decide_eq_true_eq] at hmatch
        exact ⟨pki, rfl, hmatch.1.1⟩
    have hhold : pki.holding = true := by
      have hnd := hdrop hmatch
      rw [hg, Option.any_some] at hnd
      simp [Packet.holding, Packet.outbound, htype, hnd]
    obtain ⟨hb, hreturned⟩ := h.balanced.delete_holding hg hhold
    have hun : c.closed = false →
        tally Packet.unreported (c.inflight.delete pk.packetID).1.increaseSendQuota.1 = 0 := by
      intro hopen
      have hle := tally_delete_le Packet.unreported c.inflight pk.packetID
      have hzero := h.reported hopen
      rw [tally_congr _ (increaseSendQuota_internal _)]
      omega
    simp only [hreturned, ↓reduceIte]
    exact claim_conserving hs hb hun (encodeNextDeferred_eq _ m now)
  · exact h

theorem encode_conserving (hs : 1 ≤ s) (h : Conserving s r c) (k : ℕ) (oversize : Bool)
    (hdrop : ∀ q, c.queue[k]? = some q → oversize = true → c.matchesEntry q.pk = true →
      (c.inflight.get q.pk.packetID).any Packet.deferred = false) (m now : ℤ) :
    Conserving s r (c.encode k oversize m now) := by
  have hsame : ∀ d : Conn, d.inflight = c.inflight → d.closed = c.closed → Conserving s r d := by
    intro d hinf hclosed
    refine ⟨?_, ?_⟩
    · rw [hinf]
      exact h.balanced
    · rw [hinf, hclosed]
      exact h.reported
  simp only [encode]
  split
  · exact h
  · rename_i q hq
    split
    · split
      · rename_i hover
        have hd : Conserving s r { c with
            queue := c.queue.eraseIdx k
            outstanding := unqueue q.tag c.outstanding } := hsame _ rfl rfl
        exact dropOversize_conserving hs hd (hdrop q hq hover) m now
      · exact hsame _ rfl rfl
    · exact hsame _ rfl rfl

variable {i : Inflight}

theorem mem_getAll (h : i.WF) (hpk : pk ∈ i.getAll) :
    i.get pk.packetID = some pk := by
  simp only [getAll, mem_map] at hpk
  obtain ⟨e, he, rfl⟩ := hpk
  obtain ⟨n, hn⟩ := (i.mem_entries_iff e).mp ((mem_mergeSort).mp he)
  rw [h.keyed n e hn, Inflight.get, hn]
  rfl

def Within (j i : Inflight) : Prop := ∀ n pk, j.get n = some pk → i.get n = some pk

theorem Within.delete {j : Inflight} (h : Within j i) (n : UInt16) : Within (j.delete n).1 i := by
  intro k pk hk
  by_cases hn : k = n
  · rw [hn, get_delete_self] at hk
    cases hk
  · rw [get_delete_ne _ hn] at hk
    exact h k pk hk

theorem Within.any {j : Inflight} (h : Within j i) (hpk : i.get pk.packetID = some pk)
    {p : Packet → Bool} (hp : p pk = false) : (j.get pk.packetID).any p = false := by
  cases hj : j.get pk.packetID with
  | none => rfl
  | some pkj =>
    have := h _ _ hj
    rw [hpk, Option.some.injEq] at this
    rw [← this, Option.any_some, hp]

/-- What every turn of the loop keeps holds after it; on a closed connection no packet is written. -/
theorem resendLoop_keeps {P : Conn → Prop} {acl : Bytes → Bool} {pks : List Packet}
    (hstep : ∀ pk ∈ pks, ∀ d, P d → (d.closed = true → resends acl pk = false) → P (resendOne acl d pk))
    (h : P c) : P (resendLoop acl pks c) := by
  induction pks generalizing c with
  | nil => exact h
  | cons pk pks ih =>
    rw [resendLoop]
    split
    · exact h
    · rename_i hwrite
      refine ih (fun q hq => hstep q (mem_cons_of_mem _ hq)) (hstep pk (mem_cons_self ..) c h ?_)
      intro hclosed
      simpa [hclosed] using hwrite

theorem resendOne_conserving (acl : Bytes → Bool) (h : Conserving s r c)
    (hin : Within c.inflight i) (hpk : i.get pk.packetID = some pk)
    (hwrite : c.closed = true → resends acl pk = false) (hrep : c.closed = false → pk.unreported = false)
    (hacl : pk.type = .publish → pk.holding = true → acl pk.topicName = true) :
    Conserving s r (resendOne acl c pk) ∧ (resendOne acl c pk).closed = c.closed ∧
      Within (resendOne acl c pk).inflight i := by
  have hremove : ∀ d : Conn, d.inflight = (c.inflight.delete pk.packetID).1 → d.closed = c.closed →
      pk.holding = false → pk.inbound = false →
      Conserving s r d ∧ d.closed = c.closed ∧ Within d.inflight i := by
    intro d hd hclosed hnh hni
    rw [hd]
    refine ⟨⟨?_, ?_⟩, hclosed, hin.delete _⟩
    · rw [hd]
      exact h.balanced.delete_free (hin.any hpk hnh) (hin.any hpk hni)
    · intro hopen
      have hle := tally_delete_le Packet.unreported c.inflight pk.packetID
      have hzero := h.reported (hclosed ▸ hopen)
      rw [hd]
      omega
  have hkeep : ∀ q, Conserving s r (c.enqueue q) ∧ (c.enqueue q).closed = c.closed ∧
      Within (c.enqueue q).inflight i := fun q => ⟨⟨h.balanced, h.reported⟩, rfl, hin⟩
  rw [resendOne]
  split
  · exact ⟨h, rfl, hin⟩
  split
  · rename_i hdeny
    simp only [Bool.not_eq_true'] at hdeny
    refine hremove _ rfl rfl ?_ (by simp [Packet.inbound, hdeny.1])
    by_contra hhold
    have := hacl hdeny.1 (by simpa using hhold)
    rw [hdeny.2] at this
    cases this
  · dsimp only
    split
    · rename_i hack
      have hopen : c.closed = false := by
        by_contra hclosed
        have := hwrite (by simpa using hclosed)
        rcases hack with hack | hack <;> simp [resends, hack] at this
      refine hremove _ rfl rfl ?_ ?_
      · rcases hack with hack | hack <;> simp [Packet.holding, Packet.outbound, hack]
      · rcases hack with hack | hack
        · simp [Packet.inbound, hack]
        · simp [Packet.unreported, hack] at hrep
          rw [hopen] at hrep
          cases hrep
    · exact hkeep _

theorem resend_conserving (h : Conserving s r c) (acl : Bytes → Bool)
    (hacl : ∀ pk ∈ c.inflight.getAll, pk.type = .publish → pk.holding = true → acl pk.topicName = true) :
    Conserving s r (c.resendInflightMessages acl) := by
  have hloop : Conserving s r (c.resendInflightMessages acl) ∧ (c.resendInflightMessages acl).closed = c.closed ∧
      Within (c.resendInflightMessages acl).inflight c.inflight := by
    refine resendLoop_keeps (P := fun d => Conserving s r d ∧ d.closed = c.closed ∧ Within d.inflight c.inflight)
      ?_ ⟨h, rfl, fun _ _ hg => hg⟩
    rintro pk hpk d ⟨hd, hclosed, hin⟩ hwrite
    have hg := mem_getAll h.balanced.wf hpk
    have hrep : d.closed = false → pk.unreported = false := by
      intro hopen
      by_contra hne
      have hpos := Balanced.tally_pos (p := Packet.unreported) hg (by simpa using hne)
      have hzero := h.reported (hclosed ▸ hopen)
      omega
    rw [← hclosed]
    exact resendOne_conserving acl hd hin hg hwrite hrep (hacl pk hpk)
  exact hloop.1

theorem clearExpired_conserving (h : Conserving s r c) {now maximumExpiry : ℤ}
    (hkept : ∀ pk ∈ c.inflight.getAll, expired now maximumExpiry pk = true →
      pk.holding = false ∧ pk.inbound = false) :
    Conserving s r { c with inflight := clearExpiredInflights now maximumExpiry c.inflight } := by
  have hfold : ∀ (pks : List Packet) (j : Inflight), Balanced s r 0 j → Within j c.inflight →
      tally Packet.unreported j ≤ tally Packet.unreported c.inflight →
      (∀ pk ∈ pks, pk ∈ c.inflight.getAll ∧ expired now maximumExpiry pk = true) →
      Balanced s r 0 (pks.foldl (fun i pk => (i.delete pk.packetID).1) j) ∧
        tally Packet.unreported (pks.foldl (fun i pk => (i.delete pk.packetID).1) j) ≤
          tally Packet.unreported c.inflight := by
    intro pks
    induction pks with
    | nil => exact fun j hj _ hle _ => ⟨hj, hle⟩
    | cons pk pks ih =>
      intro j hj hin hle hmem
      obtain ⟨hall, hexp⟩ := hmem pk (mem_cons_self ..)
      obtain ⟨hnh, hni⟩ := hkept pk hall hexp
      have hg := mem_getAll h.balanced.wf hall
      exact ih _ (hj.delete_free (hin.any hg hnh) (hin.any hg hni)) (hin.delete _)
        ((tally_delete_le _ j _).trans hle) (fun q hq => hmem q (mem_cons_of_mem _ hq))
  obtain ⟨hb, hle⟩ := hfold _ c.inflight h.balanced (fun _ _ hg => hg) le_rfl
    (fun pk hpk => mem_filter.mp hpk)
  refine ⟨hb, ?_⟩
  intro hopen
  exact Nat.eq_zero_of_le_zero (hle.trans (h.reported hopen).le)

end Removals

/-- The packets and times a caller passes: a PUBLISH that does not wait for quota, and times
after the epoch. -/
@[grind =] def Step.wellFormed : Step → Bool
  | .publish _ pk _ _ _ _ => pk.type = .publish && 0 ≤ pk.expiry
  | .replay _ pk => pk.type = .publish && 0 ≤ pk.expiry
  | .inPublish b _ _ => 0 ≤ b.now + b.maximumMessageExpiryInterval
  | .inPubrel b _ _ => 0 ≤ b.now + b.maximumMessageExpiryInterval
  | .inPubrec b _ _ => 0 ≤ b.now + b.maximumMessageExpiryInterval
  | _ => true

/-- The step takes no message that holds quota out of the map without returning the quota,
and returns none that was not taken. -/
def returning (c : Conn) : Step → Bool
  | .replay _ _ => 0 < c.inflight.sendQuota
  | .inPublish b pk _ =>
    c.closed || pk.qos = 0 || !b.reachesCheck c.inflight pk ||
      !(c.inflight.get pk.packetID).any Packet.holding
  | .encode k oversize _ _ =>
    (c.queue[k]?).all (fun q => !oversize || !c.matchesEntry q.pk ||
      !(c.inflight.get q.pk.packetID).any Packet.deferred)
  | .resend acl =>
    c.inflight.getAll.all (fun pk => pk.type ≠ .publish || !pk.holding || acl pk.topicName)
  | .clearExpired now maximumExpiry =>
    c.inflight.getAll.all (fun pk => !expired now maximumExpiry pk || !(pk.holding || pk.inbound))
  | _ => true

def Returning (c : Conn) (t : Step) : Prop := t.wellFormed = true ∧ returning c t = true
deriving Decidable

theorem fresh_conserving {s r : ℤ} (hs : 1 ≤ s) (hr : 1 ≤ r) : Conserving s r (fresh s r) := by
  have hnone : ∀ n, (fresh s r).inflight.internal.lookup n = none := AList.lookup_empty
  refine ⟨⟨⟨?_, ?_, rfl⟩, rfl, rfl, ?_, ?_, ?_, ?_, ?_⟩, fun _ => rfl⟩
  · intro n e he
    rw [hnone] at he
    cases he
  · intro n e he
    rw [hnone] at he
    cases he
  · exact add_zero s
  · exact add_zero r
  · exact (by omega : 0 ≤ s)
  · exact (by omega : 0 ≤ r)
  · intro hpos
    exact absurd hpos (lt_irrefl 0)

theorem step_conserving {s r : ℤ} (hs : 1 ≤ s) (c : Conn) (t : Step) (h : Conserving s r c)
    (ht : Returning c t) : Conserving s r (step c t) := by
  obtain ⟨hwf, hret⟩ := ht
  have hb := h.balanced
  cases t with
  | publish o pk qos replica pushed now =>
    simp only [Step.wellFormed, Bool.and_eq_true, decide_eq_true_eq] at hwf
    exact publishToClient_conserving hs o h hwf.1 hwf.2 qos replica pushed now
  | replay o pk =>
    simp only [Step.wellFormed, Bool.and_eq_true, decide_eq_true_eq] at hwf
    exact replay_conserving o h hwf.1 hwf.2 (by simpa [returning] using hret)
  | inPublish b pk writable =>
    simp only [Step.wellFormed, decide_eq_true_eq] at hwf
    simp only [step]
    split
    · exact h
    · rename_i hopen
      have hopen' : c.closed = false := by simpa using hopen
      refine finish_conserving hs c (processPublish_settles hwf hb (h.reported hopen') ?_ writable) _ _ _
      intro hq hreach
      simpa [returning, hopen', hq, hreach] using hret
  | inPubrel b pk writable =>
    simp only [Step.wellFormed, decide_eq_true_eq] at hwf
    simp only [step]
    split
    · exact h
    · rename_i hopen
      have hzero := h.reported (by simpa using hopen)
      exact finish_conserving hs c (processPubrel_settles hwf hb hzero pk writable) _ _ _
  | inPuback b pk =>
    simp only [step]
    split
    · exact h
    · rename_i hopen
      have hzero := h.reported (by simpa using hopen)
      exact finish_conserving hs _ (processPuback_settles hb hzero pk) _ _ _
  | inPubrec b pk writable =>
    simp only [Step.wellFormed, decide_eq_true_eq] at hwf
    simp only [step]
    split
    · exact h
    · rename_i hopen
      have hzero := h.reported (by simpa using hopen)
      exact finish_conserving hs _ (processPubrec_settles hwf hb hzero pk writable) _ _ _
  | inPubcomp b pk =>
    simp only [step]
    split
    · exact h
    · rename_i hopen
      have hzero := h.reported (by simpa using hopen)
      exact finish_conserving hs _ (processPubcomp_settles hb hzero pk) _ _ _
  | claim m now => exact writeNextDeferred_conserving hs hb.mono h.reported m now
  | encode k oversize m now =>
    refine encode_conserving hs h k oversize ?_ m now
    intro q hq hover hmatch
    simpa [returning, hq, hover, hmatch] using hret
  | resend acl =>
    refine resend_conserving h acl ?_
    intro pk hpk htype hhold
    simp only [returning, all_eq_true] at hret
    simpa [htype, hhold] using hret pk hpk
  | clearExpired now maximumExpiry =>
    refine clearExpired_conserving h ?_
    intro pk hpk hexp
    simp only [returning, all_eq_true] at hret
    simpa [hexp] using hret pk hpk
  | close => exact ⟨hb, fun hclosed => by cases hclosed⟩
  | release =>
    simp only [step]
    split
    · exact ⟨hb, h.reported⟩
    · exact h

structure Conserved (s r : ℤ) (i : Inflight) : Prop where
  send : i.sendQuota + tally Packet.holding i = s
  sendRange : 0 ≤ i.sendQuota ∧ i.sendQuota ≤ s
  deferred : i.deferredCount = tally Packet.deferred i
  receive : i.receiveQuota + tally Packet.inbound i = r
  receiveRange : 0 ≤ i.receiveQuota ∧ i.receiveQuota ≤ r
  waiting : ∀ n e, i.internal.lookup n = some e → e.pk.deferred = true → i.sendQuota = 0 ∨
    ∃ n' e', i.internal.lookup n' = some e' ∧ e'.pk.deferred = true ∧ e'.order < e.order

theorem Conserving.conserved {s r : ℤ} {c : Conn} (h : Conserving s r c) : Conserved s r c.inflight := by
  have hb := h.balanced
  have hsend := hb.send
  have hrecv := hb.receive
  have hs := hb.sendNonneg
  have hr := hb.receiveNonneg
  refine ⟨hsend, by omega, hb.wf.counted, hrecv, by omega, ?_⟩
  intro n e he hd
  left
  have hle := hb.waits (count_pos_of_lookup he hd)
  omega

def defaults : DeliveryOptions where
  maximumInflight := 8192
  maximumPacketID := 65535
  maximumQos := 2
  maximumMessageExpiryInterval := 86400
  storedQueuedMessages := true

/-- Two deliveries into a window of one, the acknowledgement of the first, and an inbound
QoS 2 message. -/
def exchange : List Step :=
  [.publish defaults (Broker.message 0 1 [0x61]) 1 false true 1000,
    .publish defaults (Broker.message 0 1 [0x62]) 1 false true 1000,
    .inPuback Broker.allowing (Broker.message 1 1 []),
    .inPublish Broker.allowing (Broker.message 7 2 [0x63]) true]

end Conn

end MonsterMQ.Mqtt
