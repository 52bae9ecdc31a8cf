import MonsterMQ.MqttReceiveMaximum

/-!
# Stored PUBRECs

What the broker knows of an inbound QoS 2 exchange is the PUBREC in the map. Only the expiry may remove it.
-/

namespace MonsterMQ.Mqtt

open LittleEndian FiniteMaps Inflight StateRuns List

@[grind =] def stored (i : Inflight) (n : UInt16) : Bool := (i.get n).any (·.type = .pubrec)

/-- The map stays well formed and its stored PUBRECs stay. -/
def Keeps (i i' : Inflight) : Prop := i.WF → i'.WF ∧ ∀ n, stored i' n = stored i n

namespace Keeps

variable {i j k : Inflight}

theorem refl (i : Inflight) : Keeps i i := fun h => ⟨h, fun _ => rfl⟩

theorem trans (h : Keeps i j) (h' : Keeps j k) : Keeps i k := by
  intro hwf
  obtain ⟨hj, hij⟩ := h hwf
  obtain ⟨hk, hjk⟩ := h' hj
  exact ⟨hk, fun n => (hjk n).trans (hij n)⟩

theorem of_internal (hint : j.internal = i.internal) (hcount : j.deferredCount = i.deferredCount) :
    Keeps i j := by
  intro hwf
  refine ⟨hwf.congr hint hcount, ?_⟩
  intro n
  rw [stored, stored, Inflight.get, Inflight.get, hint]

theorem delete (i : Inflight) {n : UInt16} (h : stored i n = false) : Keeps i (i.delete n).1 := by
  intro hwf
  refine ⟨hwf.delete n, ?_⟩
  intro m
  by_cases hm : m = n
  · rw [hm, h, stored, get_delete_self]
    rfl
  · rw [stored, stored, get_delete_ne _ hm]

theorem put (i : Inflight) {m : Packet} (hd : m.deferred = true → m.type = .publish)
    (hm : m.type ≠ .pubrec) (h : stored i m.packetID = false) : Keeps i (i.put m) := by
  intro hwf
  refine ⟨hwf.put hd, ?_⟩
  intro n
  by_cases hn : n = m.packetID
  · rw [hn, h, stored, get_put_self]
    simp [hm]
  · rw [stored, stored, get_put_ne _ hn]

theorem increaseSendQuota (i : Inflight) : Keeps i i.increaseSendQuota.1 := by
  simp only [Inflight.increaseSendQuota]
  split
  · exact refl i
  · exact of_internal rfl rfl

theorem decreaseSendQuota (i : Inflight) : Keeps i i.decreaseSendQuota.1 := by
  simp only [Inflight.decreaseSendQuota]
  split
  · exact refl i
  · exact of_internal rfl rfl

theorem delete_return (i : Inflight) {n : UInt16} (h : stored i n = false) :
    Keeps i (i.delete n).1.increaseSendQuota.1 :=
  (delete i h).trans (increaseSendQuota _)

end Keeps

theorem stored_of_get {i : Inflight} {n : UInt16} {pk : Packet} (hg : i.get n = some pk)
    (ht : pk.type ≠ .pubrec) : stored i n = false := by
  simp [stored, hg, ht]

theorem stored_of_none {i : Inflight} {n : UInt16} (hg : i.get n = none) : stored i n = false := by
  simp [stored, hg]

namespace Inflight

theorem claimNextImmediate_keeps (i : Inflight) (expiryFn : Packet → ℤ) :
    Keeps i (i.claimNextImmediate expiryFn).1 := by
  intro hwf
  simp only [claimNextImmediate]
  split
  · exact Keeps.refl i hwf
  split
  · exact Keeps.refl i hwf
  split
  · exact Keeps.refl i hwf
  · rename_i e hold
    obtain ⟨hd, n, hn⟩ := oldestDeferred_some hold
    have hid : e.pk.packetID = n := hwf.keyed n e hn
    subst hid
    have hpub := hwf.waits _ e hn hd
    have hneg : e.pk.expiry < 0 := by simpa [Packet.deferred] using hd
    have hx : ¬ (if expiryFn e.pk > 0 then expiryFn e.pk else 0) < 0 := by split <;> omega
    have hg : i.get e.pk.packetID = some e.pk := by
      rw [Inflight.get, hn]
      rfl
    have hput := Keeps.put i
      (m := { e.pk with expiry := if expiryFn e.pk > 0 then expiryFn e.pk else 0 }) (fun _ => hpub)
      (by simp [hpub]) (stored_of_get hg (by simp [hpub]))
    refine (hput.trans (Keeps.of_internal ?_ ?_)) hwf
    · simp [Inflight.put, hn]
    · simp [Inflight.put, hn, deferredUnit, Packet.deferred, hneg, hx]

end Inflight

namespace Conn

theorem claimDeferred_keeps (c : Conn) (m now : ℤ) : Keeps c.inflight (c.claimDeferred m now).1.inflight := by
  simp only [claimDeferred]
  split
  · exact .refl _
  · exact claimNextImmediate_keeps _ _

theorem writeNextDeferred_keeps (c : Conn) (m now : ℤ) :
    Keeps c.inflight (c.writeNextDeferred m now).inflight := by
  rw [(c.writeNextDeferred_eq m now).1]
  exact c.claimDeferred_keeps m now

/-- The end of `processPacket` keeps what the handler left. -/
theorem finish_keeps (c : Conn) (h : Handled) (writable : Bool) (m now : ℤ) :
    Keeps h.inflight (c.finish h writable m now).inflight := by
  have hd : (if writable then (writes h.events).foldl enqueue { c with inflight := h.inflight }
      else { c with inflight := h.inflight }).inflight = h.inflight := by
    split
    · exact (foldl_enqueue _ _).1
    · rfl
  simp only [finish]
  generalize (if writable then (writes h.events).foldl enqueue { c with inflight := h.inflight }
    else { c with inflight := h.inflight }) = d at hd
  split
  · rw [← hd]
    exact .refl _
  · rw [← hd]
    exact d.writeNextDeferred_keeps m now

private theorem setOutbound_keeps {i : Inflight} {m : Packet} (hm : m.type = .publish)
    (hfree : i.get m.packetID = none) : Keeps i (i.setOutbound m).1 := by
  have hput : ∀ (j : Inflight) (x : ℤ), j.get m.packetID = none → Keeps j (j.put { m with expiry := x }) :=
    fun j x hj => .put j (fun _ => hm) (by simp [hm]) (stored_of_none hj)
  simp only [setOutbound]
  split
  · split
    · exact hput i (-1) hfree
    · have hquota : Keeps i { i with sendQuota := i.sendQuota - 1 } := .of_internal rfl rfl
      exact hquota.trans (hput { i with sendQuota := i.sendQuota - 1 } m.expiry hfree)
  · exact hput i m.expiry hfree

private theorem setOutbound_get (i : Inflight) (m : Packet) :
    ∃ x : ℤ, (i.setOutbound m).1.get m.packetID = some { m with expiry := x } := by
  simp only [setOutbound]
  split
  · split
    · exact ⟨-1, get_put_self _ _⟩
    · exact ⟨m.expiry, get_put_self _ _⟩
  · exact ⟨m.expiry, get_put_self _ _⟩

private theorem sendOutbound_keeps (c : Conn) {m : Packet} (hm : m.type = .publish)
    (hfree : c.inflight.get m.packetID = none) (pushed : Bool) (mei now : ℤ) :
    Keeps c.inflight (c.sendOutbound m pushed mei now).inflight := by
  have hset := setOutbound_keeps hm hfree
  obtain ⟨x, hx⟩ := setOutbound_get c.inflight m
  simp only [sendOutbound]
  split
  · split
    · exact hset
    · exact hset.trans
        (writeNextDeferred_keeps { c with inflight := (c.inflight.setOutbound m).1 } mei now)
  split
  · exact hset
  split
  · exact hset
  · exact hset.trans (.delete_return _ (stored_of_get hx (by simp [hm])))

private theorem publishToClient_keeps (o : DeliveryOptions) (c : Conn) {pk : Packet} (hm : pk.type = .publish)
    (qos : UInt8) (replica pushed : Bool) (now : ℤ) :
    Keeps c.inflight (c.publishToClient o pk qos replica pushed now).inflight := by
  simp only [publishToClient]
  split
  · split
    · exact .refl _
    · exact .refl _
  split
  · exact .refl _
  split
  · exact .refl _
  split
  · exact .refl _
  split
  · exact .refl _
  · rename_i n hnext
    have hfree : c.inflight.get (UInt16.ofNat n) = none := nextPacketID_free hnext
    refine sendOutbound_keeps { c with packetID := n } ?_ ?_ pushed _ now
    · exact hm
    · exact hfree

theorem replay_keeps (o : DeliveryOptions) (c : Conn) {pk : Packet} (hm : pk.type = .publish) :
    Keeps c.inflight (c.replay o pk).inflight := by
  simp only [replay]
  split
  · exact .refl _
  · rename_i n hnext
    have hfree : c.inflight.get (UInt16.ofNat n) = none := nextPacketID_free hnext
    set m : Packet := { pk with packetID := UInt16.ofNat n } with hdef
    have hput : Keeps c.inflight (c.inflight.put m) :=
      .put _ (fun _ => hm) (by simp [hdef, hm]) (stored_of_none hfree)
    have hself : stored (c.inflight.put m) m.packetID = false :=
      stored_of_get (get_put_self _ _) (by simp [hdef, hm])
    have hset : ∀ b : Bool, Keeps c.inflight
        (if b then (c.inflight.put m).decreaseSendQuota.1 else c.inflight.put m) ∧
        stored (if b then (c.inflight.put m).decreaseSendQuota.1 else c.inflight.put m) m.packetID = false := by
      intro b
      cases b with
      | false => exact ⟨hput, hself⟩
      | true =>
        refine ⟨hput.trans (.decreaseSendQuota _), ?_⟩
        have hsame : (c.inflight.put m).decreaseSendQuota.1.internal = (c.inflight.put m).internal := by
          simp only [decreaseSendQuota]
          split <;> rfl
        rw [stored, Inflight.get] at hself ⊢
        simp only [↓reduceIte, hsame]
        exact hself
    obtain ⟨hk, hs⟩ := hset (c.inflight.get m.packetID).isNone
    simp only [replayOutbound, Inflight.set]
    split
    · exact hk.trans (.delete_return _ hs)
    · exact hk

theorem dropOversize_keeps (c : Conn) (pk : Packet) (m now : ℤ) :
    Keeps c.inflight (c.dropOversize pk m now).inflight := by
  simp only [dropOversize]
  split
  · rename_i hmatch
    have hns : stored c.inflight pk.packetID = false := by
      cases hg : c.inflight.get pk.packetID with
      | none => exact stored_of_none hg
      | some pki =>
        refine stored_of_get hg ?_
        simp only [matchesEntry, hg, Option.any_some, Bool.and_eq_true, decide_eq_true_eq] at hmatch
        simp [hmatch.1.1]
    have hdel : Keeps c.inflight (c.inflight.delete pk.packetID).1.increaseSendQuota.1 :=
      .delete_return _ hns
    split
    · refine hdel.trans ?_
      rw [(encodeNextDeferred_eq _ m now).1]
      exact claimDeferred_keeps
        { c with inflight := (c.inflight.delete pk.packetID).1.increaseSendQuota.1 } m now
    · exact hdel
  · exact .refl _

private theorem encode_keeps (c : Conn) (k : ℕ) (oversize : Bool) (m now : ℤ) :
    Keeps c.inflight (c.encode k oversize m now).inflight := by
  simp only [encode]
  split
  · exact .refl _
  split
  · split
    · exact dropOversize_keeps { c with queue := c.queue.eraseIdx k, outstanding := _ } _ m now
    · exact .refl _
  · exact .refl _

private theorem resend_keeps (c : Conn) (acl : Bytes → Bool) :
    Keeps c.inflight (c.resendInflightMessages acl).inflight := by
  intro hwf
  refine resendLoop_keeps (P := fun d => Keeps c.inflight d.inflight) ?_ (.refl _) hwf
  intro pk hpk d hd _
  have hns : pk.type ≠ .pubrec → stored d.inflight pk.packetID = false := by
    intro hne
    rw [(hd hwf).2]
    exact stored_of_get (mem_getAll hwf hpk) hne
  rw [resendOne]
  split
  · exact hd
  · rename_i hne
    split
    · exact hd.trans (.delete _ (hns hne))
    dsimp only
    split
    · exact hd.trans (.delete _ (hns hne))
    · exact hd

theorem clearExpired_keeps {i : Inflight} {now maximumExpiry : ℤ}
    (hexp : ∀ pk ∈ i.getAll, expired now maximumExpiry pk = true → pk.type ≠ .pubrec) :
    Keeps i (clearExpiredInflights now maximumExpiry i) := by
  intro hwf
  have hfold : ∀ (pks : List Packet) (j : Inflight), Keeps i j →
      (∀ pk ∈ pks, pk ∈ i.getAll ∧ expired now maximumExpiry pk = true) →
      Keeps i (pks.foldl (fun i pk => (i.delete pk.packetID).1) j) := by
    intro pks
    induction pks with
    | nil => exact fun j hj _ => hj
    | cons pk pks ih =>
      intro j hj hpks
      rw [foldl_cons]
      refine ih _ ?_ (fun q hq => hpks q (mem_cons_of_mem _ hq))
      obtain ⟨hmem, hex⟩ := hpks pk (mem_cons_self ..)
      refine hj.trans (.delete _ ?_)
      rw [(hj hwf).2]
      exact stored_of_get (mem_getAll hwf hmem) (hexp pk hmem hex)
  exact hfold _ i (.refl _) (fun pk hpk => mem_filter.mp hpk) hwf

theorem processPuback_keeps (i : Inflight) (pk : Packet) : Keeps i (Broker.processPuback i pk).inflight := by
  simp only [Broker.processPuback]
  split
  · exact .refl i
  · rename_i pki hg
    split
    · exact .refl i
    · rename_i hcond
      simp only [not_or, not_not] at hcond
      exact .delete_return i (stored_of_get hg (by simp [hcond.1]))

private theorem processPubcomp_keeps (i : Inflight) (pk : Packet) :
    Keeps i (Broker.processPubcomp i pk).inflight := by
  simp only [Broker.processPubcomp]
  split
  · exact .refl i
  · rename_i pki hg
    split
    · exact .refl i
    · rename_i hcond
      rw [not_not] at hcond
      exact .delete_return i (stored_of_get hg (by simp [hcond]))

theorem processPubrec_keeps {b : Broker} (hb : 0 ≤ b.now + b.maximumMessageExpiryInterval) (i : Inflight)
    (pk : Packet) (writable : Bool) : Keeps i (b.processPubrec i pk writable).inflight := by
  simp only [Broker.processPubrec]
  split
  · exact .refl i
  · rename_i pki hg
    split
    · exact .refl i
    · rename_i hcond
      simp only [not_or, not_not] at hcond
      have hns : stored i pk.packetID = false := stored_of_get hg (by simp [hcond.1])
      split
      · exact .delete_return i hns
      · refine .put i (fun hd => ?_) (by simp [Broker.buildAck]) hns
        exact absurd hd (by simp [Packet.deferred, Broker.buildAck, hb])

/-- The steps for messages of the broker, and the expiry of anything but a PUBREC. -/
def ownStep (c : Conn) : Step → Bool
  | .inPublish _ _ _ => false
  | .inPubrel _ _ _ => false
  | .clearExpired now maximumExpiry =>
    c.inflight.getAll.all (fun pk => !expired now maximumExpiry pk || pk.type ≠ .pubrec)
  | _ => true

theorem step_keeps (c : Conn) (t : Step) (hwf : t.wellFormed = true) (hown : c.ownStep t = true) :
    Keeps c.inflight (c.step t).inflight := by
  cases t with
  | publish o pk qos replica pushed now =>
    simp only [Step.wellFormed, Bool.and_eq_true, decide_eq_true_eq] at hwf
    exact publishToClient_keeps o c hwf.1 qos replica pushed now
  | replay o pk =>
    simp only [Step.wellFormed, Bool.and_eq_true, decide_eq_true_eq] at hwf
    exact replay_keeps o c hwf.1
  | inPublish b pk writable => cases hown
  | inPubrel b pk writable => cases hown
  | inPuback b pk =>
    simp only [step]
    split
    · exact .refl _
    · exact (processPuback_keeps _ pk).trans (finish_keeps _ _ _ _ _)
  | inPubrec b pk writable =>
    simp only [Step.wellFormed, decide_eq_true_eq] at hwf
    simp only [step]
    split
    · exact .refl _
    · exact (processPubrec_keeps hwf _ pk writable).trans (finish_keeps _ _ _ _ _)
  | inPubcomp b pk =>
    simp only [step]
    split
    · exact .refl _
    · exact (processPubcomp_keeps _ pk).trans (finish_keeps _ _ _ _ _)
  | claim m now => exact c.writeNextDeferred_keeps m now
  | encode k oversize m now => exact c.encode_keeps k oversize m now
  | resend acl => exact c.resend_keeps acl
  | clearExpired now maximumExpiry =>
    refine clearExpired_keeps ?_
    intro pk hpk hexp
    simp only [ownStep, all_eq_true] at hown
    simpa [hexp] using hown pk hpk
  | close => exact .refl _
  | release =>
    simp only [step]
    split
    · exact .refl _
    · exact .refl _

end Conn

end MonsterMQ.Mqtt
