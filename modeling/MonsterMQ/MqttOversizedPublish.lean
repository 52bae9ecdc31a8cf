import MonsterMQ.MqttQuotaRuns
import MonsterMQ.MqttTopicAliases

/-!
# PUBLISH packets that are too large for the client

The writer drops them and looks for their entry in `Inflight` to give the quota back, by the creation time
and the topic of the copy on the wire, where an alias may have replaced the topic.
-/

namespace MonsterMQ.Mqtt

open LittleEndian FiniteMaps Inflight

@[grind =] def AliasWriter.knows (w : AliasWriter) (l : ClientLimits) (topic : Bytes) : Bool :=
  w.aliasMax ≠ 0 && topic ≠ [] && !(l.protocolVersion < 5) && (w.aliases.lookup topic).isSome

@[grind =] def AliasWriter.wireTopic (w : AliasWriter) (l : ClientLimits) (topic : Bytes) : Bytes :=
  if w.knows l topic then [] else topic

private theorem wireCopy_topic (w : AliasWriter) (l : ClientLimits) (now : ℤ) (o : Outgoing) :
    (w.wireCopy l now o).topicName = w.wireTopic l o.packet.topicName := by
  rw [topicName_wireCopy, AliasWriter.aliasUse, AliasWriter.applyAlias, AliasWriter.wireTopic,
    AliasWriter.knows]
  split
  · rename_i hoff
    rw [if_neg]
    · rfl
    · rcases hoff with h | h | h <;> simp [h]
  · rename_i hon
    rw [not_or, not_or] at hon
    split
    · rename_i n hn
      rw [if_pos]
      · rfl
      · simp [hon, hn]
    · rename_i hnone
      rw [hnone, Option.isSome_none, Bool.and_false, if_neg Bool.false_ne_true]
      split <;> rfl

/-- The packet in the terms of `Inflight`, with the topic of its wire copy. -/
def Outgoing.entry (o : Outgoing) (topic : Bytes) : Packet where
  type := .publish
  qos := o.packet.fixedHeader.qos
  dup := o.packet.fixedHeader.dup
  retain := o.packet.fixedHeader.retain
  packetID := o.packet.packetID
  topicName := topic
  payload := o.packet.payload
  reasonCode := o.packet.reasonCode
  reasonCodes := o.packet.reasonCodes
  properties := ⟨"", o.packet.properties.user.map fun u => (u.key, u.val),
    o.packet.properties.messageExpiryInterval⟩
  protocolVersion := o.packet.protocolVersion
  created := o.created
  expiry := o.expiry

namespace Conn

/-- `encode` of a PUBLISH: what it does to the session when the packet is too large. -/
def encodePublish (c : Conn) (w : AliasWriter) (l : ClientLimits) (o : Outgoing)
    (maximumMessageExpiryInterval now : ℤ) : Conn :=
  match (w.wireCopy l now o).encodeOne with
  | .tooLarge =>
    if o.packet.fixedHeader.qos > 0 then
      c.dropOversize (o.entry (w.wireCopy l now o).topicName) maximumMessageExpiryInterval now
    else c
  | _ => c

/-- The entry is gone, its quota is back and the next deferred message is claimed. -/
def forget (c : Conn) (id : UInt16) (maximumMessageExpiryInterval now : ℤ) : Conn :=
  { c with inflight := (c.inflight.delete id).1.increaseSendQuota.1 }.encodeNextDeferred
      maximumMessageExpiryInterval now

end Conn

/-- Which messages the packet and the entry under its identifier belong to. -/
structure Ownership (c : Conn) (o : Outgoing) where
  message : ℕ
  owner : ℕ
  /-- The copies of one message agree in their time and topic. -/
  copies : owner = message → ∀ e, c.inflight.get o.packet.packetID = some e → e.type = .publish →
    e.created = o.created ∧ e.topicName = o.packet.topicName

/-- What becomes of the entry under the identifier of a dropped packet. -/
structure DropSettled (c c' : Conn) (o : Outgoing) (own : Ownership c o) (m now : ℤ) : Prop where
  same : ∀ e, c.inflight.get o.packet.packetID = some e → own.owner = own.message → e.type = .publish →
    c' = c.forget o.packet.packetID m now
  other : ∀ e, c.inflight.get o.packet.packetID = some e → own.owner ≠ own.message →
    c'.inflight.get o.packet.packetID = some e

/-- The topic of the message has no alias yet, a deferred message meets quota that can be
returned, and a message that took over the identifier looks different. -/
structure Recognisable (c : Conn) (w : AliasWriter) (l : ClientLimits) (o : Outgoing) (own : Ownership c o) :
    Prop where
  same : ∀ e, c.inflight.get o.packet.packetID = some e → own.owner = own.message → e.type = .publish →
    w.knows l o.packet.topicName = false ∧
      ((c.inflight.delete o.packet.packetID).1.hasDeferred = true →
        c.inflight.sendQuota < c.inflight.maximumSendQuota)
  other : ∀ e, c.inflight.get o.packet.packetID = some e → own.owner ≠ own.message → e.type = .publish →
    e.created = o.created → e.topicName ≠ w.wireTopic l o.packet.topicName

section Settled

variable {c : Conn} {w : AliasWriter} {l : ClientLimits} {o : Outgoing} {m now : ℤ}

theorem encodePublish_tooLarge (hsize : (w.wireCopy l now o).encodeOne = .tooLarge)
    (hqos : o.packet.fixedHeader.qos > 0) :
    c.encodePublish w l o m now = c.dropOversize (o.entry (w.wireTopic l o.packet.topicName)) m now := by
  rw [Conn.encodePublish, hsize, ← wireCopy_topic w l now o]
  exact if_pos hqos

theorem matchesEntry_entry {e : Packet} (he : c.inflight.get o.packet.packetID = some e) (topic : Bytes) :
    c.matchesEntry (o.entry topic) = true ↔
      e.type = .publish ∧ e.created = o.created ∧ e.topicName = topic := by
  have hid : (o.entry topic).packetID = o.packet.packetID := rfl
  rw [Conn.matchesEntry, hid, he]
  simp only [Option.any_some, Bool.and_eq_true, decide_eq_true_eq, and_assoc]
  exact Iff.rfl

theorem claimDeferred_some {c : Conn} (hwf : c.inflight.WF) (hd : c.inflight.hasDeferred = true)
    (hquota : 0 < c.inflight.maximumSendQuota → 0 < c.inflight.sendQuota) (m now : ℤ) :
    ∃ next, (c.claimDeferred m now).2 = some next := by
  have hpos : c.inflight.deferredCount > 0 := by simpa [hasDeferred] using hd
  have hcount : c.inflight.deferredCount ≠ 0 := by omega
  have hfree : ¬ (c.inflight.maximumSendQuota > 0 ∧ c.inflight.sendQuota ≤ 0) := by
    rintro ⟨hmax, hle⟩
    exact absurd (hquota hmax) (by omega)
  cases hold : c.inflight.oldestDeferred with
  | none =>
    have hzero := oldestDeferred_none hold
    rw [hwf.counted, hzero] at hcount
    exact absurd rfl hcount
  | some e =>
    apply Option.isSome_iff_exists.mp
    rw [Conn.claimDeferred, hd]
    simp only [Bool.not_true, Bool.false_eq_true, ↓reduceIte]
    rw [claimNextImmediate, if_neg hcount, if_neg hfree, hold]
    rfl

private theorem encodeNextDeferred_none {c : Conn} (hd : c.inflight.hasDeferred = false) (m now : ℤ) :
    c.encodeNextDeferred m now = c := by
  rw [Conn.encodeNextDeferred, Conn.claimDeferred, hd]
  rfl

private theorem encodeNextDeferred_ne {c : Conn} (hwf : c.inflight.WF) (hd : c.inflight.hasDeferred = true)
    (hquota : 0 < c.inflight.maximumSendQuota → 0 < c.inflight.sendQuota) (m now : ℤ) :
    c.encodeNextDeferred m now ≠ c := by
  obtain ⟨next, hnext⟩ := claimDeferred_some hwf hd hquota m now
  intro heq
  have hqueue := congrArg (fun d : Conn => d.queue.length) heq
  have hsame : (c.claimDeferred m now).1.queue = c.queue := by
    rw [Conn.claimDeferred]
    split <;> rfl
  rw [Conn.encodeNextDeferred] at hqueue
  rcases hclaim : c.claimDeferred m now with ⟨d, r⟩
  rw [hclaim] at hnext hsame hqueue
  dsimp only at hnext hsame
  subst hnext
  simp [hsame] at hqueue

private theorem get_claimNextImmediate_none {i : Inflight} (hwf : i.WF) {id : UInt16} (h : i.get id = none)
    (expiryFn : Packet → ℤ) : (i.claimNextImmediate expiryFn).1.get id = none := by
  rw [claimNextImmediate]
  split
  · exact h
  · split
    · exact h
    · cases hold : i.oldestDeferred with
      | none => exact h
      | some e =>
        obtain ⟨-, n, hn⟩ := oldestDeferred_some hold
        have hid : e.pk.packetID = n := hwf.keyed n e hn
        have hne : id ≠ e.pk.packetID := by
          rintro rfl
          rw [Inflight.get, hid, hn] at h
          cases h
        dsimp only
        rw [Inflight.get, AList.lookup_insert_ne hne]
        exact h

theorem WF.increaseSendQuota {i : Inflight} (hwf : i.WF) : i.increaseSendQuota.1.WF := by
  apply hwf.congr (increaseSendQuota_internal i)
  rw [Inflight.increaseSendQuota]
  split <;> rfl

private theorem get_encodeNextDeferred_none {d : Conn} (hwf : d.inflight.WF) {id : UInt16}
    (h : d.inflight.get id = none) (m now : ℤ) : (d.encodeNextDeferred m now).inflight.get id = none := by
  rw [(Conn.encodeNextDeferred_eq d m now).1, Conn.claimDeferred]
  split
  · exact h
  · exact get_claimNextImmediate_none hwf h _

theorem get_returned_none (c : Conn) (id : UInt16) :
    (c.inflight.delete id).1.increaseSendQuota.1.get id = none := by
  rw [Inflight.get, increaseSendQuota_internal]
  exact get_delete_self c.inflight id

theorem get_forget (hwf : c.inflight.WF) (id : UInt16) (m now : ℤ) :
    (c.forget id m now).inflight.get id = none :=
  get_encodeNextDeferred_none (WF.increaseSendQuota (hwf.delete id)) (get_returned_none c id) m now

private theorem get_dropOversize {pk : Packet} (hmatch : c.matchesEntry pk = true) (hwf : c.inflight.WF) :
    (c.dropOversize pk m now).inflight.get pk.packetID = none := by
  rw [Conn.dropOversize, if_pos hmatch]
  dsimp only
  split
  · exact get_forget hwf pk.packetID m now
  · exact get_returned_none c pk.packetID

/-- A packet whose entry is recognised is forgotten, when there is quota to return or nothing
waits for it. -/
theorem dropOversize_matched {pk : Packet} (hmatch : c.matchesEntry pk = true) (hwf : c.inflight.WF) :
    c.dropOversize pk m now = c.forget pk.packetID m now ↔
      ((c.inflight.delete pk.packetID).1.hasDeferred = true →
        c.inflight.sendQuota < c.inflight.maximumSendQuota) := by
  have hsend := delete_sendQuota c.inflight pk.packetID
  have hmax := delete_maximumSendQuota c.inflight pk.packetID
  rw [Conn.dropOversize, if_pos hmatch, Conn.forget]
  by_cases hlt : c.inflight.sendQuota < c.inflight.maximumSendQuota
  · have hreturn := increaseSendQuota_of_lt (i := (c.inflight.delete pk.packetID).1) (by
      rw [hsend, hmax]
      exact hlt)
    rw [hreturn]
    exact iff_of_true rfl (fun _ => hlt)
  · have hkeep : (c.inflight.delete pk.packetID).1.increaseSendQuota =
        ((c.inflight.delete pk.packetID).1, false) := by
      rw [Inflight.increaseSendQuota, if_pos]
      rw [hsend, hmax]
      exact not_lt.mp hlt
    rw [hkeep]
    simp only [Bool.false_eq_true, ↓reduceIte]
    cases hd : (c.inflight.delete pk.packetID).1.hasDeferred with
    | false =>
      refine iff_of_true ?_ (fun h => absurd h Bool.false_ne_true)
      rw [encodeNextDeferred_none]
      exact hd
    | true =>
      refine iff_of_false (Ne.symm ?_) (fun h => hlt (h rfl))
      apply encodeNextDeferred_ne (hwf.delete pk.packetID) hd
      dsimp only
      omega

theorem dropOversize_unmatched {pk : Packet} (hmatch : ¬ c.matchesEntry pk = true) :
    c.dropOversize pk m now = c := if_neg hmatch

end Settled

/-- A dropped PUBLISH is settled when its entry can be recognised, and only then. -/
theorem dropSettled_iff (c : Conn) (hwf : c.inflight.WF) (w : AliasWriter) (l : ClientLimits) (o : Outgoing)
    (own : Ownership c o) (m now : ℤ) (hsize : (w.wireCopy l now o).encodeOne = .tooLarge)
    (hqos : o.packet.fixedHeader.qos > 0) :
    DropSettled c (c.encodePublish w l o m now) o own m now ↔ Recognisable c w l o own := by
  rw [encodePublish_tooLarge hsize hqos]
  have hid : (o.entry (w.wireTopic l o.packet.topicName)).packetID = o.packet.packetID := rfl
  constructor
  · intro h
    refine ⟨?_, ?_⟩
    · intro e he hsame htype
      obtain ⟨hcreated, htopic⟩ := own.copies hsame e he htype
      have hresult := h.same e he hsame htype
      have hmatch : c.matchesEntry (o.entry (w.wireTopic l o.packet.topicName)) = true := by
        by_contra hno
        rw [dropOversize_unmatched hno] at hresult
        have hnone := get_forget hwf o.packet.packetID m now
        rw [← hresult, he] at hnone
        cases hnone
      have hwire := ((matchesEntry_entry he _).mp hmatch).2.2
      refine ⟨?_, ?_⟩
      · rw [← Bool.not_eq_true]
        intro hknows
        rw [htopic, AliasWriter.wireTopic, if_pos hknows] at hwire
        simp [AliasWriter.knows, hwire] at hknows
      · rw [← hid] at hresult ⊢
        exact (dropOversize_matched hmatch hwf).mp hresult
    · intro e he hother htype hcreated htopic
      have hmatch := (matchesEntry_entry he _).mpr ⟨htype, hcreated, htopic⟩
      have hkept := h.other e he hother
      rw [← hid, get_dropOversize hmatch hwf] at hkept
      cases hkept
  · intro h
    refine ⟨?_, ?_⟩
    · intro e he hsame htype
      obtain ⟨hcreated, htopic⟩ := own.copies hsame e he htype
      obtain ⟨hknows, hquota⟩ := h.same e he hsame htype
      have hmatch : c.matchesEntry (o.entry (w.wireTopic l o.packet.topicName)) = true := by
        rw [matchesEntry_entry he, AliasWriter.wireTopic, hknows]
        exact ⟨htype, hcreated, htopic⟩
      exact (dropOversize_matched hmatch hwf).mpr hquota
    · intro e he hother
      rw [dropOversize_unmatched, he]
      intro hmatch
      obtain ⟨htype, hcreated, htopic⟩ := (matchesEntry_entry he _).mp hmatch
      exact h.other e he hother htype hcreated htopic

def smallClient : ClientLimits := ⟨5, 1, 20, false⟩

def largeMessage : Outgoing where
  packet := {
    topicName := [0x61]
    payload := List.replicate 20 0
    packetID := 1
    fixedHeader := { type := .publish, qos := 1 } }
  created := 5
  expiry := 0

def largeQueued : Conn :=
  { Conn.fresh 10 10 with
    inflight := ((Conn.fresh 10 10).inflight.setOutbound (largeMessage.entry [0x61])).1
    packetID := 1 }

theorem largeQueued_get : largeQueued.inflight.get 1 = some (largeMessage.entry [0x61]) := rfl

theorem largeQueued_wf : largeQueued.inflight.WF := by
  have hfresh := (Conn.fresh_conserving (s := 10) (r := 10) (by decide) (by decide)).balanced.wf
  have htaken : { (Conn.fresh 10 10).inflight with sendQuota := 9 }.WF := hfresh.congr rfl rfl
  exact htaken.put fun _ => rfl

def largeOwner : Ownership largeQueued largeMessage where
  message := 0
  owner := 0
  copies _ e he _ := by
    have heq := Option.some.inj (largeQueued_get.symm.trans he)
    rw [← heq]
    exact ⟨rfl, rfl⟩

theorem dropSettled_first : (AliasWriter.wireCopy ⟨1, ∅⟩ smallClient 6 largeMessage).encodeOne = .tooLarge ∧
      (DropSettled largeQueued (largeQueued.encodePublish ⟨1, ∅⟩ smallClient largeMessage 0 6) largeMessage
        largeOwner 0 6 ↔ Recognisable largeQueued ⟨1, ∅⟩ smallClient largeMessage largeOwner) := by
  have hsize : (AliasWriter.wireCopy ⟨1, ∅⟩ smallClient 6 largeMessage).encodeOne = .tooLarge := by decide
  exact ⟨hsize, dropSettled_iff largeQueued largeQueued_wf ⟨1, ∅⟩ smallClient largeMessage largeOwner 0 6
    hsize (by decide)⟩

def shortMessage : Outgoing where
  packet := {
    topicName := [0x61]
    fixedHeader := { type := .publish } }
  created := 4
  expiry := 0

def aliasedWriter : AliasWriter := (AliasWriter.encodeOne ⟨1, ∅⟩ smallClient 5 shortMessage).2

/-- The copy on the wire has no topic, so the entry is not recognised and stays. -/
theorem aliased_not_settled : (aliasedWriter.wireCopy smallClient 6 largeMessage).encodeOne = .tooLarge ∧
      ¬ DropSettled largeQueued (largeQueued.encodePublish aliasedWriter smallClient largeMessage 0 6)
        largeMessage largeOwner 0 6 := by
  have hsize : (aliasedWriter.wireCopy smallClient 6 largeMessage).encodeOne = .tooLarge := by decide
  refine ⟨hsize, ?_⟩
  intro h
  have hkept : largeQueued.encodePublish aliasedWriter smallClient largeMessage 0 6 = largeQueued := by
    rw [encodePublish_tooLarge hsize (by decide), dropOversize_unmatched]
    rw [matchesEntry_entry largeQueued_get]
    have hwire : aliasedWriter.wireTopic smallClient largeMessage.packet.topicName = [] := by decide
    rw [hwire]
    exact fun hmatch => List.cons_ne_nil _ _ hmatch.2.2
  have hresult := h.same _ largeQueued_get rfl rfl
  have hnone := get_forget largeQueued_wf 1 0 6
  have hid : largeMessage.packet.packetID = 1 := rfl
  rw [hkept, hid] at hresult
  rw [← hresult, largeQueued_get] at hnone
  cases hnone

end MonsterMQ.Mqtt
