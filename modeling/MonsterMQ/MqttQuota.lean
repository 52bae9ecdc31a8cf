import MonsterMQ.MqttConnection
import MonsterMQ.MqttIdentifiers

/-!
# The balance of the quotas

On one connection the send quota and the messages that hold a unit of it add up to the client's Receive
Maximum, and so do the receive quota and the inbound QoS 2 flows.
-/

namespace MonsterMQ.Mqtt

open LittleEndian FiniteMaps List

namespace Inflight

@[grind =]
def tally (p : Packet → Bool) (i : Inflight) : ℕ := count (fun e : InflightEntry => p e.pk) i.internal

theorem weight_lookup (p : Packet → Bool) (i : Inflight) (n : UInt16) :
    weight (fun e : InflightEntry => p e.pk) (i.internal.lookup n) = weight p (i.get n) := by
  rw [get]
  cases i.internal.lookup n <;> rfl

theorem tally_put (p : Packet → Bool) (i : Inflight) (m : Packet) :
    tally p (i.put m) + weight p (i.get m.packetID) = tally p i + weight p (some m) := by
  have hw := weight_lookup p i m.packetID
  rw [← hw]
  cases hl : i.internal.lookup m.packetID with
  | some prev =>
    have hc := count_insert (fun e : InflightEntry => p e.pk) i.internal m.packetID ⟨m, prev.order⟩
    rw [hl] at hc
    simp only [tally, put, hl]
    exact hc
  | none =>
    have hc := count_insert (fun e : InflightEntry => p e.pk) i.internal m.packetID ⟨m, i.nextOrder + 1⟩
    rw [hl] at hc
    simp only [tally, put, hl]
    exact hc

theorem tally_delete (p : Packet → Bool) (i : Inflight) (n : UInt16) :
    tally p (i.delete n).1 + weight p (i.get n) = tally p i := by
  have hw := weight_lookup p i n
  rw [← hw]
  cases hl : i.internal.lookup n with
  | some prev =>
    have hc := count_erase (fun e : InflightEntry => p e.pk) i.internal n
    rw [hl] at hc
    simp only [tally, delete, hl]
    exact hc
  | none =>
    simp only [tally, delete, hl]
    rfl

theorem deferredUnit_eq (pk : Packet) : deferredUnit pk = (weight Packet.deferred (some pk) : ℤ) := by
  simp only [deferredUnit, weight_some]
  split <;> rfl

/-- The map is keyed by its packets' identifiers, only a PUBLISH waits for quota, and
`deferredCount` counts those that do. -/
structure WF (i : Inflight) : Prop where
  keyed : ∀ n e, i.internal.lookup n = some e → e.pk.packetID = n
  waits : ∀ n e, i.internal.lookup n = some e → e.pk.deferred = true → e.pk.type = .publish
  counted : i.deferredCount = (tally Packet.deferred i : ℤ)

variable {i : Inflight}

theorem WF.congr {i' : Inflight} (h : WF i) (hint : i'.internal = i.internal)
    (hdef : i'.deferredCount = i.deferredCount) : WF i' := by
  refine ⟨?_, ?_, ?_⟩
  · rw [hint]
    exact h.keyed
  · rw [hint]
    exact h.waits
  · rw [hdef, h.counted, tally, tally, hint]

private theorem put_deferredCount (i : Inflight) (m : Packet) : (i.put m).deferredCount =
      i.deferredCount - (weight Packet.deferred (i.get m.packetID) : ℤ) + deferredUnit m := by
  rw [get, put]
  split
  · rename_i prev hl
    simp only [hl, Option.map_some, deferredUnit_eq]
  · rename_i hl
    simp [hl]

private theorem delete_deferredCount (i : Inflight) (n : UInt16) :
    (i.delete n).1.deferredCount = i.deferredCount - (weight Packet.deferred (i.get n) : ℤ) := by
  rw [get, delete]
  split
  · rename_i prev hl
    simp only [hl, Option.map_some, deferredUnit_eq]
  · rename_i hl
    simp [hl]

theorem WF.put (h : WF i) {m : Packet} (hm : m.deferred = true → m.type = .publish) :
    WF (i.put m) := by
  refine ⟨?_, ?_, ?_⟩
  · intro n e he
    by_cases hn : n = m.packetID
    · obtain ⟨order, hself⟩ := i.lookup_put_self m
      rw [← hn, he, Option.some.injEq] at hself
      rw [hself, hn]
    · rw [i.lookup_put_ne hn] at he
      exact h.keyed n e he
  · intro n e he hd
    by_cases hn : n = m.packetID
    · obtain ⟨order, hself⟩ := i.lookup_put_self m
      rw [← hn, he, Option.some.injEq] at hself
      rw [hself] at hd ⊢
      exact hm hd
    · rw [i.lookup_put_ne hn] at he
      exact h.waits n e he hd
  · have ht := tally_put Packet.deferred i m
    have hw := deferredUnit_eq m
    rw [put_deferredCount, h.counted, hw]
    omega

theorem WF.delete (h : WF i) (n : UInt16) : WF (i.delete n).1 := by
  refine ⟨?_, ?_, ?_⟩
  · intro k e he
    by_cases hk : k = n
    · rw [hk, i.lookup_delete_self] at he
      cases he
    · rw [i.lookup_delete_ne hk] at he
      exact h.keyed k e he
  · intro k e he hd
    by_cases hk : k = n
    · rw [hk, i.lookup_delete_self] at he
      cases he
    · rw [i.lookup_delete_ne hk] at he
      exact h.waits k e he hd
  · have ht := tally_delete Packet.deferred i n
    rw [delete_deferredCount, h.counted]
    omega

theorem foldl_oldest (vs : List InflightEntry) (next : Option InflightEntry)
    (hnext : ∀ n, next = some n → n.pk.deferred = true) :
    (∀ n, vs.foldl (fun next v => if !v.pk.deferred then next
        else match next with
          | none => some v
          | some n => if v.order < n.order then some v else next) next = some n →
      n.pk.deferred = true ∧ (n ∈ vs ∨ next = some n)) ∧
    (vs.foldl (fun next v => if !v.pk.deferred then next
        else match next with
          | none => some v
          | some n => if v.order < n.order then some v else next) next = none →
      next = none ∧ ∀ v ∈ vs, v.pk.deferred = false) := by
  induction vs generalizing next with
  | nil => exact ⟨fun n hn => ⟨hnext n hn, .inr hn⟩, fun hn => ⟨hn, fun v hv => by cases hv⟩⟩
  | cons v vs ih =>
    rw [foldl_cons]
    cases hv : v.pk.deferred with
    | false =>
      simp only [Bool.not_false, ↓reduceIte]
      obtain ⟨hsome, hnone⟩ := ih next hnext
      refine ⟨?_, ?_⟩
      · intro n hn
        obtain ⟨hd, hmem⟩ := hsome n hn
        exact ⟨hd, hmem.imp (mem_cons_of_mem _) id⟩
      · intro hn
        obtain ⟨hno, hall⟩ := hnone hn
        refine ⟨hno, ?_⟩
        intro w hw
        rcases mem_cons.mp hw with rfl | hw
        · exact hv
        · exact hall w hw
    | true =>
      simp only [Bool.not_true, Bool.false_eq_true, ↓reduceIte]
      have hpick : ∃ w, (match next with
          | none => some v
          | some n => if v.order < n.order then some v else next) = some w ∧ w.pk.deferred = true ∧
          (w = v ∨ next = some w) := by
        cases next with
        | none => exact ⟨v, rfl, hv, .inl rfl⟩
        | some n =>
          simp only
          split
          · exact ⟨v, rfl, hv, .inl rfl⟩
          · exact ⟨n, rfl, hnext n rfl, .inr rfl⟩
      obtain ⟨w, hw, hwd, hwv⟩ := hpick
      rw [hw]
      obtain ⟨hsome, hnone⟩ := ih (some w) (fun n hn => by cases hn; exact hwd)
      refine ⟨?_, ?_⟩
      · intro n hn
        obtain ⟨hd, hmem⟩ := hsome n hn
        refine ⟨hd, ?_⟩
        rcases hmem with hmem | hmem
        · exact .inl (mem_cons_of_mem _ hmem)
        · cases hmem
          rcases hwv with rfl | hwv
          · exact .inl (mem_cons_self ..)
          · exact .inr hwv
      · intro hn
        cases (hnone hn).1

theorem mem_entries_iff (i : Inflight) (v : InflightEntry) :
    v ∈ i.internal.entries.map (·.2) ↔ ∃ n, i.internal.lookup n = some v := by
  rw [mem_map]
  constructor
  · rintro ⟨⟨n, e⟩, hmem, rfl⟩
    exact ⟨n, mem_dlookup i.internal.nodupKeys hmem⟩
  · rintro ⟨n, hn⟩
    exact ⟨⟨n, v⟩, of_mem_dlookup hn, rfl⟩

theorem oldestDeferred_some {e : InflightEntry} (h : i.oldestDeferred = some e) :
    e.pk.deferred = true ∧ ∃ n, i.internal.lookup n = some e := by
  unfold oldestDeferred at h
  obtain ⟨hd, hmem⟩ := (foldl_oldest _ none (by simp)).1 e h
  refine ⟨hd, ?_⟩
  rcases hmem with hmem | hmem
  · exact (i.mem_entries_iff e).mp hmem
  · cases hmem

theorem oldestDeferred_none (h : i.oldestDeferred = none) : tally Packet.deferred i = 0 := by
  unfold oldestDeferred at h
  obtain ⟨-, hall⟩ := (foldl_oldest _ none (by simp)).2 h
  by_contra hne
  obtain ⟨n, e, he, hd⟩ := exists_of_count_pos (Nat.pos_of_ne_zero hne)
  rw [hall e ((i.mem_entries_iff e).mpr ⟨n, he⟩)] at hd
  cases hd

theorem get_eq_some_iff (i : Inflight) (n : UInt16) (pk : Packet) :
    i.get n = some pk ↔ ∃ order, i.internal.lookup n = some ⟨pk, order⟩ := by
  rw [get, Option.map_eq_some_iff]
  constructor
  · rintro ⟨e, he, rfl⟩
    exact ⟨e.order, he⟩
  · rintro ⟨order, he⟩
    exact ⟨_, he, rfl⟩

theorem WF.publish (h : WF i) {n : UInt16} {pk : Packet} (hg : i.get n = some pk)
    (hd : pk.deferred = true) : pk.type = .publish := by
  obtain ⟨order, hl⟩ := (i.get_eq_some_iff n pk).mp hg
  exact h.waits n _ hl hd

theorem claimNextImmediate_cases (h : WF i) (hmax : 0 < i.maximumSendQuota)
    (expiryFn : Packet → ℤ) :
    (i.claimNextImmediate expiryFn = (i, none) ∧ (tally Packet.deferred i = 0 ∨ i.sendQuota ≤ 0)) ∨
      ∃ pk x, i.get pk.packetID = some pk ∧ pk.deferred = true ∧ 0 < i.sendQuota ∧ 0 ≤ x ∧
        i.claimNextImmediate expiryFn =
          ({ i with sendQuota := i.sendQuota - 1 }.put { pk with expiry := x },
            some { pk with expiry := x }) := by
  by_cases hcount : i.deferredCount = 0
  · left
    have htally := h.counted
    exact ⟨by simp [claimNextImmediate, hcount], .inl (by omega)⟩
  by_cases hquota : i.sendQuota ≤ 0
  · left
    exact ⟨by simp [claimNextImmediate, hcount, hmax, hquota], .inr hquota⟩
  cases hold : i.oldestDeferred with
  | none =>
    left
    exact ⟨by simp [claimNextImmediate, hcount, hquota, hold], .inl (oldestDeferred_none hold)⟩
  | some e =>
    right
    obtain ⟨hd, n, hn⟩ := oldestDeferred_some hold
    have hid : e.pk.packetID = n := h.keyed n e hn
    have hx : 0 ≤ (if expiryFn e.pk > 0 then expiryFn e.pk else 0) := by split <;> omega
    have hgone : ¬ (if expiryFn e.pk > 0 then expiryFn e.pk else 0) < 0 := by omega
    refine ⟨e.pk, if expiryFn e.pk > 0 then expiryFn e.pk else 0, ?_, hd, by omega, hx, ?_⟩
    · rw [get, hid, hn]
      rfl
    · rw [← hid] at hn
      have hneg : e.pk.expiry < 0 := by simpa [Packet.deferred] using hd
      simp [claimNextImmediate, put, hcount, hquota, hold, hmax, hn, deferredUnit, Packet.deferred, hgone, hneg]

end Inflight

open Inflight

section Fields

variable (i : Inflight) (m : Packet) (n : UInt16)

@[simp] theorem put_sendQuota : (i.put m).sendQuota = i.sendQuota :=
  congrArg Quotas.sendQuota (i.put_quotas m)

@[simp] theorem put_receiveQuota : (i.put m).receiveQuota = i.receiveQuota :=
  congrArg Quotas.receiveQuota (i.put_quotas m)

@[simp] theorem put_maximumSendQuota : (i.put m).maximumSendQuota = i.maximumSendQuota :=
  congrArg Quotas.maximumSendQuota (i.put_quotas m)

@[simp] theorem put_maximumReceiveQuota : (i.put m).maximumReceiveQuota = i.maximumReceiveQuota :=
  congrArg Quotas.maximumReceiveQuota (i.put_quotas m)

@[simp] theorem delete_sendQuota : (i.delete n).1.sendQuota = i.sendQuota :=
  congrArg Quotas.sendQuota (i.delete_quotas n)

@[simp] theorem delete_receiveQuota : (i.delete n).1.receiveQuota = i.receiveQuota :=
  congrArg Quotas.receiveQuota (i.delete_quotas n)

@[simp] theorem delete_maximumSendQuota : (i.delete n).1.maximumSendQuota = i.maximumSendQuota :=
  congrArg Quotas.maximumSendQuota (i.delete_quotas n)

@[simp] theorem delete_maximumReceiveQuota : (i.delete n).1.maximumReceiveQuota = i.maximumReceiveQuota :=
  congrArg Quotas.maximumReceiveQuota (i.delete_quotas n)

end Fields

theorem increaseSendQuota_of_lt {i : Inflight} (h : i.sendQuota < i.maximumSendQuota) :
    i.increaseSendQuota = ({ i with sendQuota := i.sendQuota + 1 }, true) := by
  simp [increaseSendQuota, not_le.mpr h]

theorem increaseReceiveQuota_of_lt {i : Inflight} (h : i.receiveQuota < i.maximumReceiveQuota) :
    i.increaseReceiveQuota = ({ i with receiveQuota := i.receiveQuota + 1 }, true) := by
  simp [increaseReceiveQuota, not_le.mpr h]

/-- The quotas and what holds them add up to the limits of the connection; while a message
waits for quota, at most `k` is free. -/
structure Balanced (s r k : ℤ) (i : Inflight) : Prop where
  wf : i.WF
  maximumSend : i.maximumSendQuota = s
  maximumReceive : i.maximumReceiveQuota = r
  send : i.sendQuota + tally Packet.holding i = s
  receive : i.receiveQuota + tally Packet.inbound i = r
  sendNonneg : 0 ≤ i.sendQuota
  receiveNonneg : 0 ≤ i.receiveQuota
  waits : 0 < tally Packet.deferred i → i.sendQuota ≤ k

namespace Balanced

variable {s r k : ℤ} {i : Inflight}

theorem mono (h : Balanced s r 0 i) : Balanced s r 1 i := by
  refine { h with waits := ?_ }
  intro hd
  have := h.waits hd
  omega

theorem weight_eq {p : Packet → Bool} {o : Option Packet} (h : o.any p = false) : weight p o = 0 := by
  cases o with
  | none => rfl
  | some pk =>
    have hp : p pk = false := by simpa using h
    simp [hp]

variable {pk : Packet}

theorem tally_pos {p : Packet → Bool} {n : UInt16} (hg : i.get n = some pk)
    (hp : p pk = true) : 0 < tally p i := by
  obtain ⟨order, hl⟩ := (i.get_eq_some_iff n pk).mp hg
  exact count_pos_of_lookup hl hp

theorem delete_free (h : Balanced s r k i) {n : UInt16} (hh : (i.get n).any Packet.holding = false)
    (hi : (i.get n).any Packet.inbound = false) : Balanced s r k (i.delete n).1 := by
  have hold := tally_delete Packet.holding i n
  have hin := tally_delete Packet.inbound i n
  have hdef := tally_delete Packet.deferred i n
  rw [weight_eq hh] at hold
  rw [weight_eq hi] at hin
  refine ⟨h.wf.delete n, ?_, ?_, ?_, ?_, ?_, ?_, ?_⟩
  · simpa using h.maximumSend
  · simpa using h.maximumReceive
  · have := h.send
    simp only [delete_sendQuota]
    omega
  · have := h.receive
    simp only [delete_receiveQuota]
    omega
  · simpa using h.sendNonneg
  · simpa using h.receiveNonneg
  · intro hd
    rw [delete_sendQuota]
    exact h.waits (by omega)

theorem requota {i' : Inflight} (hwf : i.WF) (hint : i'.internal = i.internal)
    (hcount : i'.deferredCount = i.deferredCount) (hsmax : i'.maximumSendQuota = s)
    (hrmax : i'.maximumReceiveQuota = r) (hsend : i'.sendQuota + tally Packet.holding i = s)
    (hrecv : i'.receiveQuota + tally Packet.inbound i = r) (hs : 0 ≤ i'.sendQuota)
    (hr : 0 ≤ i'.receiveQuota) (hwaits : 0 < tally Packet.deferred i → i'.sendQuota ≤ k) :
    Balanced s r k i' := by
  have htally : ∀ p, tally p i' = tally p i := by
    intro p
    rw [tally, tally, hint]
  exact ⟨hwf.congr hint hcount, hsmax, hrmax, by rw [htally]; exact hsend, by rw [htally]; exact hrecv, hs,
    hr, by rw [htally]; exact hwaits⟩

theorem holding_only (hp : pk.holding = true) : pk.inbound = false ∧ pk.deferred = false := by
  simp only [Packet.holding, Packet.outbound, Bool.and_eq_true, Bool.or_eq_true, decide_eq_true_eq,
    Bool.not_eq_true'] at hp
  refine ⟨?_, hp.2⟩
  rcases hp.1 with ht | ht
  · simp [Packet.inbound, ht]
  · simp [Packet.inbound, ht]

theorem delete_holding (h : Balanced s r 0 i) {n : UInt16} (hg : i.get n = some pk) (hp : pk.holding = true) :
    Balanced s r 1 (i.delete n).1.increaseSendQuota.1 ∧ (i.delete n).1.increaseSendQuota.2 = true := by
  obtain ⟨hno, hnd⟩ := holding_only hp
  have hold := tally_delete Packet.holding i n
  have hin := tally_delete Packet.inbound i n
  have hdef := tally_delete Packet.deferred i n
  rw [hg, weight_some] at hold hin hdef
  simp only [hp, hno, hnd, ↓reduceIte, Bool.false_eq_true, add_zero] at hold hin hdef
  have hsend := h.send
  have hrecv := h.receive
  have hs := h.sendNonneg
  have hlt : (i.delete n).1.sendQuota < (i.delete n).1.maximumSendQuota := by
    rw [delete_sendQuota, delete_maximumSendQuota, h.maximumSend]
    omega
  rw [increaseSendQuota_of_lt hlt]
  refine ⟨requota (h.wf.delete n) rfl rfl ?_ ?_ ?_ ?_ ?_ ?_ ?_, rfl⟩
  · simpa using h.maximumSend
  · simpa using h.maximumReceive
  · simp only [delete_sendQuota]
    omega
  · simp only [delete_receiveQuota]
    omega
  · simp only [delete_sendQuota]
    omega
  · simpa using h.receiveNonneg
  · intro hd
    have := h.waits (by omega)
    simp only [delete_sendQuota]
    omega

theorem delete_inbound (h : Balanced s r k i) {n : UInt16} (hg : i.get n = some pk)
    (hp : pk.inbound = true) : Balanced s r k (i.delete n).1.increaseReceiveQuota.1 := by
  have hno : pk.holding = false := by
    cases hh : pk.holding with
    | false => rfl
    | true =>
      rw [(holding_only hh).1] at hp
      cases hp
  have hold := tally_delete Packet.holding i n
  have hin := tally_delete Packet.inbound i n
  have hdef := tally_delete Packet.deferred i n
  rw [hg, weight_some] at hold hin
  simp only [hp, hno, ↓reduceIte, Bool.false_eq_true, add_zero] at hold hin
  have hsend := h.send
  have hrecv := h.receive
  have hr := h.receiveNonneg
  have hlt : (i.delete n).1.receiveQuota < (i.delete n).1.maximumReceiveQuota := by
    rw [delete_receiveQuota, delete_maximumReceiveQuota, h.maximumReceive]
    omega
  rw [increaseReceiveQuota_of_lt hlt]
  refine requota (h.wf.delete n) rfl rfl ?_ ?_ ?_ ?_ ?_ ?_ ?_
  · simpa using h.maximumSend
  · simpa using h.maximumReceive
  · simp only [delete_sendQuota]
    omega
  · simp only [delete_receiveQuota]
    omega
  · simpa using h.sendNonneg
  · simp only [delete_receiveQuota]
    omega
  · intro hd
    simp only [delete_sendQuota]
    exact h.waits (by omega)

theorem put_same (h : Balanced s r k i) {m : Packet} (hg : i.get m.packetID = some pk)
    (hh : m.holding = pk.holding) (hi : m.inbound = pk.inbound) (hd : m.deferred = false) :
    Balanced s r k (i.put m) := by
  have hold := tally_put Packet.holding i m
  have hin := tally_put Packet.inbound i m
  have hdef := tally_put Packet.deferred i m
  rw [hg, weight_some, weight_some] at hold hin
  rw [hh] at hold
  rw [hi] at hin
  simp only [weight_some, hd, Bool.false_eq_true, ↓reduceIte] at hdef
  have hsend := h.send
  have hrecv := h.receive
  refine ⟨h.wf.put (by simp [hd]), ?_, ?_, ?_, ?_, ?_, ?_, ?_⟩
  · simpa using h.maximumSend
  · simpa using h.maximumReceive
  · simp only [put_sendQuota]
    omega
  · simp only [put_receiveQuota]
    omega
  · simpa using h.sendNonneg
  · simpa using h.receiveNonneg
  · intro hpos
    simp only [put_sendQuota]
    exact h.waits (by omega)

theorem claim (h : Balanced s r 1 i) {x : ℤ} (hg : i.get pk.packetID = some pk)
    (hd : pk.deferred = true) (hq : 0 < i.sendQuota) (hx : 0 ≤ x) :
    Balanced s r 0 ({ i with sendQuota := i.sendQuota - 1 }.put { pk with expiry := x }) := by
  have hpub : pk.type = .publish := h.wf.publish hg hd
  have hnew : ({ pk with expiry := x } : Packet).deferred = false := by
    simp [Packet.deferred, not_lt.mpr hx]
  have hhold : ({ pk with expiry := x } : Packet).holding = true := by
    rw [Packet.holding, hnew]
    simp [Packet.outbound, hpub]
  have hno := (holding_only hhold).1
  have hwas : pk.holding = false ∧ pk.inbound = false := by
    simp [Packet.holding, hd, Packet.inbound, hpub]
  have hpos := tally_pos hg hd
  set j : Inflight := { i with sendQuota := i.sendQuota - 1 } with hj
  have hgj : j.get pk.packetID = some pk := hg
  have hold := tally_put Packet.holding j { pk with expiry := x }
  have hin := tally_put Packet.inbound j { pk with expiry := x }
  have hdef := tally_put Packet.deferred j { pk with expiry := x }
  rw [hgj, weight_some, weight_some] at hold hin hdef
  simp only [hhold, hno, hnew, hwas, hd, Bool.false_eq_true, ↓reduceIte, add_zero] at hold hin hdef
  have htally : ∀ p, tally p j = tally p i := fun _ => rfl
  rw [htally] at hold hin hdef
  have hsend := h.send
  have hrecv := h.receive
  have hsq : j.sendQuota = i.sendQuota - 1 := rfl
  have hrq : j.receiveQuota = i.receiveQuota := rfl
  have hwf : j.WF := h.wf.congr rfl rfl
  refine ⟨hwf.put (by simp [hnew]), ?_, ?_, ?_, ?_, ?_, ?_, ?_⟩
  · rw [put_maximumSendQuota]
    exact h.maximumSend
  · rw [put_maximumReceiveQuota]
    exact h.maximumReceive
  · rw [put_sendQuota]
    omega
  · rw [put_receiveQuota]
    omega
  · rw [put_sendQuota]
    omega
  · rw [put_receiveQuota]
    exact h.receiveNonneg
  · intro _
    have := h.waits hpos
    rw [put_sendQuota]
    omega

end Balanced

end MonsterMQ.Mqtt
