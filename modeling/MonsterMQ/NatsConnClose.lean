import MonsterMQ.NatsConn

/-!
# Closing a NATS connection

Every subscription that the bus holds is in one of the two tables or in the hands of a goroutine. Nothing
remains after `close`, unless a handler enters something later or a consumer is left in the table.
-/

namespace MonsterMQ.Nats

open LittleEndian StateRuns FiniteMaps List

/-- The operation goes on to give the subscription back or to enter it. -/
def Op.Holds (id : ℕ) : Op → Prop
  | .unsubscribe i => i = id
  | .removeConsumer x => x.busSubID = id
  | .replaceConsumer x _ => x.busSubID = id
  | .register st => st.subID = id
  | .closeJs sids => ∃ st ∈ sids, st.subID = id
  | _ => False

def Op.Stops (id : ℕ) : Op → Prop
  | .stop i => i = id
  | .removeConsumer x => x.busSubID = id
  | .replaceConsumer x _ => x.busSubID = id
  | _ => False

def Op.enters : Op → Bool
  | .subscribe _ _ | .register _ | .replaceConsumer _ _ | .registerConsumer _ => true
  | _ => false

namespace Conn

@[grind =] def restOps (c : Conn) : List Op := c.subWriterOps ++ c.others.flatten

def ops (c : Conn) : List Op := c.readerOps ++ c.restOps

def nextOp (c : Conn) : Turn → Option Op
  | .reader => c.readerOps.head?
  | .subWriter _ => c.subWriterOps.head?
  | .other i => c.others[i]?.bind List.head?
  | _ => none

/-- The condition on an operation: nothing is entered after `close`, `js.close` finds no consumer but those
that are being removed, and no other goroutine is still giving something back when `close` has
finished. -/
def CarefulOp (c : Conn) : Op → Prop
  | .register _ => c.closed = false
  | .registerConsumer _ => c.jsClosed = false
  | .closeJs _ => ∀ name x, c.consumers.lookup name = some x → ∃ op ∈ c.ops, op.Holds x.busSubID
  | .closeNet => ∀ op ∈ c.restOps, ∀ id, ¬ op.Holds id ∧ ¬ op.Stops id
  | _ => True

/-- The condition on a turn. A publisher that has found the channel of a consumer on the bus serves it
before the consumer is removed. -/
def Careful (c : Conn) (turn : Turn) : Prop :=
  (∀ op, c.nextOp turn = some op → c.CarefulOp op) ∧
    match turn with
    | .command (.consumerCreate _) => c.jsClosed = false
    | .serve i => ∀ subs, c.publishing[i]? = some subs → ∀ s ∈ subs, s.callback = none → s ∈ c.bus
    | _ => True

theorem mem_valuesOf {α β : Type} [DecidableEq α] {m : FMap α β} {b : β} :
    b ∈ valuesOf m ↔ ∃ a, m.lookup a = some b := by
  rw [valuesOf, mem_map]
  constructor
  · rintro ⟨⟨a, b'⟩, he, rfl⟩
    exact ⟨a, mem_dlookup m.nodupKeys he⟩
  · rintro ⟨a, h⟩
    exact ⟨⟨a, b⟩, of_mem_dlookup h, rfl⟩

variable {c : Conn}

private theorem mem_states {st : SidState} : st ∈ c.states ↔ ∃ sid, c.sidAt sid = some st := by
  rw [states]
  cases hs : c.sids with
  | none =>
    simp [sidAt, hs]
  | some m =>
    simp only [Option.map_some, Option.getD_some, sidAt, hs, Option.bind_some]
    exact mem_valuesOf

/-- What an operation that enters something relies on: what it enters is not there. -/
def Awaits (c : Conn) : Op → Prop
  | .subscribe sid _ => c.sidAt sid = none
  | .register st => c.sidAt st.sid = none
  | .replaceConsumer x r => x.name = r.name ∧ ∀ y, c.consumers.lookup r.name = some y → y = x
  | .registerConsumer r => c.consumers.lookup r.name = none
  | _ => True

structure SameTables (c c' : Conn) : Prop where
  closed : c'.closed = c.closed
  sids : c'.sids = c.sids
  consumers : c'.consumers = c.consumers
  jsClosed : c'.jsClosed = c.jsClosed
  bus : c'.bus = c.bus
  running : c'.running = c.running
  netOpen : c'.netOpen = c.netOpen
  panicked : c'.panicked = c.panicked

theorem SameTables.sidAt {c' : Conn} (h : SameTables c c') (sid : Bytes) : c'.sidAt sid = c.sidAt sid := by
  rw [Conn.sidAt, h.sids]
  rfl

theorem sameTables_refl (c : Conn) : SameTables c c := ⟨rfl, rfl, rfl, rfl, rfl, rfl, rfl, rfl⟩

theorem sameTables_writeOne (c : Conn) : SameTables c c.writeOne := by
  rw [writeOne.eq_def]
  split
  · exact sameTables_refl c
  · dsimp only
    split
    · exact ⟨rfl, rfl, rfl, rfl, rfl, rfl, rfl, rfl⟩
    · split
      · exact ⟨rfl, rfl, rfl, rfl, rfl, rfl, rfl, rfl⟩
      · split
        · exact ⟨rfl, rfl, rfl, rfl, rfl, rfl, rfl, rfl⟩
        · exact ⟨rfl, rfl, rfl, rfl, rfl, rfl, rfl, rfl⟩

structure Holding (c : Conn) : Prop where
  panicked : c.panicked = false
  sids : c.sids = none ↔ c.closed = true
  tracked : ∀ s ∈ c.bus, (∃ sid st, c.sidAt sid = some st ∧ st.subID = s.id) ∨
    (∃ name x, c.consumers.lookup name = some x ∧ x.busSubID = s.id) ∨ ∃ op ∈ c.ops, op.Holds s.id
  running : ∀ x ∈ c.running, (∃ name, c.consumers.lookup name = some x) ∨ ∃ op ∈ c.ops, op.Stops x.busSubID
  names : ∀ name x, c.consumers.lookup name = some x → x.name = name
  jsClosed : c.jsClosed = true → ∀ name, c.consumers.lookup name = none
  closeJs : ∀ sids, .closeJs sids ∈ c.ops → c.closed = true
  closeNet : .closeNet ∈ c.ops → c.closed = true ∧ c.jsClosed = true

variable {op : Op}

theorem sameTables_exec (h : match op with
      | .removeSid _ | .unsubscribe _ | .removeConsumer _ | .replaceConsumer _ _ | .stop _ | .subscribe _ _
      | .register _ | .registerConsumer _ | .close | .closeJs _ | .closeNet => False
      | _ => True) : SameTables c (c.exec op).1 := by
  cases op with
  | startDelivery x =>
    rw [exec]
    split
    · exact ⟨rfl, rfl, rfl, rfl, rfl, rfl, rfl, rfl⟩
    · exact sameTables_refl c
  | scanned x r =>
    rw [exec]
    split
    · split
      · exact sameTables_refl c
      · exact ⟨rfl, rfl, rfl, rfl, rfl, rfl, rfl, rfl⟩
    · exact sameTables_refl c
  | writeOne => exact sameTables_writeOne c
  | stopSid | onUnsubscribe | onSubscribe | deliver | send | write | batch | endBatch =>
    exact ⟨rfl, rfl, rfl, rfl, rfl, rfl, rfl, rfl⟩
  | removeSid | unsubscribe | removeConsumer | replaceConsumer | stop | subscribe | register | registerConsumer
  | close | closeJs | closeNet => exact absurd h id

theorem exec_sids (h : match op with
      | .removeSid _ | .register _ | .close => True
      | _ => False) :
    (c.exec op).1.consumers = c.consumers ∧ (c.exec op).1.bus = c.bus ∧ (c.exec op).1.running = c.running ∧
      (c.exec op).1.jsClosed = c.jsClosed ∧ (c.exec op).1.netOpen = c.netOpen := by
  cases op with
  | removeSid k | register st | close =>
    rw [exec]
    split
    · exact ⟨rfl, rfl, rfl, rfl, rfl⟩
    · exact ⟨rfl, rfl, rfl, rfl, rfl⟩
  | stopSid | unsubscribe | onUnsubscribe | removeConsumer | replaceConsumer | stop | subscribe | onSubscribe
  | startDelivery | registerConsumer | scanned | deliver | send | write | batch | writeOne | endBatch | closeJs
  | closeNet => exact absurd h not_false

private theorem sidAt_removed {sid k : Bytes} {st : SidState} (h : c.sidAt k = some st) (hne : k ≠ sid) :
    (c.sids.map fun m => m.erase sid).bind (fun m => m.lookup k) = some st := by
  rw [sidAt] at h
  cases hs : c.sids with
  | none =>
    rw [hs] at h
    cases h
  | some m =>
    rw [hs] at h
    change (m.erase sid).lookup k = some st
    rw [AList.lookup_erase_ne hne]
    exact h

theorem exec_sidAt (hawaits : c.Awaits op) {sid : Bytes} {st : SidState} (h : c.sidAt sid = some st) :
    (c.exec op).1.sidAt sid = some st ∨ ∃ o ∈ (c.exec op).2, o.Holds st.subID := by
  cases op with
  | removeSid k =>
    rw [exec]
    by_cases hk : sid = k
    · subst hk
      rw [h]
      exact .inr ⟨.unsubscribe st.subID, by simp, rfl⟩
    · split
      · exact .inl h
      · exact .inl (sidAt_removed h hk)
  | register st' =>
    left
    have hs : ∃ m, c.sids = some m := by
      cases hs : c.sids with
      | none =>
        rw [sidAt, hs] at h
        cases h
      | some m => exact ⟨m, rfl⟩
    obtain ⟨m, hm⟩ := hs
    have hne : sid ≠ st'.sid := by
      rintro rfl
      change c.sidAt st'.sid = none at hawaits
      rw [hawaits] at h
      cases h
    rw [exec, hm]
    change (m.insert st'.sid st').lookup sid = some st
    rw [AList.lookup_insert_ne hne]
    rw [sidAt, hm] at h
    exact h
  | close =>
    rw [exec]
    split
    · exact .inl h
    · exact .inr ⟨.closeJs c.states, mem_singleton_self _, st, (mem_states).mpr ⟨sid, h⟩, rfl⟩
  | unsubscribe | removeConsumer | replaceConsumer | stop | subscribe | registerConsumer | closeJs | closeNet =>
    exact .inl h
  | stopSid | onUnsubscribe | onSubscribe | deliver | send | write | batch | endBatch | startDelivery | scanned
  | writeOne =>
    left
    rw [(sameTables_exec trivial).sidAt]
    exact h

variable {x : Consumer}

private theorem lookup_forget {y : Consumer} {name : Bytes} (h : c.consumers.lookup name = some y) :
    (c.forget x).consumers.lookup name = some y ∨ y = x := by
  rw [forget]
  dsimp only
  split
  · next hx =>
    by_cases hname : name = x.name
    · subst hname
      rw [h] at hx
      exact .inr (Option.some.inj hx)
    · left
      rw [AList.lookup_erase_ne hname]
      exact h
  · exact .inl h

/-- A consumer stays in the table, or the goroutine goes on to stop it; and it gives the subscription back,
except in `js.close`. -/
theorem exec_consumers (hawaits : c.Awaits op) {name : Bytes} (h : c.consumers.lookup name = some x) :
    (c.exec op).1.consumers.lookup name = some x ∨ (∃ o ∈ (c.exec op).2, o.Stops x.busSubID) ∧
      ((∃ o ∈ (c.exec op).2, o.Holds x.busSubID) ∨ ∃ sids, op = .closeJs sids) := by
  cases op with
  | removeConsumer y | replaceConsumer y r =>
    rcases lookup_forget (x := y) h with hx | rfl
    · exact .inl hx
    · right
      rw [exec]
      exact ⟨⟨.stop x.busSubID, by simp, rfl⟩, .inl ⟨.unsubscribe x.busSubID, by simp, rfl⟩⟩
  | registerConsumer r =>
    left
    have hne : name ≠ r.name := by
      rintro rfl
      change c.consumers.lookup r.name = none at hawaits
      rw [hawaits] at h
      cases h
    change (c.consumers.insert r.name _).lookup name = some x
    rw [AList.lookup_insert_ne hne]
    exact h
  | closeJs sids =>
    right
    refine ⟨⟨.stop x.busSubID, ?_, rfl⟩, .inr ⟨sids, rfl⟩⟩
    rw [exec]
    refine mem_append_left _ (mem_append_left _ ?_)
    exact mem_map.mpr ⟨x, (mem_valuesOf).mpr ⟨name, h⟩, rfl⟩
  | removeSid | register | close =>
    left
    rw [(exec_sids trivial).1]
    exact h
  | unsubscribe | stop | subscribe | closeNet => exact .inl h
  | stopSid | onUnsubscribe | onSubscribe | deliver | send | write | batch | endBatch | startDelivery | scanned
  | writeOne =>
    left
    rw [(sameTables_exec trivial).consumers]
    exact h

theorem exec_holds (h : c.Holding) (hq : c.CarefulOp op) {id : ℕ} (hid : op.Holds id) :
    (∃ o ∈ (c.exec op).2, o.Holds id) ∨ (∃ sid st, (c.exec op).1.sidAt sid = some st ∧ st.subID = id) ∨
      op = .unsubscribe id := by
  cases op with
  | unsubscribe i => exact .inr (.inr (congrArg Op.unsubscribe hid))
  | removeConsumer x | replaceConsumer x r => exact .inl ⟨.unsubscribe x.busSubID, by simp [exec], hid⟩
  | register st =>
    right
    left
    cases hs : c.sids with
    | none =>
      change c.closed = false at hq
      have hclosed := h.sids.mp hs
      rw [hq] at hclosed
      cases hclosed
    | some m =>
      refine ⟨st.sid, st, ?_, hid⟩
      rw [exec, hs]
      change (m.insert st.sid st).lookup st.sid = some st
      rw [AList.lookup_insert]
  | closeJs sids =>
    obtain ⟨st, hst, rfl⟩ := hid
    left
    refine ⟨.unsubscribe st.subID, ?_, rfl⟩
    rw [exec]
    refine mem_append_left _ (mem_append_right _ ?_)
    exact mem_flatMap.mpr ⟨st, hst, by simp⟩
  | removeSid | stopSid | onUnsubscribe | stop | subscribe | onSubscribe | startDelivery | registerConsumer | scanned
  | deliver | send | write | batch | writeOne | endBatch | close | closeNet => exact absurd hid not_false

theorem exec_stops {id : ℕ} (hid : op.Stops id) : (∃ o ∈ (c.exec op).2, o.Stops id) ∨ op = .stop id := by
  cases op with
  | stop i => exact .inr (congrArg Op.stop hid)
  | removeConsumer x | replaceConsumer x r => exact .inl ⟨.stop x.busSubID, by simp [exec], hid⟩
  | removeSid | stopSid | unsubscribe | onUnsubscribe | subscribe | register | onSubscribe | startDelivery
  | registerConsumer | scanned | deliver | send | write | batch | writeOne | endBatch | close | closeJs | closeNet =>
    exact absurd hid not_false

/-- What is on the bus after an operation was there before it, or it has just been made and is in hand or in
a table. -/
theorem exec_bus {s : BusSub} (hs : s ∈ (c.exec op).1.bus) :
    (s ∈ c.bus ∧ op ≠ .unsubscribe s.id) ∨ (∃ o ∈ (c.exec op).2, o.Holds s.id) ∨
      ∃ name x, (c.exec op).1.consumers.lookup name = some x ∧ x.busSubID = s.id := by
  cases op with
  | unsubscribe i =>
    have hmem := mem_filter.mp hs
    refine .inl ⟨hmem.1, fun heq => ?_⟩
    have hi := Op.unsubscribe.inj heq
    have hne := of_decide_eq_true hmem.2
    exact hne hi.symm
  | subscribe sid topicFilter =>
    rcases mem_cons.mp hs with rfl | hs
    · exact .inr (.inl ⟨.register ⟨sid, topicFilter, c.next + 1⟩, by simp [exec], rfl⟩)
    · exact .inl ⟨hs, fun heq => by cases heq⟩
  | registerConsumer r =>
    rcases mem_cons.mp hs with rfl | hs
    · refine .inr (.inr ⟨r.name, ⟨r.name, r.deliverSubj, c.next + 1⟩, ?_, rfl⟩)
      change (c.consumers.insert r.name _).lookup r.name = _
      rw [AList.lookup_insert]
    · exact .inl ⟨hs, fun heq => by cases heq⟩
  | removeSid | register | close =>
    rw [(exec_sids trivial).2.1] at hs
    exact .inl ⟨hs, fun heq => by cases heq⟩
  | removeConsumer | replaceConsumer | stop | closeJs | closeNet => exact .inl ⟨hs, fun heq => by cases heq⟩
  | stopSid | onUnsubscribe | onSubscribe | deliver | send | write | batch | endBatch | startDelivery | scanned
  | writeOne =>
    rw [(sameTables_exec trivial).bus] at hs
    exact .inl ⟨hs, fun heq => by cases heq⟩

theorem exec_running (hx : x ∈ (c.exec op).1.running) :
    (x ∈ c.running ∧ op ≠ .stop x.busSubID) ∨ ∃ name, (c.exec op).1.consumers.lookup name = some x := by
  cases op with
  | stop i =>
    have hmem := mem_filter.mp hx
    refine .inl ⟨hmem.1, fun heq => ?_⟩
    have hi := Op.stop.inj heq
    have hne := of_decide_eq_true hmem.2
    exact hne hi.symm
  | registerConsumer r =>
    rcases mem_cons.mp hx with rfl | hx
    · refine .inr ⟨r.name, ?_⟩
      change (c.consumers.insert r.name _).lookup r.name = _
      rw [AList.lookup_insert]
    · exact .inl ⟨hx, fun heq => by cases heq⟩
  | removeSid | register | close =>
    rw [(exec_sids trivial).2.2.1] at hx
    exact .inl ⟨hx, fun heq => by cases heq⟩
  | unsubscribe | subscribe | removeConsumer | replaceConsumer | closeJs | closeNet =>
    exact .inl ⟨hx, fun heq => by cases heq⟩
  | stopSid | onUnsubscribe | onSubscribe | deliver | send | write | batch | endBatch | startDelivery | scanned
  | writeOne =>
    rw [(sameTables_exec trivial).running] at hx
    exact .inl ⟨hx, fun heq => by cases heq⟩

theorem exec_consumers_of {name : Bytes} (h : (c.exec op).1.consumers.lookup name = some x) :
    c.consumers.lookup name = some x ∨ (x.name = name ∧ ∃ r, op = .registerConsumer r ∧ name = r.name) := by
  have hforget : ∀ y, (c.forget y).consumers.lookup name = some x → c.consumers.lookup name = some x := by
    intro y hy
    rw [forget] at hy
    dsimp only at hy
    split at hy
    · by_cases hname : name = y.name
      · subst hname
        rw [AList.lookup_erase] at hy
        cases hy
      · rw [AList.lookup_erase_ne hname] at hy
        exact hy
    · exact hy
  cases op with
  | removeConsumer y | replaceConsumer y r => exact .inl (hforget y h)
  | registerConsumer r =>
    change (c.consumers.insert r.name _).lookup name = some x at h
    by_cases hname : name = r.name
    · subst hname
      rw [AList.lookup_insert] at h
      cases h
      exact .inr ⟨rfl, r, rfl, rfl⟩
    · rw [AList.lookup_insert_ne hname] at h
      exact .inl h
  | closeJs sids => cases h
  | removeSid | register | close =>
    rw [(exec_sids trivial).1] at h
    exact .inl h
  | unsubscribe | stop | subscribe | closeNet => exact .inl h
  | stopSid | onUnsubscribe | onSubscribe | deliver | send | write | batch | endBatch | startDelivery | scanned
  | writeOne =>
    rw [(sameTables_exec trivial).consumers] at h
    exact .inl h

theorem exec_flags (h : c.Holding) (hq : c.CarefulOp op) :
    (c.exec op).1.panicked = false ∧ ((c.exec op).1.sids = none ↔ (c.exec op).1.closed = true) ∧
      (c.closed = true → (c.exec op).1.closed = true) ∧ (c.jsClosed = true → (c.exec op).1.jsClosed = true) := by
  cases op with
  | removeSid k =>
    rw [exec]
    split
    · exact ⟨h.panicked, h.sids, id, id⟩
    · exact ⟨h.panicked, Option.map_eq_none_iff.trans h.sids, id, id⟩
  | register st =>
    rw [exec]
    cases hs : c.sids with
    | none =>
      have hclosed := h.sids.mp hs
      change c.closed = false at hq
      rw [hq] at hclosed
      cases hclosed
    | some m =>
      refine ⟨h.panicked, ⟨(fun hnone => by cases hnone), fun hclosed => ?_⟩, id, id⟩
      change c.closed = false at hq
      change c.closed = true at hclosed
      rw [hq] at hclosed
      cases hclosed
  | close =>
    rw [exec]
    split
    · exact ⟨h.panicked, h.sids, id, id⟩
    · exact ⟨h.panicked, ⟨fun _ => rfl, fun _ => rfl⟩, fun _ => rfl, id⟩
  | closeJs => exact ⟨h.panicked, h.sids, id, fun _ => rfl⟩
  | unsubscribe | removeConsumer | replaceConsumer | stop | subscribe | registerConsumer | closeNet =>
    exact ⟨h.panicked, h.sids, id, id⟩
  | stopSid | onUnsubscribe | onSubscribe | deliver | send | write | batch | endBatch | startDelivery | scanned
  | writeOne =>
    rw [(sameTables_exec trivial).panicked, (sameTables_exec trivial).sids, (sameTables_exec trivial).closed,
      (sameTables_exec trivial).jsClosed]
    exact ⟨h.panicked, h.sids, id, id⟩

/-- `closeJs` comes from `close`, and `closeNet` from `closeJs`. -/
theorem exec_closes : (∀ sids, .closeJs sids ∈ (c.exec op).2 → (c.exec op).1.closed = true) ∧
      (.closeNet ∈ (c.exec op).2 → (∃ sids, op = .closeJs sids) ∧ (c.exec op).1.jsClosed = true) := by
  cases op with
  | close =>
    rw [exec]
    split
    · exact ⟨(fun sids h => by cases h), fun h => by cases h⟩
    · refine ⟨fun _ _ => rfl, fun h => ?_⟩
      cases mem_singleton.mp h
  | closeJs sids =>
    refine ⟨fun sids' h => ?_, fun _ => ⟨⟨sids, rfl⟩, rfl⟩⟩
    simp [exec] at h
  | removeSid k | register st | startDelivery x | send =>
    rw [exec]
    split <;> simp
  | scanned x r =>
    rw [exec]
    split
    · split <;> simp
    · simp
  | stopSid | unsubscribe | onUnsubscribe | removeConsumer | replaceConsumer | stop | subscribe | onSubscribe
  | registerConsumer | deliver | write | batch | writeOne | endBatch | closeNet => simp [exec]

private theorem writeOne_programs (c : Conn) :
    c.writeOne.readerOps = c.readerOps ∧ c.writeOne.subWriterOps = c.subWriterOps ∧ c.writeOne.others = c.others := by
  rw [writeOne.eq_def]
  split
  · exact ⟨rfl, rfl, rfl⟩
  · dsimp only
    split
    · exact ⟨rfl, rfl, rfl⟩
    · split
      · exact ⟨rfl, rfl, rfl⟩
      · split
        · exact ⟨rfl, rfl, rfl⟩
        · exact ⟨rfl, rfl, rfl⟩

theorem exec_programs (c : Conn) (op : Op) :
    (c.exec op).1.readerOps = c.readerOps ∧ (c.exec op).1.subWriterOps = c.subWriterOps ∧
      ((c.exec op).1.others = c.others ∨
        op.enters = true ∧ ∃ x r, (c.exec op).1.others = c.others ++ [[.scanned x r]]) := by
  cases op with
  | registerConsumer r => exact ⟨rfl, rfl, .inr ⟨rfl, _, _, rfl⟩⟩
  | writeOne =>
    have h := writeOne_programs c
    exact ⟨h.1, h.2.1, .inl h.2.2⟩
  | removeSid k | register st | startDelivery x | close =>
    rw [exec]
    split <;> exact ⟨rfl, rfl, .inl rfl⟩
  | scanned x r =>
    rw [exec]
    split
    · split <;> exact ⟨rfl, rfl, .inl rfl⟩
    · exact ⟨rfl, rfl, .inl rfl⟩
  | stopSid | unsubscribe | onUnsubscribe | removeConsumer | replaceConsumer | stop | subscribe | onSubscribe
  | deliver | send | write | batch | endBatch | closeJs | closeNet => exact ⟨rfl, rfl, .inl rfl⟩

/-- A goroutine has performed the operation at the head of its program. -/
structure Executed (c c' : Conn) (op : Op) : Prop where
  tables : SameTables (c.exec op).1 c'
  kept : ∀ o ∈ c.ops, o = op ∨ o ∈ c'.ops
  pushed : ∀ o ∈ (c.exec op).2, o ∈ c'.ops
  added : ∀ o ∈ c'.ops, o ∈ c.ops ∨ o ∈ (c.exec op).2 ∨ ∃ x r, o = .scanned x r

/-- What is known of a subscription is still known after an operation, unless it gives it back. -/
theorem Holding.known {c' : Conn} (h : c.Holding) (hex : Executed c c' op) (hawaits : c.Awaits op)
    (hq : c.CarefulOp op) {id : ℕ} (hne : op ≠ .unsubscribe id)
    (hid : (∃ sid st, c.sidAt sid = some st ∧ st.subID = id) ∨
      (∃ name x, c.consumers.lookup name = some x ∧ x.busSubID = id) ∨ ∃ o ∈ c.ops, o.Holds id) :
    (∃ sid st, c'.sidAt sid = some st ∧ st.subID = id) ∨
      (∃ name x, c'.consumers.lookup name = some x ∧ x.busSubID = id) ∨ ∃ o ∈ c'.ops, o.Holds id := by
  have hholds : ∀ o ∈ c.ops, o.Holds id → (∃ sid st, c'.sidAt sid = some st ∧ st.subID = id) ∨
      ∃ o ∈ c'.ops, o.Holds id := by
    intro o ho hoid
    rcases hex.kept o ho with rfl | ho
    · rcases exec_holds h hq hoid with ⟨o', ho', hid'⟩ | ⟨sid, st, hst, hid'⟩ | heq
      · exact .inr ⟨o', hex.pushed o' ho', hid'⟩
      · exact .inl ⟨sid, st, (hex.tables.sidAt sid).trans hst, hid'⟩
      · exact absurd heq hne
    · exact .inr ⟨o, ho, hoid⟩
  rcases hid with ⟨sid, st, hst, rfl⟩ | ⟨name, x, hx, rfl⟩ | ⟨o, ho, hoid⟩
  · rcases exec_sidAt hawaits hst with hst' | ⟨o, ho, hoid⟩
    · exact .inl ⟨sid, st, (hex.tables.sidAt sid).trans hst', rfl⟩
    · exact .inr (.inr ⟨o, hex.pushed o ho, hoid⟩)
  · rcases exec_consumers hawaits hx with hx' | ⟨-, ⟨o, ho, hoid⟩ | ⟨sids, rfl⟩⟩
    · exact .inr (.inl ⟨name, x, by rw [hex.tables.consumers]; exact hx', rfl⟩)
    · exact .inr (.inr ⟨o, hex.pushed o ho, hoid⟩)
    · obtain ⟨o, ho, hoid⟩ := hq name x hx
      rcases hholds o ho hoid with hst | hop
      · exact .inl hst
      · exact .inr (.inr hop)
  · rcases hholds o ho hoid with hst | hop
    · exact .inl hst
    · exact .inr (.inr hop)

theorem Holding.exec {c' : Conn} (h : c.Holding) (hop : op ∈ c.ops) (hex : Executed c c' op)
    (hawaits : c.Awaits op) (hq : c.CarefulOp op) : c'.Holding := by
  obtain ⟨hpanicked, hsids, hclosed, hjs⟩ := exec_flags h hq
  refine ⟨?_, ?_, ?_, ?_, ?_, ?_, ?_, ?_⟩
  · rw [hex.tables.panicked]
    exact hpanicked
  · rw [hex.tables.sids, hex.tables.closed]
    exact hsids
  · intro s hs
    rw [hex.tables.bus] at hs
    rcases exec_bus hs with ⟨hs, hne⟩ | ⟨o, ho, hoid⟩ | ⟨name, x, hx, hid⟩
    · exact h.known hex hawaits hq hne (h.tracked s hs)
    · exact .inr (.inr ⟨o, hex.pushed o ho, hoid⟩)
    · exact .inr (.inl ⟨name, x, by rw [hex.tables.consumers]; exact hx, hid⟩)
  · intro x hx
    rw [hex.tables.running] at hx
    rw [hex.tables.consumers]
    rcases exec_running hx with ⟨hx, hne⟩ | hnew
    · rcases h.running x hx with ⟨name, hname⟩ | ⟨o, ho, hoid⟩
      · rcases exec_consumers hawaits hname with hkept | ⟨⟨o, ho, hoid⟩, -⟩
        · exact .inl ⟨name, hkept⟩
        · exact .inr ⟨o, hex.pushed o ho, hoid⟩
      · rcases hex.kept o ho with rfl | ho
        · rcases exec_stops (c := c) hoid with ⟨o', ho', hoid'⟩ | heq
          · exact .inr ⟨o', hex.pushed o' ho', hoid'⟩
          · exact absurd heq hne
        · exact .inr ⟨o, ho, hoid⟩
    · exact .inl hnew
  · intro name x hx
    rw [hex.tables.consumers] at hx
    rcases exec_consumers_of hx with hx | ⟨hname, -⟩
    · exact h.names name x hx
    · exact hname
  · intro hclosedJs name
    rw [hex.tables.jsClosed] at hclosedJs
    rw [hex.tables.consumers]
    cases hlook : (c.exec op).1.consumers.lookup name with
    | none => rfl
    | some x =>
      exfalso
      rcases exec_consumers_of hlook with hx | ⟨-, r, rfl, -⟩
      · cases hc : c.jsClosed with
        | true =>
          rw [h.jsClosed hc name] at hx
          cases hx
        | false =>
          -- only `closeJs` sets the flag, and it empties the table
          cases op with
          | closeJs sids => cases hlook
          | removeSid | register | close =>
            rw [(exec_sids trivial).2.2.2.1, hc] at hclosedJs
            cases hclosedJs
          | unsubscribe | removeConsumer | replaceConsumer | stop | subscribe | registerConsumer | closeNet =>
            change c.jsClosed = true at hclosedJs
            rw [hc] at hclosedJs
            cases hclosedJs
          | stopSid | onUnsubscribe | onSubscribe | deliver | send | write | batch | endBatch | startDelivery
          | scanned | writeOne =>
            rw [(sameTables_exec trivial).jsClosed, hc] at hclosedJs
            cases hclosedJs
      · change c.jsClosed = false at hq
        change c.jsClosed = true at hclosedJs
        rw [hq] at hclosedJs
        cases hclosedJs
  · intro sids hmem
    rw [hex.tables.closed]
    rcases hex.added _ hmem with hmem | hmem | ⟨x, r, heq⟩
    · exact hclosed (h.closeJs sids hmem)
    · exact exec_closes.1 sids hmem
    · cases heq
  · intro hmem
    rw [hex.tables.closed, hex.tables.jsClosed]
    rcases hex.added _ hmem with hmem | hmem | ⟨x, r, heq⟩
    · exact ⟨hclosed (h.closeNet hmem).1, hjs (h.closeNet hmem).2⟩
    · obtain ⟨⟨sids, rfl⟩, hflag⟩ := exec_closes.2 hmem
      exact ⟨hclosed (h.closeJs sids hop), hflag⟩
    · cases heq

end Conn

end MonsterMQ.Nats
