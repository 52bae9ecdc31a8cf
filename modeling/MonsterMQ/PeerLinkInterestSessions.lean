import MonsterMQ.PeerLinkInterestMatch

/-!
# Sessions of one consumer and its interest

`Manager.servePeer` with the consumer slot, next to the interest table. Every statement that touches the slot
or the table is a step of its own, so the sessions of one consumer interleave freely.
-/

namespace MonsterMQ.PeerLink

open FiniteMaps

namespace InterestTable

variable {t : InterestTable} {p : PeerInterest}

theorem Inv.store_get (h : Inv t) {i : ℕ}
    (hp : t.peers[i]? = some p) {s : InterestTable × PeerInterest} (hs : Served t p s) (j : ℕ) :
    (s.1.store s.2).peers[j]? = if j = i then some s.2 else t.peers[j]? := by
  have hsi : s.2.idx = i := hs.edited.idx.trans (h.idx i p hp)
  have hlen : i < t.peers.length := (List.getElem?_eq_some_iff.mp hp).1
  rw [InterestTable.store, hs.edited.others.peers, hsi, List.getElem?_set]
  by_cases hij : j = i
  · subst hij
    simp [hlen]
  · have : i ≠ j := fun e => hij e.symm
    simp [hij, this]

theorem Inv.onPeer_get (h : Inv t) {i : ℕ} (hp : t.peers[i]? = some p) (hen : p.enabled = true)
    {f : InterestTable → PeerInterest → InterestTable × PeerInterest} (hs : Served t p (f t p)) (j : ℕ) :
    (t.onPeer i f).peers[j]? = if j = i then some (f t p).2 else t.peers[j]? := by
  simp only [InterestTable.onPeer, hp, hen, Bool.not_true, Bool.false_eq_true, ↓reduceIte]
  exact h.store_get hp hs j

structure Control where
  enabled : Bool
  connected : Bool
  state : InterestState
  disconnectedAt : ℤ
  deriving DecidableEq

@[grind =] def control (p : PeerInterest) : Control := ⟨p.enabled, p.connected, p.state, p.disconnectedAt⟩

theorem EntriesOnly.control {s : InterestTable × PeerInterest}
    (h : EntriesOnly t p s) : control s.2 = control p := by
  rw [h.peer]
  rfl

theorem control_connectPeer (t : InterestTable) (p : PeerInterest) (inst : UInt64) (capable : Bool) :
    control (t.connectPeer p inst capable).2 =
      ⟨p.enabled, true, if capable then (if p.dense then .unknown else p.state) else .live,
        p.disconnectedAt⟩ := by
  cases capable with
  | false => rfl
  | true =>
    simp only [connectPeer, Bool.not_true, Bool.false_eq_true, ↓reduceIte]
    split
    · exact (deleteAll_entriesOnly t _ _).control
    · rfl

private theorem control_disconnectPeer (t : InterestTable) (p : PeerInterest) (now : ℤ) :
    control (t.disconnectPeer p now).2 =
      if p.connected then
        ⟨p.enabled, false, if p.state = .live then .disconnected else p.state,
          if p.state = .live then now else p.disconnectedAt⟩
      else control p := by
  cases hc : p.connected with
  | false => simp [disconnectPeer, hc]
  | true =>
    simp only [disconnectPeer, hc, Bool.not_true, Bool.false_eq_true, ↓reduceIte]
    rfl

private theorem control_sweepMarks (t : InterestTable) (p : PeerInterest) (gen : UInt32) (now : ℤ) :
    control (t.sweepMarks p gen now).2 = ⟨p.enabled, p.connected, .live, p.disconnectedAt⟩ := rfl

theorem control_applySnapshotPeer {s : InterestSnapshot}
    {now : ℤ} {r : InterestTable × PeerInterest} (h : t.applySnapshotPeer p s now = .ok r) :
    control r.2 = control p ∨ control r.2 = ⟨p.enabled, p.connected, .live, p.disconnectedAt⟩ := by
  simp only [applySnapshotPeer] at h
  split at h
  · cases h
  · rename_i p' hopen
    have hopened : control p' = control p := by
      simp only [openSnapshot] at hopen
      split at hopen
      · cases hopen
        rfl
      · split at hopen
        · cases hopen
        · split at hopen
          · cases hopen
          · cases hopen
            rfl
    split at h
    · cases h
      exact .inl hopened
    · cases h
      right
      rw [control_sweepMarks]
      simp only [control, Control.mk.injEq] at hopened ⊢
      exact ⟨hopened.1, hopened.2.1, trivial, hopened.2.2.2⟩

theorem control_applyDeltaPeer (t : InterestTable) (p : PeerInterest) (d : InterestDelta) :
    control (t.applyDeltaPeer p d).2 = control p := by
  simp only [applyDeltaPeer]
  split
  · rfl
  · split
    · rfl
    · have hes := (applyEntries_entriesOnly t { p with
        lastGen := d.generation
        haveGen := true } d.entries).control
      split
      · exact hes
      · exact hes

private theorem control_expirePeer (t : InterestTable) (p : PeerInterest) (now : ℤ) :
    control (t.expirePeer p now).2 = control p := by
  simp only [expirePeer]
  split
  · rfl
  · have hdel := (deleteAll_entriesOnly t p
      (filtersWhere p (expired (now - p.disconnectedAt)))).control
    split
    · exact hdel
    · exact hdel

theorem Inv.expire_control (h : Inv t) (now : ℤ) (i : ℕ) :
    (t.expire now).peers[i]?.map control = t.peers[i]?.map control := by
  simp only [InterestTable.expire]
  generalize List.range t.peers.length = is
  induction is generalizing t with
  | nil => rfl
  | cons j js ih =>
    have hstep : Inv (expireAt now t j) ∧
        (expireAt now t j).peers[i]?.map control = t.peers[i]?.map control := by
      simp only [expireAt]
      split
      · exact ⟨h, rfl⟩
      · rename_i p hp
        have hs := expirePeer_served (h.sound j p hp) (h.settled j p hp) now
        refine ⟨(h.except j).store hp hs, ?_⟩
        rw [h.store_get hp hs]
        by_cases hij : i = j
        · subst hij
          simp [hp, control_expirePeer]
        · simp [hij]
    rw [List.foldl_cons, ih hstep.1, hstep.2]

end InterestTable

structure ActiveSession where
  id : ℕ
  inst : UInt64
  deriving DecidableEq

structure Takeover where
  time : ℤ
  oldInst : UInt64
  newInst : UInt64

structure ConsumerSlot where
  active : Option ActiveSession
  takeovers : List Takeover
  refused : FMap UInt64 ℤ
  logConnected : Bool

def takeoverWindow : ℤ := 60 * InterestTable.secondNs
def duplicateRefusal : ℤ := 300 * InterestTable.secondNs

/-- The two instance ids seen so far, zero while unset; `none` for a third one. -/
def noteInstance (ab : UInt64 × UInt64) (id : UInt64) : Option (UInt64 × UInt64) :=
  if ab.1 = 0 ∨ ab.1 = id then some (id, ab.2)
  else if ab.2 = 0 ∨ ab.2 = id then some (ab.1, id)
  else none

def alternatingFrom (ab : UInt64 × UInt64) (n : ℕ) : List Takeover → Bool
  | [] => n ≥ 3 && ab.1 ≠ 0 && ab.2 ≠ 0
  | t :: ts =>
    if t.oldInst = t.newInst then alternatingFrom ab n ts
    else match (noteInstance ab t.oldInst).bind (fun ab => noteInstance ab t.newInst) with
      | none => false
      | some ab => alternatingFrom ab (n + 1) ts

/-- `alternating`: at least three takeovers between exactly two distinct instances. -/
def alternating (ts : List Takeover) : Bool := alternatingFrom (0, 0) 0 ts

namespace ConsumerSlot

/-- `admit`: the slot afterwards, and whether the session was refused as a duplicate. -/
@[grind =] def admitSession (c : ConsumerSlot) (id : ℕ) (inst : UInt64) (now : ℤ) : ConsumerSlot × Bool :=
  let expired := (c.refused.entries.filter (fun e => decide (e.2 < now))).map (·.1)
  let c := { c with refused := eraseAll expired c.refused }
  if inst ∈ c.refused then (c, true)
  else match c.active with
    | none => ({ c with active := some ⟨id, inst⟩ }, false)
    | some a =>
      let takeovers := (c.takeovers ++ [Takeover.mk now a.inst inst]).filter
        (fun t => now - t.time ≤ takeoverWindow)
      if alternating takeovers then
        ({ c with takeovers := [], refused := c.refused.insert inst (now + duplicateRefusal) }, true)
      else
        ({ c with takeovers := takeovers, active := some ⟨id, inst⟩ }, false)

@[grind =] def isActive (c : ConsumerSlot) (id : ℕ) : Bool := c.active.any (·.id = id)

/-- `release` reports whether the session was active; a superseded one changes nothing. -/
@[grind =] def release (c : ConsumerSlot) (id : ℕ) : ConsumerSlot × Bool :=
  if c.isActive id then
    ({ c with active := none, logConnected := false }, true)
  else (c, false)

/-- `connected` marks the log CONNECTED while the session is still active. -/
@[grind =] def connected (c : ConsumerSlot) (id : ℕ) : ConsumerSlot × Bool :=
  if c.isActive id then ({ c with logConnected := true }, true) else (c, false)

end ConsumerSlot

inductive Stage where
  | admitted
  | registered
  | resumed
  | helloSent
  | logConnected
  | running
  | ended
  | released
  | done
  deriving DecidableEq, Repr

structure SlotSession where
  stage : Stage
  inst : UInt64
  capable : Bool

/-- A source with one consumer slot. `lastEnd` notes the last call of `disconnect` that
found the peer connected: whether its interest was LIVE, and the time. -/
structure SlotSys where
  slot : ConsumerSlot
  sessions : List SlotSession
  table : InterestTable
  idx : ℕ
  lastEnd : Option (Bool × ℤ)

inductive SlotStep where
  | admitSession (inst : UInt64) (capable : Bool) (now : ℤ)
  | register (id : ℕ) (ok : Bool)
  | resume (id : ℕ) (ok : Bool)
  | helloOK (id : ℕ) (ok : Bool)
  | connected (id : ℕ)
  | interestConnect (id : ℕ)
  | frame (id : ℕ) (f : InterestFrame) (now : ℤ)
  | runReturns (id : ℕ)
  | release (id : ℕ)
  | interestDisconnect (id : ℕ) (now : ℤ)
  | expire (now : ℤ)

namespace SlotSys

@[grind =] def peer (s : SlotSys) : Option PeerInterest := s.table.peers[s.idx]?

@[grind =] def stageOf (s : SlotSys) (id : ℕ) : Option Stage := s.sessions[id]?.map (·.stage)

@[grind =] def setStage (s : SlotSys) (id : ℕ) (st : Stage) : SlotSys :=
  { s with sessions := s.sessions.modify id (fun x => { x with stage := st }) }

/-- A failure exit of the handshake: `slot.release` and return. -/
@[grind =] def abort (s : SlotSys) (id : ℕ) : SlotSys :=
  { s with slot := (s.slot.release id).1 }.setStage id .done

@[grind =] def advance (s : SlotSys) (id : ℕ) (now next : Stage) (ok : Bool) : SlotSys :=
  if s.stageOf id = some now then (if ok then s.setStage id next else s.abort id) else s

@[grind =] def step (s : SlotSys) : SlotStep → SlotSys
  | .admitSession inst capable now =>
    let (slot, dup) := s.slot.admitSession s.sessions.length inst now
    { s with slot := slot, sessions := s.sessions ++ [⟨if dup then .done else .admitted, inst, capable⟩] }
  | .register id ok => s.advance id .admitted .registered ok
  | .resume id ok => s.advance id .registered .resumed ok
  | .helloOK id ok => s.advance id .resumed .helloSent ok
  | .connected id =>
    if s.stageOf id = some .helloSent then
      let (slot, ok) := s.slot.connected id
      { s with slot := slot }.setStage id (if ok then .logConnected else .done)
    else s
  | .interestConnect id =>
    match s.sessions[id]? with
    | some ⟨.logConnected, inst, capable⟩ =>
      { s with table := s.table.connect s.idx inst capable }.setStage id .running
    | _ => s
  | .frame id f now =>
    if s.stageOf id = some .running then
      match f with
      | .snapshot m => { s with table := (s.table.applySnapshot s.idx m now).1 }
      | .delta m => { s with table := s.table.applyDelta s.idx m }
    else s
  | .runReturns id => if s.stageOf id = some .running then s.setStage id .ended else s
  | .release id =>
    if s.stageOf id = some .ended then
      let (slot, was) := s.slot.release id
      { s with slot := slot }.setStage id (if was then .released else .done)
    else s
  | .interestDisconnect id now =>
    if s.stageOf id = some .released then
      { s with
        table := s.table.disconnect s.idx now
        lastEnd := match s.peer with
          | none => s.lastEnd
          | some p =>
            if p.enabled && p.connected then some (p.state = InterestState.live, now) else s.lastEnd }.setStage
        id .done
    else s
  | .expire now => { s with table := s.table.expire now }

/-- Nobody is between two steps of a handshake, or between `release` and `disconnect`. -/
@[grind =] def quiet (s : SlotSys) : Prop :=
  ∀ x ∈ s.sessions, x.stage = .running ∨ x.stage = .ended ∨ x.stage = .done
deriving Decidable

@[grind =] def ending (s : SlotSys) : Prop := ∃ x ∈ s.sessions, x.stage = .released
deriving Decidable

structure Follows (s : SlotSys) (p : PeerInterest) : Prop where
  idle : s.slot.active = none → ¬ s.ending →
    p.connected = false ∧ p.state ≠ .live ∧
      ∀ now, s.lastEnd = some (true, now) → p.state = .disconnected ∧ p.disconnectedAt = now
  active : s.slot.active.isSome = true → s.slot.logConnected = true → s.quiet → p.connected = true

@[grind =] def start (peers : List Bool) (unknownAll : Bool) (maxFilters maxBytes idx : ℕ) : SlotSys where
  slot := ⟨none, [], ∅, false⟩
  sessions := []
  table := InterestTable.newInterestTable peers unknownAll maxFilters maxBytes
  idx := idx
  lastEnd := none

/-- The active session may give up: the peer is not marked connected, or will be unmarked
by a session that is ending. -/
@[grind =] def mayAbort (s : SlotSys) (id : ℕ) (now : Stage) (ok : Bool) : Prop :=
  ok = false → s.stageOf id = some now → s.slot.isActive id = true →
    s.peer.all (fun p : PeerInterest => !p.connected) = true ∨ s.ending
deriving Decidable

/-- Whether the interest of the active session has been connected. -/
@[grind =] def linked (s : SlotSys) : Bool :=
  s.slot.active.any (fun a => s.stageOf a.id = some .running || s.stageOf a.id = some .ended)

/-- The condition on a step under which the interest follows the slot. -/
@[grind =] def Orderly (s : SlotSys) : SlotStep → Prop
  | .register id ok => s.mayAbort id .admitted ok
  | .resume id ok => s.mayAbort id .registered ok
  | .helloOK id ok => s.mayAbort id .resumed ok
  | .interestConnect id => s.stageOf id = some .logConnected → s.slot.active.isSome = true
  | .interestDisconnect id _ => s.stageOf id = some .released → s.linked = false
  | .frame _ (.snapshot _) _ => s.peer.all (fun p : PeerInterest => p.connected) = true
  | _ => True

instance (s : SlotSys) (a : SlotStep) : Decidable (s.Orderly a) := by
  cases a with
  | frame id f now =>
    cases f <;> (unfold Orderly; infer_instance)
  | _ => unfold Orderly; infer_instance

theorem stageOf_setStage (s : SlotSys) (id j : ℕ) (st : Stage) :
    (s.setStage id st).stageOf j = if j = id then (s.stageOf j).map (fun _ => st) else s.stageOf j := by
  simp only [setStage, stageOf, List.getElem?_modify]
  by_cases hj : j = id
  · subst hj
    simp [Function.comp_def]
  · have : id ≠ j := fun e => hj e.symm
    simp [hj, this]

variable {s : SlotSys} {id : ℕ}

theorem stageOf_setStage_ne {j : ℕ} (st : Stage) (h : j ≠ id) :
    (s.setStage id st).stageOf j = s.stageOf j := by
  rw [stageOf_setStage, if_neg h]

theorem stageOf_setStage_self {old : Stage} (st : Stage)
    (h : s.stageOf id = some old) : (s.setStage id st).stageOf id = some st := by
  simp [stageOf_setStage, h]

theorem ending_iff (s : SlotSys) : s.ending ↔ ∃ id, s.stageOf id = some .released := by
  constructor
  · rintro ⟨x, hx, hst⟩
    obtain ⟨i, hi, rfl⟩ := List.mem_iff_getElem.mp hx
    exact ⟨i, by simp [stageOf, hi, hst]⟩
  · rintro ⟨id, hid⟩
    simp only [stageOf, Option.map_eq_some_iff] at hid
    obtain ⟨x, hx, hst⟩ := hid
    exact ⟨x, List.mem_of_getElem? hx, hst⟩

/-- The stages a session passes while it can be active. -/
@[grind =] def openStage : Stage → Bool
  | .released => false
  | .done => false
  | _ => true

structure Inv (s : SlotSys) (p : PeerInterest) : Prop where
  table : s.table.Inv
  peer : s.peer = some p
  enabled : p.enabled = true
  active : ∀ a, s.slot.active = some a → ∃ st, s.stageOf a.id = some st ∧ openStage st = true
  linked : s.linked = true → p.connected = true
  idle : s.slot.active = none → p.connected = false ∨ s.ending
  down : p.connected = false → p.state ≠ .live ∧
    ∀ now, s.lastEnd = some (true, now) → p.state = .disconnected ∧ p.disconnectedAt = now

theorem linked_iff (s : SlotSys) : s.linked = true ↔ ∃ a, s.slot.active = some a ∧
      (s.stageOf a.id = some .running ∨ s.stageOf a.id = some .ended) := by
  cases h : s.slot.active with
  | none | some a => simp [linked, h]

variable {p : PeerInterest}

theorem Inv.follows (h : s.Inv p) : s.Follows p := by
  constructor
  · intro hnone hending
    have hconn := (h.idle hnone).resolve_right hending
    exact ⟨hconn, h.down hconn⟩
  · intro hsome _ hquiet
    obtain ⟨a, ha⟩ := Option.isSome_iff_exists.mp hsome
    obtain ⟨st, hst, hopen⟩ := h.active a ha
    apply h.linked
    rw [linked_iff]
    refine ⟨a, ha, ?_⟩
    simp only [stageOf, Option.map_eq_some_iff] at hst
    obtain ⟨x, hx, hxs⟩ := hst
    rcases hquiet x (List.mem_of_getElem? hx) with hq | hq | hq
    · exact .inl (by simp [stageOf, hx, hq])
    · exact .inr (by simp [stageOf, hx, hq])
    · rw [← hxs, hq] at hopen
      cases hopen

theorem isActive_iff (c : ConsumerSlot) (id : ℕ) :
    c.isActive id = true ↔ ∃ a, c.active = some a ∧ a.id = id := by
  cases h : c.active <;> simp [ConsumerSlot.isActive, h]

private theorem admit_active (c : ConsumerSlot) (id : ℕ) (inst : UInt64) (now : ℤ) :
    (c.admitSession id inst now).1.active =
      if (c.admitSession id inst now).2 then c.active else some ⟨id, inst⟩ := by
  simp only [ConsumerSlot.admitSession]
  split
  · rfl
  · split
    · rfl
    · split <;> rfl

theorem Inv.of_control {p' : PeerInterest} (h : s.Inv p) {t : InterestTable}
    (ht : t.Inv) (hget : t.peers[s.idx]? = some p')
    (hc : InterestTable.control p' = InterestTable.control p) : Inv { s with table := t } p' := by
  simp only [InterestTable.control, InterestTable.Control.mk.injEq] at hc
  obtain ⟨hen, hconn, hstate, hat⟩ := hc
  refine ⟨ht, hget, hen ▸ h.enabled, h.active, ?_, ?_, ?_⟩
  · rw [hconn]
    exact h.linked
  · rw [hconn]
    exact h.idle
  · rw [hconn, hstate, hat]
    exact h.down

theorem Inv.setStage (h : s.Inv p) {old st : Stage}
    (hold : s.stageOf id = some old) (hnot : old ≠ .released)
    (hopen : s.slot.isActive id = true → openStage st = true ∧
      ((st = .running ∨ st = .ended) → p.connected = true)) : (s.setStage id st).Inv p := by
  refine ⟨h.table, h.peer, h.enabled, ?_, ?_, ?_, h.down⟩
  · intro a ha
    by_cases hid : a.id = id
    · refine ⟨st, ?_, (hopen ((isActive_iff _ _).mpr ⟨a, ha, hid⟩)).1⟩
      rw [hid]
      exact stageOf_setStage_self st hold
    · rw [stageOf_setStage_ne st hid]
      exact h.active a ha
  · intro hl
    obtain ⟨a, ha, hst⟩ := (linked_iff _).mp hl
    by_cases hid : a.id = id
    · rw [hid, stageOf_setStage_self st hold, Option.some.injEq, Option.some.injEq] at hst
      exact (hopen ((isActive_iff _ _).mpr ⟨a, ha, hid⟩)).2 hst
    · rw [stageOf_setStage_ne st hid] at hst
      exact h.linked ((linked_iff s).mpr ⟨a, ha, hst⟩)
  · intro hnone
    rcases h.idle hnone with hc | he
    · exact .inl hc
    · right
      obtain ⟨j, hj⟩ := (ending_iff s).mp he
      have hne : j ≠ id := by
        rintro rfl
        rw [hj, Option.some.injEq] at hold
        exact hnot hold.symm
      exact (ending_iff _).mpr ⟨j, by rw [stageOf_setStage_ne st hne]; exact hj⟩

theorem Inv.abort (h : s.Inv p) {old : Stage}
    (hold : s.stageOf id = some old) (hnot : old ≠ .released)
    (hmay : s.slot.isActive id = true → p.connected = false ∨ s.ending) : (s.abort id).Inv p := by
  cases hact : s.slot.isActive id with
  | false =>
    have heq : s.abort id = s.setStage id .done := by simp [SlotSys.abort, ConsumerSlot.release, hact]
    rw [heq]
    exact h.setStage hold hnot (fun ha => by rw [hact] at ha; cases ha)
  | true =>
    have hslot : (s.slot.release id).1.active = none := by simp [ConsumerSlot.release, hact]
    have hempty : Inv { s with slot := (s.slot.release id).1 } p := by
      refine ⟨h.table, h.peer, h.enabled, ?_, ?_, ?_, h.down⟩
      · intro a ha
        rw [hslot] at ha
        cases ha
      · intro hl
        obtain ⟨a, ha, -⟩ := (linked_iff _).mp hl
        rw [hslot] at ha
        cases ha
      · intro _
        exact hmay hact
    refine hempty.setStage hold hnot (fun ha => ?_)
    obtain ⟨a, ha, -⟩ := (isActive_iff _ _).mp ha
    rw [hslot] at ha
    cases ha

theorem Inv.advance (h : s.Inv p) {now next : Stage}
    {ok : Bool} (hnot : now ≠ .released) (hnext : openStage next = true)
    (hrun : next ≠ .running) (hend : next ≠ .ended) (ho : s.mayAbort id now ok) :
    (s.advance id now next ok).Inv p := by
  simp only [SlotSys.advance]
  split
  · rename_i hst
    cases ok with
    | true => exact h.setStage hst hnot (fun _ => ⟨hnext, fun hor => (hor.elim hrun hend).elim⟩)
    | false =>
      refine h.abort hst hnot (fun hact => ?_)
      have := ho rfl hst hact
      rw [h.peer] at this
      simpa using this
  · exact h

theorem Inv.admitSession (h : s.Inv p) (inst : UInt64) (capable : Bool)
    (now : ℤ) : (s.step (.admitSession inst capable now)).Inv p := by
  have hold : ∀ j st, s.stageOf j = some st → (s.step (.admitSession inst capable now)).stageOf j = some st := by
    intro j st hj
    simp only [stageOf, Option.map_eq_some_iff] at hj ⊢
    obtain ⟨x, hx, hxs⟩ := hj
    have hlt : j < s.sessions.length := (List.getElem?_eq_some_iff.mp hx).1
    exact ⟨x, by simp [SlotSys.step, List.getElem?_append_left hlt, hx], hxs⟩
  have hactive := admit_active s.slot s.sessions.length inst now
  cases hdup : (s.slot.admitSession s.sessions.length inst now).2 with
  | true =>
    rw [hdup, if_pos rfl] at hactive
    refine ⟨h.table, h.peer, h.enabled, ?_, ?_, ?_, h.down⟩
    · intro a ha
      rw [SlotSys.step, hactive] at ha
      obtain ⟨st, hst, hopen⟩ := h.active a ha
      exact ⟨st, hold _ _ hst, hopen⟩
    · intro hl
      obtain ⟨a, ha, hst⟩ := (linked_iff _).mp hl
      rw [SlotSys.step, hactive] at ha
      obtain ⟨st, hst', hopen⟩ := h.active a ha
      rw [hold _ _ hst', ← hst'] at hst
      exact h.linked ((linked_iff s).mpr ⟨a, ha, hst⟩)
    · intro hnone
      rw [SlotSys.step, hactive] at hnone
      rcases h.idle hnone with hc | he
      · exact .inl hc
      · right
        obtain ⟨j, hj⟩ := (ending_iff s).mp he
        exact (ending_iff _).mpr ⟨j, hold _ _ hj⟩
  | false =>
    rw [hdup, if_neg (by simp)] at hactive
    have hnew : (s.step (.admitSession inst capable now)).stageOf s.sessions.length = some .admitted := by
      simp [SlotSys.step, stageOf, hdup]
    refine ⟨h.table, h.peer, h.enabled, ?_, ?_, ?_, h.down⟩
    · intro a ha
      rw [SlotSys.step, hactive] at ha
      cases ha
      exact ⟨.admitted, hnew, rfl⟩
    · intro hl
      obtain ⟨a, ha, hst⟩ := (linked_iff _).mp hl
      rw [SlotSys.step, hactive] at ha
      cases ha
      rw [hnew] at hst
      rcases hst with hst | hst <;> cases hst
    · intro hnone
      rw [SlotSys.step, hactive] at hnone
      cases hnone

theorem Inv.connected (h : s.Inv p) (id : ℕ) : (s.step (.connected id)).Inv p := by
  simp only [SlotSys.step]
  split
  · rename_i hst
    cases hact : s.slot.isActive id with
    | true =>
      have hslot : Inv { s with slot := (s.slot.connected id).1 } p := by
        simp only [ConsumerSlot.connected, hact, ↓reduceIte]
        exact ⟨h.table, h.peer, h.enabled, h.active, h.linked, h.idle, h.down⟩
      refine hslot.setStage hst (by decide) (fun _ => ?_)
      simp [ConsumerSlot.connected, hact, openStage]
    | false =>
      have hslot : (s.slot.connected id).1 = s.slot := by simp [ConsumerSlot.connected, hact]
      have hstage : (s.slot.connected id).2 = false := by simp [ConsumerSlot.connected, hact]
      rw [hslot, hstage]
      exact h.setStage hst (by decide) (fun ha => by rw [hact] at ha; cases ha)
  · exact h

theorem Inv.interestConnect (h : s.Inv p)
    (ho : s.Orderly (.interestConnect id)) : ∃ p', (s.step (.interestConnect id)).Inv p' := by
  simp only [SlotSys.step]
  split
  · rename_i inst capable hsess
    have hst : s.stageOf id = some .logConnected := by simp [stageOf, hsess]
    have hserved := InterestTable.connectPeer_served (h.table.sound _ _ h.peer) inst capable
    have hget := h.table.onPeer_get (f := fun t p => t.connectPeer p inst capable) h.peer h.enabled
      hserved s.idx
    rw [if_pos rfl] at hget
    have hc := InterestTable.control_connectPeer s.table p inst capable
    simp only [InterestTable.control, InterestTable.Control.mk.injEq] at hc
    obtain ⟨a, ha⟩ := Option.isSome_iff_exists.mp (ho hst)
    have hconn : Inv { s with table := s.table.connect s.idx inst capable }
        (s.table.connectPeer p inst capable).2 := by
      refine ⟨h.table.connect _ _ _, hget, hc.1.trans h.enabled, h.active, fun _ => hc.2.1, ?_, ?_⟩
      · intro hnone
        have : s.slot.active = none := hnone
        rw [ha] at this
        cases this
      · intro hoff
        rw [hc.2.1] at hoff
        cases hoff
    exact ⟨_, hconn.setStage hst (by decide) (fun _ => ⟨rfl, fun _ => hc.2.1⟩)⟩
  · exact ⟨p, h⟩

theorem Inv.frame (h : s.Inv p) {f : InterestFrame} {now : ℤ}
    (ho : s.Orderly (.frame id f now)) : ∃ p', (s.step (.frame id f now)).Inv p' := by
  simp only [SlotSys.step]
  split
  · cases f with
    | delta d =>
      have hserved := InterestTable.applyDeltaPeer_served (h.table.sound _ _ h.peer)
        (h.table.settled _ _ h.peer) d
      have hget := h.table.onPeer_get (f := fun t p => t.applyDeltaPeer p d) h.peer h.enabled
        hserved s.idx
      rw [if_pos rfl] at hget
      exact ⟨_, h.of_control (h.table.applyDelta _ _) hget
        (InterestTable.control_applyDeltaPeer s.table p d)⟩
    | snapshot m =>
      have htable := h.table.applySnapshot s.idx m now
      have hpeer : s.table.peers[s.idx]? = some p := h.peer
      cases hr : s.table.applySnapshotPeer p m now with
      | error e =>
        have heq : (s.table.applySnapshot s.idx m now).1 = s.table := by
          simp [InterestTable.applySnapshot, hpeer, h.enabled, hr]
        simp only [heq]
        exact ⟨p, h⟩
      | ok r =>
        have heq : (s.table.applySnapshot s.idx m now).1 = r.1.store r.2 := by
          simp [InterestTable.applySnapshot, hpeer, h.enabled, hr]
        have hserved := InterestTable.applySnapshotPeer_served (h.table.sound _ _ h.peer)
          (h.table.settled _ _ h.peer) hr
        have hget := h.table.store_get h.peer hserved s.idx
        rw [if_pos rfl, ← heq] at hget
        have hconn : p.connected = true := by
          have hall : s.peer.all (fun p : PeerInterest => p.connected) = true := ho
          rw [h.peer] at hall
          simpa using hall
        rcases InterestTable.control_applySnapshotPeer hr with hc | hc
        · exact ⟨_, h.of_control htable hget hc⟩
        · simp only [InterestTable.control, InterestTable.Control.mk.injEq] at hc
          obtain ⟨hen, hcc, -, -⟩ := hc
          refine ⟨r.2, htable, hget, hen.trans h.enabled, h.active, fun _ => hcc.trans hconn, ?_, ?_⟩
          · intro hnone
            rcases h.idle hnone with hoff | he
            · rw [hconn] at hoff
              cases hoff
            · exact .inr he
          · intro hoff
            rw [hcc, hconn] at hoff
            cases hoff
  · exact ⟨p, h⟩

theorem Inv.runReturns (h : s.Inv p) (id : ℕ) : (s.step (.runReturns id)).Inv p := by
  simp only [SlotSys.step]
  split
  · rename_i hst
    refine h.setStage hst (by decide) (fun hact => ⟨rfl, fun _ => ?_⟩)
    obtain ⟨a, ha, hid⟩ := (isActive_iff _ _).mp hact
    exact h.linked ((linked_iff s).mpr ⟨a, ha, .inl (by rw [hid]; exact hst)⟩)
  · exact h

theorem Inv.release (h : s.Inv p) (id : ℕ) : (s.step (.release id)).Inv p := by
  simp only [SlotSys.step]
  split
  · rename_i hst
    cases hact : s.slot.isActive id with
    | true =>
      have hslot : (s.slot.release id).1.active = none := by simp [ConsumerSlot.release, hact]
      have hwas : (s.slot.release id).2 = true := by simp [ConsumerSlot.release, hact]
      rw [hwas]
      refine ⟨h.table, h.peer, h.enabled, ?_, ?_, ?_, h.down⟩
      · intro a ha
        have : (s.slot.release id).1.active = some a := ha
        rw [hslot] at this
        cases this
      · intro hl
        obtain ⟨a, ha, -⟩ := (linked_iff _).mp hl
        have : (s.slot.release id).1.active = some a := ha
        rw [hslot] at this
        cases this
      · intro _
        exact .inr ((ending_iff _).mpr ⟨id, stageOf_setStage_self _ hst⟩)
    | false =>
      have hslot : (s.slot.release id).1 = s.slot := by simp [ConsumerSlot.release, hact]
      have hwas : (s.slot.release id).2 = false := by simp [ConsumerSlot.release, hact]
      rw [hslot, hwas]
      exact h.setStage hst (by decide) (fun ha => by rw [hact] at ha; cases ha)
  · exact h

/-- A session at `released` is not the active one. -/
theorem Inv.released_not_active (h : s.Inv p)
    (hst : s.stageOf id = some .released) {a : ActiveSession} (ha : s.slot.active = some a) : a.id ≠ id := by
  rintro rfl
  obtain ⟨st, hst', hopen⟩ := h.active a ha
  rw [hst, Option.some.injEq] at hst'
  rw [← hst'] at hopen
  cases hopen

theorem Inv.interestDisconnect (h : s.Inv p) {now : ℤ}
    (ho : s.Orderly (.interestDisconnect id now)) : ∃ p', (s.step (.interestDisconnect id now)).Inv p' := by
  by_cases hst : s.stageOf id = some .released
  · have hserved := InterestTable.disconnectPeer_served (h.table.sound _ _ h.peer)
      (h.table.settled _ _ h.peer) now
    have hget := h.table.onPeer_get (f := fun t p => t.disconnectPeer p now) h.peer h.enabled
      hserved s.idx
    rw [if_pos rfl] at hget
    have hc := InterestTable.control_disconnectPeer s.table p now
    have hoff : (s.table.disconnectPeer p now).2.connected = false := by
      cases hconn : p.connected with
      | true =>
        rw [hconn, if_pos rfl] at hc
        exact congrArg InterestTable.Control.connected hc
      | false =>
        rw [hconn, if_neg (by simp)] at hc
        exact (congrArg InterestTable.Control.connected hc).trans hconn
    have hstage : ∀ j, j ≠ id → (s.step (.interestDisconnect id now)).stageOf j = s.stageOf j := by
      intro j hj
      simp only [SlotSys.step, hst, ↓reduceIte]
      exact stageOf_setStage_ne .done hj
    have hslot : (s.step (.interestDisconnect id now)).slot = s.slot := by
      simp only [SlotSys.step, hst, ↓reduceIte]
      rfl
    have htable : (s.step (.interestDisconnect id now)).table = s.table.disconnect s.idx now := by
      simp only [SlotSys.step, hst, ↓reduceIte]
      rfl
    have hidx : (s.step (.interestDisconnect id now)).idx = s.idx := by
      simp only [SlotSys.step, hst, ↓reduceIte]
      rfl
    have hlast : (s.step (.interestDisconnect id now)).lastEnd =
        if p.connected then some (decide (p.state = .live), now) else s.lastEnd := by
      simp only [SlotSys.step, hst, ↓reduceIte, SlotSys.setStage, h.peer, h.enabled, Bool.true_and]
    refine ⟨(s.table.disconnectPeer p now).2, ?_⟩
    refine ⟨?_, ?_, ?_, ?_, ?_, ?_, ?_⟩
    · rw [htable]
      exact h.table.disconnect _ _
    · rw [SlotSys.peer, htable, hidx]
      exact hget
    · have := congrArg InterestTable.Control.enabled hc
      split at this
      · exact this.trans h.enabled
      · exact this.trans h.enabled
    · intro a ha
      rw [hslot] at ha
      rw [hstage a.id (h.released_not_active hst ha)]
      exact h.active a ha
    · intro hl
      obtain ⟨a, ha, hrun⟩ := (linked_iff _).mp hl
      rw [hslot] at ha
      rw [hstage a.id (h.released_not_active hst ha)] at hrun
      have hno := ho hst
      rw [(linked_iff s).mpr ⟨a, ha, hrun⟩] at hno
      cases hno
    · intro _
      exact .inl hoff
    · intro _
      rw [hlast]
      have hstate := congrArg InterestTable.Control.state hc
      have hat := congrArg InterestTable.Control.disconnectedAt hc
      cases hconn : p.connected with
      | true =>
        rw [hconn, if_pos rfl] at hstate hat
        constructor
        · intro hlive
          rw [InterestTable.control] at hstate
          rw [hlive] at hstate
          simp only at hstate
          split at hstate
          · cases hstate
          · rename_i hne
            exact hne hstate.symm
        · intro t ht
          simp only [↓reduceIte, Option.some.injEq, Prod.mk.injEq, decide_eq_true_eq] at ht
          obtain ⟨hlive, rfl⟩ := ht
          simp only [hlive, ↓reduceIte] at hstate hat
          exact ⟨hstate, hat⟩
      | false =>
        rw [hconn, if_neg (by simp)] at hstate hat
        have hdown := h.down hconn
        simp only [Bool.false_eq_true, ↓reduceIte]
        have hs : (s.table.disconnectPeer p now).2.state = p.state := hstate
        have ha : (s.table.disconnectPeer p now).2.disconnectedAt = p.disconnectedAt := hat
        rw [hs, ha]
        exact hdown
  · refine ⟨p, ?_⟩
    simp only [SlotSys.step, hst, ↓reduceIte]
    exact h

theorem Inv.step (h : s.Inv p) {a : SlotStep} (ho : s.Orderly a) :
    ∃ p', (s.step a).Inv p' := by
  cases a with
  | admitSession inst capable now => exact ⟨p, h.admitSession inst capable now⟩
  | register id ok | resume id ok | helloOK id ok =>
    exact ⟨p, h.advance (by decide) rfl (by decide) (by decide) ho⟩
  | connected id => exact ⟨p, h.connected id⟩
  | interestConnect id => exact h.interestConnect ho
  | frame id f now => exact h.frame ho
  | runReturns id => exact ⟨p, h.runReturns id⟩
  | release id => exact ⟨p, h.release id⟩
  | interestDisconnect id now => exact h.interestDisconnect ho
  | expire now =>
    have hget := h.table.expire_control now s.idx
    have hpeer : s.table.peers[s.idx]? = some p := h.peer
    rw [hpeer, Option.map_some, Option.map_eq_some_iff] at hget
    obtain ⟨p', hp', hc⟩ := hget
    exact ⟨p', h.of_control (h.table.expire now) hp' hc⟩

theorem start_inv (unknownAll : Bool) (maxFilters maxBytes : ℕ) {peers : List Bool} {idx : ℕ}
    (hlen : peers.length ≤ 64) (hidx : peers[idx]? = some true) :
    (start peers unknownAll maxFilters maxBytes idx).Inv (InterestTable.newPeer idx true) := by
  refine ⟨InterestTable.newInterestTable_inv hlen _ _ _, ?_, rfl, ?_, ?_, ?_, ?_⟩
  · rw [SlotSys.peer, start, InterestTable.newInterestTable_peers, List.getElem?_mapIdx, hidx]
    rfl
  · intro a ha
    cases ha
  · intro hl
    cases hl
  · exact fun _ => .inl rfl
  · intro _
    exact ⟨by simp [InterestTable.newPeer], fun now h => by cases h⟩

/-- In every run whose steps are orderly the interest of an enabled consumer follows its
slot: not connected without an active session, connected with one. -/
theorem run_interest_follows (unknownAll : Bool) (maxFilters maxBytes : ℕ) {peers : List Bool} {idx : ℕ}
    (hlen : peers.length ≤ 64) (hidx : peers[idx]? = some true) {steps : List SlotStep}
    (hrun : StateRuns.Along step Orderly (start peers unknownAll maxFilters maxBytes idx) steps) :
    ∃ p, (StateRuns.run step (start peers unknownAll maxFilters maxBytes idx) steps).peer = some p ∧
      (StateRuns.run step (start peers unknownAll maxFilters maxBytes idx) steps).Follows p := by
  obtain ⟨p, hp⟩ := StateRuns.run_invariant (P := fun s => ∃ p, s.Inv p)
    (fun s a ⟨p, hp⟩ ho => hp.step ho) ⟨_, start_inv unknownAll maxFilters maxBytes hlen hidx⟩ hrun
  exact ⟨p, hp.peer, hp.follows⟩

def firstSession : List SlotStep :=
  [.admitSession 5 true 0, .register 0 true, .resume 0 true, .helloOK 0 true, .connected 0, .interestConnect 0,
    .frame 0 (.snapshot ⟨1, 3, []⟩) 1]

/-- The session ends, and the interest is disconnected. -/
theorem run_interest_follows_sample :
    let steps := firstSession ++ [.runReturns 0, .release 0, .interestDisconnect 0 9]
    ∃ p, (StateRuns.run step (start [true] false 10 100 0) steps).peer = some p ∧
      p.connected = false ∧ p.state = .disconnected ∧ p.disconnectedAt = 9 := by
  intro steps
  have hidx : [true][0]? = some true := rfl
  have hrun : StateRuns.Along step Orderly (start [true] false 10 100 0) steps := by decide
  obtain ⟨p, hp, hf⟩ := run_interest_follows false 10 100 (by decide) hidx hrun
  have hidle := hf.idle (by decide) (by decide)
  exact ⟨p, hp, hidle.1, hidle.2.2 9 (by decide)⟩

/-- A second session takes over, fails to resume, and leaves the peer marked connected and
LIVE with nobody connected. -/
theorem takeover_failure_keeps_connected : ∃ steps : List SlotStep, ∃ p,
      (StateRuns.run step (start [true] false 10 100 0) steps).peer = some p ∧
      (StateRuns.run step (start [true] false 10 100 0) steps).quiet ∧
      ¬ (StateRuns.run step (start [true] false 10 100 0) steps).Follows p := by
  refine ⟨firstSession ++ [.admitSession 5 true 2, .runReturns 0, .release 0, .register 1 true, .resume 1 false],
    ?_⟩
  obtain ⟨p, hp⟩ := Option.isSome_iff_exists.mp (show (StateRuns.run step (start [true] false 10 100 0)
    (firstSession ++ [.admitSession 5 true 2, .runReturns 0, .release 0, .register 1 true,
      .resume 1 false])).peer.isSome = true by decide)
  refine ⟨p, hp, by decide, fun hf => ?_⟩
  have hidle := (hf.idle (by decide) (by decide)).1
  have hconn : (StateRuns.run step (start [true] false 10 100 0) (firstSession ++ [.admitSession 5 true 2,
      .runReturns 0, .release 0, .register 1 true, .resume 1 false])).peer.map (·.connected) = some true := by
    decide
  rw [hp, Option.map_some, Option.some.injEq, hidle] at hconn
  cases hconn

end SlotSys

end MonsterMQ.PeerLink
