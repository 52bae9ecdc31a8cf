import MonsterMQ.PeerLinkInterestLink

/-!
# Runs of an interest link

A tracker with its cursors at the consumer, frames on their way, and the interest table at the source.
-/

namespace MonsterMQ.PeerLink

open LittleEndian FiniteMaps List

inductive TrackerOp where
  | subscriptionAdded (client f group : Bytes) (inline : Bool) (inlineID : ℤ) (hc : HoldClass)
  | subscriptionRemoved (client f group : Bytes) (inline : Bool) (inlineID : ℤ)
  | filtersAdded (fs : List Bytes)
  | filtersRemoved (fs : List Bytes)
  | setProvided (source : Bytes) (vol per : List Bytes)
  | restore (client : Bytes) (fs : List Bytes) (hc : HoldClass)
  | dropRestored (client : Bytes)
  | reclassify (client : Bytes) (hc : HoldClass)
  | flush
  | close

namespace InterestTracker

@[grind =] def apply (o : MapOrder) (t : InterestTracker) : TrackerOp → InterestTracker
  | .subscriptionAdded client f group inline inlineID hc =>
    t.subscriptionAdded o client f group inline inlineID hc
  | .subscriptionRemoved client f group inline inlineID =>
    t.subscriptionRemoved o client f group inline inlineID
  | .filtersAdded fs => t.filtersAdded o fs
  | .filtersRemoved fs => t.filtersRemoved o fs
  | .setProvided source vol per => t.setProvided o source vol per
  | .restore client fs hc => t.restore o client fs hc
  | .dropRestored client => t.dropRestoredLocked o client
  | .reclassify client hc => t.reclassify o client hc
  | .flush => t.flushLocked o
  | .close => t.close

theorem apply_moves {t : InterestTracker} (ht : t.Consistent) (o : MapOrder) (op : TrackerOp) :
    Moves t (t.apply o op) := by
  cases op with
  | subscriptionAdded client f group inline inlineID hc =>
    exact subscriptionAdded_moves ht.counted o client f group inline inlineID hc
  | subscriptionRemoved client f group inline inlineID =>
    exact subscriptionRemoved_moves ht.counted o client f group inline inlineID
  | filtersAdded fs => exact filtersAdded_moves ht.counted o fs
  | filtersRemoved fs => exact filtersRemoved_moves ht.counted o fs
  | setProvided source vol per => exact setProvided_moves ht.counted o source vol per
  | restore client fs hc => exact restore_moves ht.counted o client fs hc
  | dropRestored client => exact dropRestoredLocked_moves ht.counted o client
  | reclassify client hc => exact reclassify_moves ht.counted o client hc
  | flush => exact (Moves.refl t).flush o
  | close => exact (Moves.refl t).keep ht.counted ⟨rfl, rfl, rfl, rfl, rfl⟩ rfl rfl

theorem Synced.table {t : InterestTracker} {table table' : InterestTable} {c : ℕ}
    {sent : List InterestFrame} {g : Gate} {sh : Shadow} (h : Synced t table c sent g sh)
    (hfilters : table'.maxFilters = table.maxFilters) (hbytes : table'.maxBytes = table.maxBytes) :
    Synced t table' c sent g sh := by
  obtain ⟨cur, hcur, hs⟩ := h
  refine ⟨cur, hcur, hs.emptied, ?_, hs.gate, ?_⟩
  · intro fr hfr
    have hv := hs.valid fr hfr
    cases fr with
    | snapshot s | delta d =>
      intro e he
      simpa only [InterestTable.validEntry, hbytes] using hv e he
  · rw [hfilters]
    exact hs.set

end InterestTracker

inductive FrameOutcome where
  | applied
  | ignored
  | rejected (e : InterestError)

namespace InterestTable

def outdated (t : InterestTable) (idx : ℕ) (d : InterestDelta) : Bool :=
  t.peers[idx]?.any (fun p : PeerInterest => p.haveGen && d.generation ≤ p.lastGen)

@[grind =] def receive (t : InterestTable) (idx : ℕ) (now : ℤ) : InterestFrame → InterestTable × FrameOutcome
  | .snapshot s =>
    match t.applySnapshot idx s now with
    | (t, none) => (t, .applied)
    | (t, some e) => (t, .rejected e)
  | .delta d => (t.applyDelta idx d, if t.outdated idx d then .ignored else .applied)

end InterestTable

namespace InterestTable

/-- A frame has changed the entries of one consumer, whose peer agrees with its own session. -/
structure Undisturbed (t : InterestTable) (idx : ℕ) (r : InterestTable) (g : Gate) (sh : Shadow) : Prop where
  inv : Inv r
  maxFilters : r.maxFilters = t.maxFilters
  maxBytes : r.maxBytes = t.maxBytes
  peer : ∃ p : PeerInterest, r.peers[idx]? = some p ∧ p.enabled = true ∧ Agrees p g sh

/-- A frame the gate lets through is applied, and the peer keeps up with it. -/
structure KeptUp (t : InterestTable) (idx : ℕ) (f : InterestFrame) (r : InterestTable × FrameOutcome)
    (g : Gate) (sh : Shadow) : Prop extends Undisturbed t idx r.1 g (sh.step t.maxFilters f) where
  applied : r.2 = .applied

section

variable {t : InterestTable} (h : Inv t) {idx : ℕ} {p : PeerInterest} (hp : t.peers[idx]? = some p)
  (hen : p.enabled = true) {g : Gate} {sh : Shadow}
include h hp hen

theorem Inv.receive_snapshot {s : InterestSnapshot} {now : ℤ} {r : InterestTable × PeerInterest}
    (hr : t.applySnapshotPeer p s now = .ok r) (ha : Agrees r.2 g sh) :
    Undisturbed t idx (t.receive idx now (.snapshot s)).1 g sh ∧
      (t.receive idx now (.snapshot s)).2 = .applied := by
  have hs := applySnapshotPeer_served (h.sound idx p hp) (h.settled idx p hp) hr
  have hkeep : r.2.enabled = true := by
    rcases control_applySnapshotPeer hr with hc | hc
    · exact (congrArg Control.enabled hc).trans hen
    · exact (congrArg Control.enabled hc).trans hen
  have heq : t.receive idx now (.snapshot s) = (r.1.store r.2, .applied) := by
    simp only [InterestTable.receive, InterestTable.applySnapshot, hp, hen, Bool.not_true,
      Bool.false_eq_true, ↓reduceIte, hr]
  rw [heq]
  exact ⟨⟨(h.except idx).store hp hs, hs.edited.others.maxFilters, hs.edited.others.maxBytes,
    r.2, (h.store_get hp hs idx).trans (if_pos rfl), hkeep, ha⟩, rfl⟩

theorem Inv.receive_delta {d : InterestDelta} (ha : Agrees (t.applyDeltaPeer p d).2 g sh) (now : ℤ) :
    Undisturbed t idx (t.receive idx now (.delta d)).1 g sh := by
  have hs := applyDeltaPeer_served (h.sound idx p hp) (h.settled idx p hp) d
  have hkeep : (t.applyDeltaPeer p d).2.enabled = true :=
    (congrArg Control.enabled (control_applyDeltaPeer t p d)).trans hen
  have heq : (t.receive idx now (.delta d)).1 = (t.applyDeltaPeer p d).1.store (t.applyDeltaPeer p d).2 := by
    simp only [InterestTable.receive, InterestTable.applyDelta, InterestTable.onPeer, hp, hen,
      Bool.not_true, Bool.false_eq_true, ↓reduceIte]
  rw [heq]
  exact ⟨(h.except idx).store hp hs, hs.edited.others.maxFilters, hs.edited.others.maxBytes,
    (t.applyDeltaPeer p d).2, (h.store_get hp hs idx).trans (if_pos rfl), hkeep, ha⟩

theorem Agrees.receive {g' : Gate} (ha : Agrees p g sh) {f : InterestFrame} (hg : g.step f = some g')
    (hv : FrameValid t f) (now : ℤ) : KeptUp t idx f (t.receive idx now f) g' sh := by
  cases f with
  | snapshot s =>
    obtain ⟨r, hr, hagree⟩ := ha.snapshot hg hv now
    obtain ⟨htable, hout⟩ := h.receive_snapshot hp hen hr hagree
    exact ⟨htable, hout⟩
  | delta d =>
    obtain ⟨hnew, hagree⟩ := ha.delta hg hv
    refine ⟨h.receive_delta hp hen hagree now, if_neg ?_⟩
    rw [outdated, hp]
    simpa using hnew

end

end InterestTable

/-- One puller and the source it reads from. `gate` and `shadow` say what the frames of the
puller mean that were applied so far. -/
structure InterestLink where
  tracker : InterestTracker
  cursor : Option ℕ
  inFlight : List InterestFrame
  table : InterestTable
  idx : ℕ
  rejected : ℕ
  ignored : ℕ
  gate : Gate
  shadow : Shadow

inductive InterestLinkStep where
  | track (o : MapOrder) (a : TrackerOp)
  | attach (o : MapOrder)
  | take (o : MapOrder)
  | attachOther (o : MapOrder)
  | takeOther (o : MapOrder) (c : ℕ)
  | deliver (now : ℤ)

namespace InterestLink

@[grind =] def apply (s : InterestLink) (f : InterestFrame) (now : ℤ) : InterestLink :=
  let r := s.table.receive s.idx now f
  { s with
    table := r.1
    rejected := match r.2 with
      | .rejected _ => s.rejected + 1
      | _ => s.rejected
    ignored := match r.2 with
      | .ignored => s.ignored + 1
      | _ => s.ignored
    gate := (s.gate.step f).getD s.gate
    shadow := s.shadow.step s.table.maxFilters f }

@[grind =] def step (s : InterestLink) : InterestLinkStep → InterestLink
  | .track o a => { s with tracker := s.tracker.apply o a }
  | .attach o =>
    match s.cursor with
    | some _ => s
    | none =>
      { s with
        tracker := (s.tracker.attach o).1
        cursor := some (s.tracker.flushLocked o).cursors.length
        inFlight := (s.tracker.attach o).2 }
  | .take o =>
    match s.cursor with
    | none => s
    | some c =>
      { s with tracker := (s.tracker.take o c).1, inFlight := s.inFlight ++ (s.tracker.take o c).2 }
  | .attachOther o => { s with tracker := (s.tracker.attach o).1 }
  | .takeOther o c => if s.cursor = some c then s else { s with tracker := (s.tracker.take o c).1 }
  | .deliver now =>
    match s.inFlight with
    | [] => s
    | f :: rest => { s with inFlight := rest }.apply f now

/-- A tracker without cursors next to a table in which the peer is freshly connected. -/
def connectedTo (tracker : InterestTracker) (table : InterestTable) (idx : ℕ) (inst : UInt64) :
    InterestLink where
  tracker := tracker
  cursor := none
  inFlight := []
  table := table.connect idx inst true
  idx := idx
  rejected := 0
  ignored := 0
  gate := ⟨none, none⟩
  shadow := ⟨∅, ∅, false⟩

/-- Every frame was delivered and the cursor has nothing left to take. -/
def drained (s : InterestLink) : Prop :=
  s.inFlight = [] ∧ ∃ c, s.cursor = some c ∧ s.tracker.cursors[c]? = some ⟨[], false⟩

structure Inv (s : InterestLink) : Prop where
  table : s.table.Inv
  peer : ∃ p : PeerInterest, s.table.peers[s.idx]? = some p ∧ p.enabled = true ∧
    InterestTable.Agrees p s.gate s.shadow
  tracker : s.tracker.Consistent
  bytes : s.table.maxBytes = s.tracker.maxFilterBytes
  idle : s.cursor = none → s.inFlight = []
  synced : ∀ c, s.cursor = some c → s.tracker.Synced s.table c s.inFlight s.gate s.shadow
  accepted : s.rejected = 0 ∧ s.ignored = 0

variable {s : InterestLink}

theorem Inv.keptUp (h : Inv s) {f : InterestFrame} {rest : List InterestFrame}
    (hflight : s.inFlight = f :: rest) (now : ℤ) : ∃ g, s.gate.step f = some g ∧
      InterestTable.KeptUp s.table s.idx f (s.table.receive s.idx now f) g s.shadow := by
  obtain ⟨c, hc⟩ : ∃ c, s.cursor = some c := by
    cases hc : s.cursor with
    | none =>
      rw [h.idle hc] at hflight
      cases hflight
    | some c => exact ⟨c, rfl⟩
  obtain ⟨cur, hcur, hs⟩ := h.synced c hc
  rw [hflight] at hs
  obtain ⟨g', g'', hsent, -⟩ := hs.gate
  simp only [Gate.run] at hsent
  obtain ⟨g, hg, -⟩ := Option.bind_eq_some_iff.mp hsent
  obtain ⟨p, hp, hen, ha⟩ := h.peer
  exact ⟨g, hg, ha.receive h.table hp hen hg (hs.valid f (by simp)) now⟩

theorem Inv.deliver (h : Inv s) (now : ℤ) : Inv (s.step (.deliver now)) := by
  simp only [step]
  split
  · exact h
  · rename_i f rest hflight
    obtain ⟨g1, hg1, hk⟩ := h.keptUp hflight now
    have happ : { s with inFlight := rest }.apply f now = { s with
        inFlight := rest
        table := (s.table.receive s.idx now f).1
        gate := g1
        shadow := s.shadow.step s.table.maxFilters f } := by
      simp only [InterestLink.apply, hk.applied, hg1, Option.getD_some]
    rw [happ]
    refine ⟨hk.inv, hk.peer, h.tracker, hk.maxBytes.trans h.bytes, ?_, ?_, h.accepted⟩
    · intro hn
      rw [h.idle hn] at hflight
      cases hflight
    · intro c hc
      obtain ⟨cur, hcur, hs⟩ := h.synced c hc
      rw [hflight] at hs
      obtain ⟨g', g'', hsent, hnone, hqueue, hnone', hgen⟩ := hs.gate
      simp only [Gate.run, hg1, Option.bind_some] at hsent
      have hsync : s.tracker.Synced s.table c rest g1 (s.shadow.step s.table.maxFilters f) := by
        refine ⟨cur, hcur, hs.emptied, ?_, ⟨g', g'', hsent, hnone, hqueue, hnone', hgen⟩, hs.set⟩
        intro fr hfr
        exact hs.valid fr (mem_cons_of_mem _ hfr)
      exact hsync.table hk.maxFilters hk.maxBytes

theorem Inv.step (h : Inv s) (a : InterestLinkStep) : Inv (s.step a) := by
  cases a with
  | track o a =>
    have hm := InterestTracker.apply_moves h.tracker o a
    refine ⟨h.table, h.peer, InterestTracker.Consistent.moves hm h.tracker, ?_, h.idle, ?_, h.accepted⟩
    · exact h.bytes.trans hm.maxFilterBytes.symm
    · intro c hc
      exact InterestTracker.Synced.moves hm h.tracker (h.synced c hc) h.bytes
  | attach o =>
    cases hc : s.cursor with
    | some c =>
      simp only [InterestLink.step, hc]
      exact h
    | none =>
      simp only [InterestLink.step, hc]
      refine ⟨h.table, h.peer, (h.tracker.flush o).setCursors _, ?_, ?_, ?_, h.accepted⟩
      · exact h.bytes.trans (InterestTracker.flushLocked_maxFilterBytes o s.tracker).symm
      · intro hn
        cases hn
      · intro c hc'
        cases hc'
        exact InterestTracker.attach_synced h.tracker h.bytes o s.gate s.shadow
  | take o =>
    cases hc : s.cursor with
    | none =>
      simp only [InterestLink.step, hc]
      exact h
    | some c =>
      simp only [InterestLink.step, hc]
      obtain ⟨hcons, hmax⟩ := h.tracker.take o c
      refine ⟨h.table, h.peer, hcons, h.bytes.trans hmax.symm, ?_, ?_, h.accepted⟩
      · intro hn
        cases hn
      · intro c' hc'
        cases hc'
        exact (h.synced c hc).take h.tracker h.bytes o
  | attachOther o =>
    refine ⟨h.table, h.peer, (h.tracker.flush o).setCursors _, ?_, h.idle, ?_, h.accepted⟩
    · exact h.bytes.trans (InterestTracker.flushLocked_maxFilterBytes o s.tracker).symm
    · intro c hc
      exact (h.synced c hc).attach h.tracker h.bytes o
  | takeOther o c =>
    simp only [InterestLink.step]
    split
    · exact h
    · rename_i hne
      obtain ⟨hcons, hmax⟩ := h.tracker.take o c
      refine ⟨h.table, h.peer, hcons, h.bytes.trans hmax.symm, h.idle, ?_, h.accepted⟩
      intro c' hc'
      refine (h.synced c' hc').take_other h.tracker h.bytes o ?_
      intro hcc
      subst hcc
      exact hne hc'
  | deliver now => exact h.deliver now

private theorem connectPeer_agrees (t : InterestTable) (p : PeerInterest) (inst : UInt64) :
    InterestTable.Agrees (t.connectPeer p inst true).2 ⟨none, none⟩ ⟨∅, ∅, false⟩ := by
  refine ⟨?_, ?_, ?_⟩
  · intro n hn
    cases hn
  · intro n hn
    cases hn
  · simp only [InterestTable.connectPeer, Bool.not_true, Bool.false_eq_true, ↓reduceIte]
    split
    · exact congrArg PeerInterest.dense (InterestTable.deleteAll_entriesOnly t _ _).peer
    · rfl

theorem connectedTo_inv {tracker : InterestTracker} (ht : tracker.Consistent) {table : InterestTable}
    (h : table.Inv) (hb : table.maxBytes = tracker.maxFilterBytes) {idx : ℕ} {p : PeerInterest}
    (hp : table.peers[idx]? = some p) (hen : p.enabled = true) (inst : UInt64) :
    Inv (connectedTo tracker table idx inst) := by
  have hs := InterestTable.connectPeer_served (h.sound idx p hp) inst true
  have hstore : table.connect idx inst true =
      (table.connectPeer p inst true).1.store (table.connectPeer p inst true).2 := by
    simp only [InterestTable.connect, InterestTable.onPeer, hp, hen, Bool.not_true, Bool.false_eq_true,
      ↓reduceIte]
  refine ⟨h.connect idx inst true, ?_, ht, ?_, fun _ => rfl, ?_, rfl, rfl⟩
  · refine ⟨(table.connectPeer p inst true).2, ?_, ?_, connectPeer_agrees table p inst⟩
    · change (table.connect idx inst true).peers[idx]? = _
      rw [hstore]
      exact (h.store_get hp hs idx).trans (if_pos rfl)
    · exact (congrArg InterestTable.Control.enabled
        (InterestTable.control_connectPeer table p inst true)).trans hen
  · change (table.connect idx inst true).maxBytes = _
    rw [hstore]
    exact hs.edited.others.maxBytes.trans hb
  · intro c hc
    cases hc

/-- A peer with its bit in `always` is served every topic. -/
theorem matchTopic_of_always {t : InterestTable} {i : ℕ} (h : t.always.getLsbD i = true) (topic : Bytes) :
    (t.matchTopic topic).getLsbD i = true := by
  simp only [InterestTable.matchTopic]
  split
  · simp [h]
  · exact h

/-- The interest of the peer is what the tracker announced; a peer over the limit gets
every publish. -/
structure Converged (s : InterestLink) (p : PeerInterest) : Prop where
  entries : s.shadow.exceeded = false →
    ∀ f, p.entries.lookup f = (s.tracker.announced.lookup f).map (fun e => ⟨e.cls, e.expirySec⟩)
  everything : s.shadow.exceeded = true → ∀ topic, (s.table.matchTopic topic).getLsbD s.idx = true

theorem Inv.gate_of_drained (h : Inv s) (hd : s.drained) : s.gate = ⟨none, some s.tracker.gen⟩ := by
  obtain ⟨hflight, c, hc, hcur⟩ := hd
  obtain ⟨cur, hcur', hs⟩ := h.synced c hc
  have hcc : cur = ⟨[], false⟩ := Option.some.inj (hcur'.symm.trans hcur)
  subst hcc
  rw [hflight] at hs
  obtain ⟨g', g'', hsent, -, hqueue, -, hgen⟩ := hs.gate
  rw [← hgen rfl]
  exact (Option.some.inj hsent).trans (Option.some.inj hqueue)

theorem Inv.rebuilt_of_drained (h : Inv s) (hd : s.drained) :
    InterestTracker.Rebuilt s.shadow.set s.tracker.announced := by
  obtain ⟨hflight, c, hc, hcur⟩ := hd
  obtain ⟨cur, hcur', hs⟩ := h.synced c hc
  have hcc : cur = ⟨[], false⟩ := Option.some.inj (hcur'.symm.trans hcur)
  subst hcc
  rw [hflight] at hs
  exact hs.set rfl

theorem Inv.converged (h : Inv s) (hd : s.drained) :
    ∃ p : PeerInterest, s.table.peers[s.idx]? = some p ∧ Converged s p := by
  obtain ⟨p, hp, -, ha⟩ := h.peer
  obtain ⟨-, -, hover, -, -, hent, -⟩ := ha.settled _ (h.gate_of_drained hd)
  refine ⟨p, hp, ?_, ?_⟩
  · intro hno f
    rw [← hover] at hno
    rw [hent hno f]
    refine (h.rebuilt_of_drained hd f).trans ?_
    cases hl : s.tracker.announced.lookup f with
    | none => rfl
    | some e =>
      obtain ⟨hann, -⟩ := h.tracker.announceable f e hl
      simp only [Option.map_some, Option.some.injEq, InterestEntry.stored, InterestTable.expiryOf]
      by_cases hper : e.cls = interestPer
      · rw [if_pos hper]
      · rw [if_neg hper, hann.expiry hper]
  · intro hex topic
    rw [← hover] at hex
    apply matchTopic_of_always
    have halways := (h.table.settled s.idx p hp).always
    rw [h.table.idx s.idx p hp] at halways
    rw [halways]
    simp [InterestTable.alwaysLocked, hex]

theorem newInterestTable_limits (peers : List Bool) (unknownAll : Bool) (maxFilters maxBytes : ℕ) :
    (InterestTable.newInterestTable peers unknownAll maxFilters maxBytes).maxBytes = maxBytes := by
  rw [InterestTable.newInterestTable]
  have hfold : ∀ (bs : List Bool) (t : InterestTable),
      (bs.foldl InterestTable.addPeer t).maxBytes = t.maxBytes := by
    intro bs
    induction bs with
    | nil => exact fun _ => rfl
    | cons b bs ih =>
      intro t
      rw [foldl_cons, ih]
      simp only [InterestTable.addPeer, InterestTable.applyModeLocked, InterestTable.store]
      split <;> rfl
  exact hfold peers _

/-- A node that starts and a fresh connected peer of a table with the same `MaxFilterBytes`. -/
def start (peers : List Bool) (unknownAll sharedDeliver : Bool) (maxFilters maxBytes idx : ℕ)
    (inst : UInt64) : InterestLink :=
  connectedTo (newInterestTracker maxBytes sharedDeliver)
    (InterestTable.newInterestTable peers unknownAll maxFilters maxBytes) idx inst

theorem start_inv {peers : List Bool} (h : peers.length ≤ 64) {idx : ℕ} (hidx : peers[idx]? = some true)
    (unknownAll sharedDeliver : Bool) (maxFilters maxBytes : ℕ) (inst : UInt64) :
    Inv (start peers unknownAll sharedDeliver maxFilters maxBytes idx inst) := by
  have hpeer : (InterestTable.newInterestTable peers unknownAll maxFilters maxBytes).peers[idx]? =
      some (InterestTable.newPeer idx true) := by
    rw [InterestTable.newInterestTable_peers, List.getElem?_mapIdx, hidx]
    rfl
  exact connectedTo_inv (InterestTracker.newInterestTracker_consistent maxBytes sharedDeliver)
    (InterestTable.newInterestTable_inv h unknownAll maxFilters maxBytes)
    (newInterestTable_limits peers unknownAll maxFilters maxBytes) hpeer rfl inst

/-- Announcements converge, whatever the tracker does and however the pullers attach and
take: no frame is rejected or ignored, and a drained link has the peer at the announced set,
or served everything after a frame that left the rebuilt set over the limit. -/
theorem run_interest_converges {peers : List Bool} (h : peers.length ≤ 64) {idx : ℕ}
    (hidx : peers[idx]? = some true) (unknownAll sharedDeliver : Bool) (maxFilters maxBytes : ℕ)
    (inst : UInt64) (as : List InterestLinkStep) {s : InterestLink}
    (hs : s = StateRuns.run step (start peers unknownAll sharedDeliver maxFilters maxBytes idx inst) as) :
    s.rejected = 0 ∧ s.ignored = 0 ∧
      (s.drained → ∃ p : PeerInterest, s.table.peers[s.idx]? = some p ∧ Converged s p) := by
  have hinv : Inv s := by
    rw [hs]
    exact StateRuns.run_always (fun _ a hs => hs.step a) (start_inv h hidx _ _ _ _ _) as
  exact ⟨hinv.accepted.1, hinv.accepted.2, hinv.converged⟩

theorem run_interest_converges_sample :
    let as : List InterestLinkStep :=
      [.track .stored (.filtersAdded [[0x61]]), .track .stored .flush, .attach .stored, .deliver 0]
    let s := StateRuns.run step (start [true] false false 10 100 0 7) as
    s.rejected = 0 ∧ s.ignored = 0 ∧ s.shadow.exceeded = false ∧
      s.tracker.announced.lookup [0x61] = some ⟨interestVol, 0, [0x61]⟩ ∧
      ∃ p : PeerInterest, s.table.peers[s.idx]? = some p ∧ Converged s p := by
  intro as s
  have hidx : ([true] : List Bool)[0]? = some true := rfl
  have h := run_interest_converges (by decide) hidx false false 10 100 7 as (s := s) rfl
  have hd : s.drained := ⟨by decide, 0, by decide, by decide⟩
  exact ⟨h.1, h.2.1, by decide, by decide, h.2.2 hd⟩

end InterestLink

namespace InterestTracker

variable {t : InterestTracker}

theorem accept_replicate {b : UInt8} (hascii : b < 0x80) (h : b ∉ [0, slashByte, 0x23, 0x2B, dollarByte])
    {n : ℕ} (hn : 0 < n) (hle : n ≤ t.maxFilterBytes) : t.accept (List.replicate n b) = true := by
  simp only [mem_cons, not_mem_nil, or_false, not_or] at h
  obtain ⟨h0, hs, hh, hp, hd⟩ := h
  have hutf : ∀ m, Utf8.valid (List.replicate m b) = true := by
    intro m
    induction m with
    | zero => rfl
    | succ m ih =>
      rw [replicate_succ]
      unfold Utf8.valid
      simp [hascii, ih]
  have hlevels : ∀ m, levels (List.replicate m b) = [List.replicate m b] := by
    intro m
    induction m with
    | zero => rfl
    | succ m ih => simp [replicate_succ, levels, ih, hs]
  obtain ⟨m, rfl⟩ : ∃ m, n = m + 1 := ⟨n - 1, by omega⟩
  have hc : ∀ x, b ≠ x → (List.replicate (m + 1) b).contains x = false := by
    intro x hx
    simp [Ne.symm hx]
  simp only [accept, validInterestFilter, validFilter, hlevels, hutf, validLevels]
  rw [hc 0 h0, hc 0x23 hh, hc 0x2B hp]
  simp [replicate_succ, hd, Except.isOk, Except.toBool]
  omega

/-- One filter is announced, then replaced by another one in a single flush. -/
structure Swap (A B : Bytes) : Prop where
  ne : A ≠ B
  acceptA : ∀ t : InterestTracker, t.maxFilterBytes = 32768 → t.accept A = true
  acceptB : ∀ t : InterestTracker, t.maxFilterBytes = 32768 → t.accept B = true
  long : A.length + B.length > 65527 - 14

@[grind =] def held (f : Bytes) : FMap Bytes TrackEntry := (∅ : FMap Bytes TrackEntry).insert f ⟨1, 0, ∅⟩

def announcing (f : Bytes) (gen : UInt32) : InterestTracker :=
  { newInterestTracker 32768 false with
    entries := held f
    announced := (∅ : FMap Bytes InterestEntry).insert f ⟨interestVol, 0, f⟩
    gen := gen }

variable {A B : Bytes}

private theorem swap_first (h : Swap A B) :
    ((newInterestTracker 32768 false).apply .stored (.filtersAdded [A])).apply .stored .flush =
      announcing A 1 := by
  have hA0 := h.acceptA (newInterestTracker 32768 false) rfl
  simp only [apply, filtersAdded, foldl_cons, foldl_nil, hA0, ↓reduceIte, addLocked]
  simp [flushLocked, noteChange, announcing, held, newInterestTracker, markLocked, size,
    trackerFlushPending, classLocked, MapOrder.stored, interestChanged, interestNone, interestVol,
    splitInterest, splitLoop, deltaFrames, maxGen, HoldClass.vol, FiniteMaps.lookup_singleton]

@[grind =] def swapped (A B : Bytes) : FMap Bytes InterestEntry :=
  (((∅ : FMap Bytes InterestEntry).insert A ⟨interestVol, 0, A⟩).insert B ⟨interestVol, 0, B⟩).erase A

private theorem swap_removed (h : Swap A B) (ht : t = { announcing A 1 with cursors := [⟨[], false⟩] }) :
    t.apply .stored (.filtersRemoved [A]) = { t with
      entries := (held A).erase A
      pending := (∅ : FMap Bytes Unit).insert A () } := by
  have hA := h.acceptA t (by rw [ht]; rfl)
  have hl : t.entries.lookup A = some ⟨1, 0, ∅⟩ := by
    rw [ht]
    exact AList.lookup_insert _
  simp only [apply, filtersRemoved, foldl_cons, foldl_nil, hA, ↓reduceIte, removeLocked, hl]
  rw [ht]
  rfl

theorem swap_added (h : Swap A B) {u : InterestTracker}
    (ht : t = { announcing A 1 with cursors := [⟨[], false⟩] })
    (hu : u = { t with entries := (held A).erase A, pending := (∅ : FMap Bytes Unit).insert A () }) :
    u.apply .stored (.filtersAdded [B]) = { t with
      entries := ((held A).erase A).insert B ⟨1, 0, ∅⟩
      pending := ((∅ : FMap Bytes Unit).insert A ()).insert B () } := by
  have hB := h.acceptB u (by rw [hu, ht]; rfl)
  have hl : ((held A).erase A).lookup B = none := by
    rw [AList.lookup_erase_ne (Ne.symm h.ne), held, AList.lookup_insert_ne (Ne.symm h.ne)]
    rfl
  have hsize : size (((∅ : FMap Bytes Unit).insert A ()).insert B ()) = 2 := by
    rw [size_eq_keys_length, AList.keys_insert, AList.keys_insert]
    simp [h.ne]
  simp only [apply, filtersAdded, foldl_cons, foldl_nil, hB, ↓reduceIte, addLocked]
  rw [hu, ht]
  simp only [hl, markLocked, hsize]
  rfl

theorem swap_flushed (h : Swap A B) {u : InterestTracker}
    (ht : t = { announcing A 1 with cursors := [⟨[], false⟩] })
    (hu : u = { t with
      entries := ((held A).erase A).insert B ⟨1, 0, ∅⟩
      pending := ((∅ : FMap Bytes Unit).insert A ()).insert B () }) :
    u.apply .stored .flush = { u with
      announced := swapped A B
      gen := 3
      pending := ∅
      cursors := [⟨[.delta ⟨2, [⟨interestVol, 0, B⟩]⟩, .delta ⟨3, [⟨interestNone, 0, A⟩]⟩], false⟩] } := by
  have hkeys : u.pending.keys = [B, A] := by
    rw [hu]
    simp [AList.keys_insert, h.ne]
  have hB : u.classLocked B = ⟨interestVol, 0, B⟩ := by
    rw [hu]
    simp [classLocked]
  have hA : u.classLocked A = ⟨interestNone, 0, A⟩ := by
    rw [hu]
    simp [classLocked, AList.lookup_insert_ne h.ne]
  have hann : u.announced = (∅ : FMap Bytes InterestEntry).insert A ⟨interestVol, 0, A⟩ := by
    rw [hu, ht]
    rfl
  have hfold : [B, A].foldl u.noteChange (u.announced, []) =
      (swapped A B, [⟨interestVol, 0, B⟩, ⟨interestNone, 0, A⟩]) := by
    have hne' := Ne.symm h.ne
    simp only [foldl_cons, foldl_nil, noteChange, hA, hB, hann]
    rw [AList.lookup_insert_ne hne', AList.lookup_empty]
    simp [interestChanged, interestNone, interestVol, AList.lookup_insert_ne h.ne, swapped, FiniteMaps.lookup_singleton]
  have hsplit : splitInterest [⟨interestVol, 0, B⟩, ⟨interestNone, 0, A⟩] interestDeltaHeaderLen =
      [[⟨interestVol, 0, B⟩], [⟨interestNone, 0, A⟩]] := by
    have hlong := h.long
    have hover : 7 + B.length + (7 + A.length) > 65527 := by omega
    simp [splitInterest, splitLoop, InterestEntry.len, interestEntryOverhead, trackerFrameEntries,
      maxConsumerFrame, interestDeltaHeaderLen, hover]
  simp only [apply, flushLocked, hkeys, MapOrder.stored, hfold, hsplit]
  rw [hu, ht]
  rfl

end InterestTracker

namespace InterestLink

open InterestTracker

def swapSteps (A B : Bytes) : List InterestLinkStep :=
  [.track .stored (.filtersAdded [A]), .track .stored .flush, .attach .stored, .deliver 0,
    .track .stored (.filtersRemoved [A]), .track .stored (.filtersAdded [B]), .track .stored .flush,
    .take .stored, .deliver 0, .deliver 0]

variable {t : InterestTracker}

private theorem swap_take {q : List InterestFrame} (h : t.cursors = [⟨q, false⟩]) :
    t.take .stored 0 = ({ t with cursors := [⟨[], false⟩] }, q) := by
  simp [InterestTracker.take, h]

structure At (s : InterestLink) (t : InterestTracker) (fs : List InterestFrame) (sh : Shadow) : Prop where
  inv : Inv s
  maxFilters : s.table.maxFilters = 1
  cursor : s.cursor = some 0
  tracker : s.tracker = t
  inFlight : s.inFlight = fs
  shadow : s.shadow = sh

variable {s : InterestLink}

theorem At.track {fs : List InterestFrame} {sh : Shadow}
    (h : At s t fs sh) (o : MapOrder) (a : TrackerOp) : At (s.step (.track o a)) (t.apply o a) fs sh :=
  ⟨h.inv.step _, h.maxFilters, h.cursor, by rw [← h.tracker]; rfl, h.inFlight, h.shadow⟩

theorem At.deliver {f : InterestFrame} {fs : List InterestFrame}
    {sh : Shadow} (h : At s t (f :: fs) sh) (now : ℤ) : At (s.step (.deliver now)) t fs (sh.step 1 f) := by
  obtain ⟨g, hg, hk⟩ := h.inv.keptUp h.inFlight now
  have hstep : s.step (.deliver now) = { s with inFlight := fs }.apply f now := by
    simp only [InterestLink.step, h.inFlight]
  refine ⟨h.inv.step _, ?_, ?_, ?_, ?_, ?_⟩
  · rw [hstep]
    exact hk.maxFilters.trans h.maxFilters
  · rw [hstep]
    exact h.cursor
  · rw [hstep]
    exact h.tracker
  · rw [hstep]
    rfl
  · rw [hstep, ← h.shadow, ← h.maxFilters]
    rfl

theorem At.take {sh : Shadow} (h : At s t [] sh)
    {q : List InterestFrame} (hq : t.cursors = [⟨q, false⟩]) :
    At (s.step (.take .stored)) { t with cursors := [⟨[], false⟩] } q sh := by
  have ht := h.tracker
  have hstep : s.step (.take .stored) = { s with
      tracker := { t with cursors := [⟨[], false⟩] }
      inFlight := q } := by
    simp only [InterestLink.step, h.cursor, ht, swap_take hq, h.inFlight, nil_append]
  refine ⟨h.inv.step _, ?_, ?_, ?_, ?_, ?_⟩
  · rw [hstep]
    exact h.maxFilters
  · rw [hstep]
    exact h.cursor
  · rw [hstep]
  · rw [hstep]
  · rw [hstep]
    exact h.shadow

private theorem swap_sizes (A B : Bytes) (h : A ≠ B) : size (swapped A B) = 1 := by
  rw [size_eq_keys_length, swapped, AList.keys_erase, AList.keys_insert, AList.keys_insert]
  have := Ne.symm h
  simp [h, this]

theorem swap_exceeded {A B : Bytes} (h : A ≠ B) :
    ((((⟨∅, ∅, false⟩ : Shadow).step 1 (.snapshot ⟨1, 3, [⟨interestVol, 0, A⟩]⟩)).step 1
      (.delta ⟨2, [⟨interestVol, 0, B⟩]⟩)).step 1 (.delta ⟨3, [⟨interestNone, 0, A⟩]⟩)).exceeded = true := by
  have hlast : (InterestSnapshot.mk 1 3 [⟨interestVol, 0, A⟩]).last = true := by
    change decide ((3 : UInt8) &&& 2 ≠ 0) = true
    decide
  have hfirst : (InterestSnapshot.mk 1 3 [⟨interestVol, 0, A⟩]).first = true := by
    change decide ((3 : UInt8) &&& 1 ≠ 0) = true
    decide
  have hvol : interestVol ≠ interestNone := by decide
  have hsize : ∀ a b : EntryClass,
      size (((∅ : FMap Bytes EntryClass).insert A a).insert B b) = 2 := by
    intro a b
    rw [size_eq_keys_length, AList.keys_insert, AList.keys_insert]
    simp [h]
  simp only [Shadow.step, hlast, hfirst, ↓reduceIte, foldl_cons, foldl_nil, mark, applyChange,
    hvol, hsize]
  simp

theorem swap_run {A B : Bytes} (h : Swap A B) :
    (∀ k, size (StateRuns.run step (start [true] false false 1 32768 0 7)
      ((swapSteps A B).take k)).tracker.announced ≤ 1) ∧
    ∃ t sh, At (StateRuns.run step (start [true] false false 1 32768 0 7) (swapSteps A B)) t [] sh ∧
      t.announced = swapped A B ∧ t.cursors = [⟨[], false⟩] ∧ sh.exceeded = true := by
  have h0 : Inv (start [true] false false 1 32768 0 7) := start_inv (by simp) rfl _ _ _ _ _
  have h2 := (h0.step (.track .stored (.filtersAdded [A]))).step (.track .stored .flush)
  have hs2 : ((start [true] false false 1 32768 0 7).step (.track .stored (.filtersAdded [A]))).step
      (.track .stored .flush) =
      { start [true] false false 1 32768 0 7 with tracker := announcing A 1 } := by
    simp only [InterestLink.step]
    congr 1
    exact swap_first h
  have h3 : At ((((start [true] false false 1 32768 0 7).step (.track .stored (.filtersAdded [A]))).step
      (.track .stored .flush)).step (.attach .stored))
      { announcing A 1 with cursors := [⟨[], false⟩] } [.snapshot ⟨1, 3, [⟨interestVol, 0, A⟩]⟩]
      ⟨∅, ∅, false⟩ := by
    have h3 := h2.step (.attach .stored)
    rw [hs2] at h3 ⊢
    exact ⟨h3, rfl, rfl, rfl, rfl, rfl⟩
  have h4 := h3.deliver 0
  have h5 := h4.track .stored (.filtersRemoved [A])
  rw [swap_removed h rfl] at h5
  have h6 := h5.track .stored (.filtersAdded [B])
  rw [swap_added h rfl rfl] at h6
  have h7 := h6.track .stored .flush
  rw [swap_flushed h rfl rfl] at h7
  have h8 := h7.take rfl
  have h9 := h8.deliver 0
  have h10 := h9.deliver 0
  have hrun : ∀ s : InterestLink, StateRuns.run step s (swapSteps A B) =
      ((((((((((s.step (.track .stored (.filtersAdded [A]))).step (.track .stored .flush)).step
        (.attach .stored)).step (.deliver 0)).step (.track .stored (.filtersRemoved [A]))).step
        (.track .stored (.filtersAdded [B]))).step (.track .stored .flush)).step (.take .stored)).step
        (.deliver 0)).step (.deliver 0)) := by
    intro s
    simp only [swapSteps, StateRuns.run_cons, StateRuns.run_nil]
  rw [← hrun] at h10
  refine ⟨?_, _, _, h10, rfl, rfl, swap_exceeded h.ne⟩
  have hone : size (announcing A 1).announced ≤ 1 := Nat.le_refl 1
  have htwo := Nat.le_of_eq (swap_sizes A B h.ne)
  have hat : ∀ {s : InterestLink} {t fs sh}, At s t fs sh → size t.announced ≤ 1 →
      size s.tracker.announced ≤ 1 := by
    intro s t fs sh ha hle
    rw [ha.tracker]
    exact hle
  have hadded : ((newInterestTracker 32768 false).apply .stored (.filtersAdded [A])).announced = ∅ := by
    simp only [InterestTracker.apply, filtersAdded, foldl_cons, foldl_nil,
      h.acceptA (newInterestTracker 32768 false) rfl, ↓reduceIte]
    rfl
  intro k
  match k with
  | 0 => exact Nat.zero_le 1
  | 1 =>
    change size ((newInterestTracker 32768 false).apply .stored (.filtersAdded [A])).announced ≤ 1
    rw [hadded]
    exact Nat.zero_le 1
  | 2 =>
    change size (((start [true] false false 1 32768 0 7).step (.track .stored (.filtersAdded [A]))).step
      (.track .stored .flush)).tracker.announced ≤ 1
    rw [hs2]
    exact hone
  | 3 =>
    simp only [swapSteps, take_succ_cons, take_zero, StateRuns.run_cons, StateRuns.run_nil]
    exact hat h3 hone
  | 4 =>
    simp only [swapSteps, take_succ_cons, take_zero, StateRuns.run_cons, StateRuns.run_nil]
    exact hat h4 hone
  | 5 =>
    simp only [swapSteps, take_succ_cons, take_zero, StateRuns.run_cons, StateRuns.run_nil]
    exact hat h5 hone
  | 6 =>
    simp only [swapSteps, take_succ_cons, take_zero, StateRuns.run_cons, StateRuns.run_nil]
    exact hat h6 hone
  | 7 =>
    simp only [swapSteps, take_succ_cons, take_zero, StateRuns.run_cons, StateRuns.run_nil]
    exact hat h7 htwo
  | 8 =>
    simp only [swapSteps, take_succ_cons, take_zero, StateRuns.run_cons, StateRuns.run_nil]
    exact hat h8 htwo
  | 9 =>
    simp only [swapSteps, take_succ_cons, take_zero, StateRuns.run_cons, StateRuns.run_nil]
    exact hat h9 htwo
  | k + 10 =>
    rw [take_of_length_le (by simp [swapSteps])]
    exact hat h10 htwo

theorem swap_final {n : ℕ} (hn : n = 32768) {A B : Bytes} (hA : A = List.replicate n 0x61)
    (hB : B = List.replicate n 0x62)
    (hs : s = StateRuns.run step (start [true] false false 1 32768 0 7) (swapSteps A B)) :
    (∀ k, size (StateRuns.run step (start [true] false false 1 32768 0 7)
      ((swapSteps A B).take k)).tracker.announced ≤ 1) ∧
    s.table.maxFilters = 1 ∧ s.drained ∧ s.tracker.announced.lookup B = some ⟨interestVol, 0, B⟩ ∧
      ∃ p : PeerInterest, s.table.peers[s.idx]? = some p ∧ p.entries = ∅ := by
  have hne : A ≠ B := by
    obtain ⟨m, rfl⟩ : ∃ m, n = m + 1 := ⟨n - 1, by omega⟩
    intro hc
    rw [hA, hB, replicate_succ, replicate_succ, List.cons.injEq] at hc
    exact absurd hc.1 (by decide)
  have hswap : Swap A B := by
    refine ⟨hne, ?_, ?_, ?_⟩
    · intro t ht
      rw [hA]
      exact accept_replicate (by decide) (by decide) (by omega) (by omega)
    · intro t ht
      rw [hB]
      exact accept_replicate (by decide) (by decide) (by omega) (by omega)
    · rw [hA, hB, length_replicate, length_replicate]
      omega
  obtain ⟨hsizes, t, sh, hat, hann, hcur, hex⟩ := swap_run hswap
  rw [← hs] at hat
  have hdrained : s.drained := by
    refine ⟨hat.inFlight, 0, hat.cursor, ?_⟩
    rw [hat.tracker, hcur]
    rfl
  refine ⟨hsizes, hat.maxFilters, hdrained, ?_, ?_⟩
  · rw [hat.tracker, hann, swapped, AList.lookup_erase_ne (Ne.symm hne), AList.lookup_insert]
  · obtain ⟨p, hp, -, ha⟩ := hat.inv.peer
    obtain ⟨-, -, hover, -, -, -, hempty⟩ := ha.settled _ (hat.inv.gate_of_drained hdrained)
    refine ⟨p, hp, hempty ?_⟩
    rw [hover, hat.shadow, hex]

/-- `MaxFiltersPerPeer` is 1 and one filter of 32768 bytes replaces another one. The two
changes of the flush do not fit one frame, so the source sees both filters for a moment and
gives up on the peer's set, although the announced set never has more than one filter. -/
theorem swap_exceeds_limit :
    let A : Bytes := List.replicate 32768 0x61
    let B : Bytes := List.replicate 32768 0x62
    let s := StateRuns.run step (start [true] false false 1 32768 0 7) (swapSteps A B)
    (∀ k, size (StateRuns.run step (start [true] false false 1 32768 0 7)
      ((swapSteps A B).take k)).tracker.announced ≤ 1) ∧
    s.table.maxFilters = 1 ∧ s.drained ∧ s.tracker.announced.lookup B = some ⟨interestVol, 0, B⟩ ∧
      ∃ p : PeerInterest, s.table.peers[s.idx]? = some p ∧ p.entries = ∅ :=
  swap_final rfl rfl rfl rfl

end InterestLink

end MonsterMQ.PeerLink
