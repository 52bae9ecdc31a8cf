import MonsterMQ.PeerLinkInterestLinkRuns

/-!
# Late frames of a superseded session

The interest table knows a consumer by its index and not by its session. A late frame is harmless before the
new session's snapshot began, and later only while the table refuses it.
-/

namespace MonsterMQ.PeerLink

open LittleEndian FiniteMaps

namespace InterestTable

@[grind =] def harmless (g : Gate) (p : PeerInterest) : InterestFrame → Bool
  | .delta d =>
    match g with
    | ⟨none, some _⟩ => p.haveGen && d.generation ≤ p.lastGen
    | _ => true
  | .snapshot s =>
    match g with
    | ⟨none, none⟩ => true
    | ⟨some _, _⟩ => !(openSnapshot p s).isOk
    | ⟨none, some _⟩ => !s.last || !(openSnapshot p s).isOk

variable {p : PeerInterest}

private theorem openSnapshot_same {p' : PeerInterest} {s : InterestSnapshot} (h : openSnapshot p s = .ok p') :
    p' = { p with snapOpen := p'.snapOpen, snapGen := p'.snapGen, snapMarks := p'.snapMarks } := by
  simp only [openSnapshot] at h
  split at h
  · cases h
    rfl
  · split at h
    · cases h
    · split at h
      · cases h
      · cases h
        rfl

theorem applyDeltaPeer_kept (t : InterestTable) (p : PeerInterest) (d : InterestDelta) :
    (t.applyDeltaPeer p d).2.dense = p.dense ∧ (t.applyDeltaPeer p d).2.snapOpen = p.snapOpen ∧
      (t.applyDeltaPeer p d).2.snapGen = p.snapGen ∧
      (t.applyDeltaPeer p d).2.snapMarks = p.snapMarks := by
  simp only [applyDeltaPeer]
  split
  · exact ⟨rfl, rfl, rfl, rfl⟩
  · split
    · exact ⟨rfl, rfl, rfl, rfl⟩
    · have hpeer := (applyEntries_entriesOnly t { p with
        lastGen := d.generation
        haveGen := true } d.entries).peer
      have hdense := congrArg PeerInterest.dense hpeer
      have hopen := congrArg PeerInterest.snapOpen hpeer
      have hgen := congrArg PeerInterest.snapGen hpeer
      have hmarks := congrArg PeerInterest.snapMarks hpeer
      split
      · exact ⟨hdense, hopen, hgen, hmarks⟩
      · exact ⟨hdense, hopen, hgen, hmarks⟩

variable {t : InterestTable}

/-- A late delta that the generation filter drops, or that comes before the snapshot ends. -/
theorem Agrees.stale_delta {g : Gate} {sh : Shadow}
    (h : Agrees p g sh) {d : InterestDelta} (hh : harmless g p (.delta d) = true) :
    Agrees (t.applyDeltaPeer p d).2 g sh := by
  obtain ⟨hdense, hopen, hgen, hmarks⟩ := applyDeltaPeer_kept t p d
  refine ⟨?_, ?_, hdense.trans h.dense⟩
  · intro n hn
    rw [hopen, hgen, hmarks]
    exact h.opened n hn
  · intro n hn
    subst hn
    have hsame : t.applyDeltaPeer p d = (t, p) := by
      simp only [harmless] at hh
      rw [applyDeltaPeer, if_pos hh]
    rw [hsame]
    exact h.settled n rfl

theorem Agrees.stale_snapshot {g : Gate} {sh : Shadow}
    (h : Agrees p g sh) {s : InterestSnapshot} {now : ℤ} (hh : harmless g p (.snapshot s) = true)
    {r : InterestTable × PeerInterest} (hr : t.applySnapshotPeer p s now = .ok r) : Agrees r.2 g sh := by
  simp only [applySnapshotPeer] at hr
  split at hr
  · cases hr
  · rename_i p' hok
    have hsame := openSnapshot_same hok
    have hdense : p'.dense = false := (congrArg PeerInterest.dense hsame).trans h.dense
    obtain ⟨snap, last⟩ := g
    cases snap with
    | some n => simp [harmless, hok, Except.isOk, Except.toBool] at hh
    | none =>
      cases last with
      | none =>
        have hrd : r.2.dense = false := by
          split at hr
          · cases hr
            exact hdense
          · cases hr
            exact (sweepMarks_peer t _ s.generation now).2.2.2.1.trans hdense
        refine ⟨?_, ?_, hrd⟩
        · intro n hn
          cases hn
        · intro n hn
          cases hn
      | some l =>
        have hlast : s.last = false := by
          simpa [harmless, hok, Except.isOk, Except.toBool] using hh
        have hflag : s.flags &&& interestFlagLast = 0 := by
          simpa [InterestSnapshot.last] using hlast
        rw [if_pos hflag] at hr
        cases hr
        refine ⟨?_, ?_, hdense⟩
        · intro n hn
          cases hn
        · intro n hn
          have hset := h.settled n hn
          rw [hsame]
          exact hset

theorem Agrees.stale (h : Inv t) {idx : ℕ}
    (hp : t.peers[idx]? = some p) (hen : p.enabled = true) {g : Gate} {sh : Shadow} (ha : Agrees p g sh)
    {f : InterestFrame} (hh : harmless g p f = true) (now : ℤ) :
    Undisturbed t idx (t.receive idx now f).1 g sh := by
  cases f with
  | snapshot s =>
    cases hr : t.applySnapshotPeer p s now with
    | error e =>
      have heq : (t.receive idx now (.snapshot s)).1 = t := by
        simp only [InterestTable.receive, InterestTable.applySnapshot, hp, hen, Bool.not_true,
          Bool.false_eq_true, ↓reduceIte, hr]
      rw [heq]
      exact ⟨h, rfl, rfl, p, hp, hen, ha⟩
    | ok r => exact (h.receive_snapshot hp hen hr (ha.stale_snapshot hh hr)).1
  | delta d => exact h.receive_delta hp hen (ha.stale_delta hh) now

theorem Inv.onPeer_maxBytes (h : Inv t) (idx : ℕ)
    {f : InterestTable → PeerInterest → InterestTable × PeerInterest}
    (hf : ∀ p, Sound t p → Settled t p → Served t p (f t p)) : (t.onPeer idx f).maxBytes = t.maxBytes := by
  simp only [InterestTable.onPeer]
  split
  · rfl
  · rename_i p hp
    split
    · rfl
    · exact (hf p (h.sound idx p hp) (h.settled idx p hp)).edited.others.maxBytes

theorem Inv.expire_maxBytes (h : Inv t) (now : ℤ) : (t.expire now).maxBytes = t.maxBytes := by
  simp only [InterestTable.expire]
  generalize List.range t.peers.length = is
  induction is generalizing t with
  | nil => rfl
  | cons i is ih =>
    have hstep : Inv (expireAt now t i) ∧ (expireAt now t i).maxBytes = t.maxBytes := by
      simp only [expireAt]
      split
      · exact ⟨h, rfl⟩
      · rename_i p hp
        have hs := expirePeer_served (h.sound i p hp) (h.settled i p hp) now
        exact ⟨(h.except i).store hp hs, hs.edited.others.maxBytes⟩
    rw [List.foldl_cons, ih hstep.1, hstep.2]

theorem Inv.step_maxBytes (h : Inv t) (op : Op) : (t.step op).maxBytes = t.maxBytes := by
  cases op with
  | connect idx inst capable => exact h.onPeer_maxBytes idx (fun _ hp _ => connectPeer_served hp inst capable)
  | disconnect idx now => exact h.onPeer_maxBytes idx (fun _ hp hs => disconnectPeer_served hp hs now)
  | applySnapshot idx s now =>
    simp only [InterestTable.step, InterestTable.applySnapshot]
    split
    · rfl
    · rename_i p hp
      split
      · rfl
      · split
        · rfl
        · rename_i r hr
          exact (applySnapshotPeer_served (h.sound idx p hp) (h.settled idx p hp) hr).edited.others.maxBytes
  | applyDelta idx d => exact h.onPeer_maxBytes idx (fun _ hp hs => applyDeltaPeer_served hp hs d)
  | expire now => exact h.expire_maxBytes now

end InterestTable

/-- A step of the new session's link, or a frame that the old session had read. -/
inductive TakeoverStep where
  | link (a : InterestLinkStep)
  | stale (f : InterestFrame) (now : ℤ)

namespace InterestLink

def takeoverStep (s : InterestLink) : TakeoverStep → InterestLink
  | .link a => s.step a
  | .stale f now => { s with table := (s.table.receive s.idx now f).1 }

def HarmlessStep (s : InterestLink) : TakeoverStep → Prop
  | .link _ => True
  | .stale f _ => s.table.peers[s.idx]?.all (fun p : PeerInterest => InterestTable.harmless s.gate p f) = true

instance (s : InterestLink) (a : TakeoverStep) : Decidable (s.HarmlessStep a) := by
  cases a with
  | link a => exact isTrue trivial
  | stale f now =>
    exact inferInstanceAs (Decidable (s.table.peers[s.idx]?.all
      (fun p : PeerInterest => InterestTable.harmless s.gate p f) = true))

theorem Inv.takeoverStep {s : InterestLink} (h : Inv s) (a : TakeoverStep) (hh : s.HarmlessStep a) :
    Inv (s.takeoverStep a) := by
  cases a with
  | link a => exact h.step a
  | stale f now =>
    obtain ⟨p, hp, hen, ha⟩ := h.peer
    have hharm : InterestTable.harmless s.gate p f = true := by
      simpa [HarmlessStep, hp] using hh
    have hu := ha.stale h.table hp hen hharm now
    refine ⟨hu.inv, hu.peer, h.tracker, hu.maxBytes.trans h.bytes, h.idle, ?_, h.accepted⟩
    intro c hc
    exact (h.synced c hc).table hu.maxFilters hu.maxBytes

/-- A new session of a consumer, connected over whatever its predecessors left behind, ends
up with the set it announced and loses no frame, as long as every late frame of a superseded
session is harmless. -/
theorem run_takeover_keeps_interest {peers : List Bool} (h : peers.length ≤ 64) (unknownAll : Bool)
    (maxFilters maxBytes : ℕ) (ops : List InterestTable.Op) {table : InterestTable}
    (htable : table = StateRuns.run InterestTable.step
      (InterestTable.newInterestTable peers unknownAll maxFilters maxBytes) ops)
    {idx : ℕ} {p : PeerInterest} (hp : table.peers[idx]? = some p) (hen : p.enabled = true)
    (inst : UInt64) (sharedDeliver : Bool) {as : List TakeoverStep} {s : InterestLink}
    (hs : s = StateRuns.run takeoverStep
      (connectedTo (newInterestTracker maxBytes sharedDeliver) table idx inst) as)
    (hharmless : StateRuns.Along takeoverStep HarmlessStep
      (connectedTo (newInterestTracker maxBytes sharedDeliver) table idx inst) as) :
    s.rejected = 0 ∧ s.ignored = 0 ∧
      (s.drained → ∃ p : PeerInterest, s.table.peers[s.idx]? = some p ∧ Converged s p) := by
  have hreach : table.Inv ∧ table.maxBytes = maxBytes := by
    rw [htable]
    refine StateRuns.run_always (P := fun t : InterestTable => t.Inv ∧ t.maxBytes = maxBytes) ?_ ?_ ops
    · intro t op ht
      exact ⟨ht.1.step op, (ht.1.step_maxBytes op).trans ht.2⟩
    · exact ⟨InterestTable.newInterestTable_inv h unknownAll maxFilters maxBytes,
        newInterestTable_limits peers unknownAll maxFilters maxBytes⟩
  have hstart : Inv (connectedTo (newInterestTracker maxBytes sharedDeliver) table idx inst) :=
    connectedTo_inv (InterestTracker.newInterestTracker_consistent maxBytes sharedDeliver) hreach.1
      hreach.2 hp hen inst
  have hinv : Inv s := by
    rw [hs]
    exact StateRuns.run_invariant (fun _ a hs hq => hs.takeoverStep a hq) hstart hharmless
  exact ⟨hinv.accepted.1, hinv.accepted.2, hinv.converged⟩

/-- An old session connected and announced nothing at generation 4. -/
def leftBehind : List InterestTable.Op := [.connect 0 1 true, .applySnapshot 0 ⟨4, 3, []⟩ 0]

theorem run_takeover_keeps_interest_sample :
    let table := StateRuns.run InterestTable.step (InterestTable.newInterestTable [true] false 10 100) leftBehind
    let as : List TakeoverStep :=
      [.stale (.delta ⟨5, [⟨1, 0, [0x78]⟩]⟩) 0, .link (.attach .stored), .link (.deliver 0),
        .link (.track .stored (.filtersAdded [[0x61]])), .link (.track .stored .flush),
        .link (.take .stored), .link (.deliver 0)]
    let s := StateRuns.run takeoverStep (connectedTo (newInterestTracker 100 false) table 0 2) as
    s.rejected = 0 ∧ s.ignored = 0 ∧ s.shadow.exceeded = false ∧
      s.tracker.announced.lookup [0x61] = some ⟨interestVol, 0, [0x61]⟩ ∧
      ∃ p : PeerInterest, s.table.peers[s.idx]? = some p ∧ Converged s p := by
  intro table as s
  have hen : ∃ p : PeerInterest, table.peers[0]? = some p ∧ p.enabled = true := ⟨_, rfl, rfl⟩
  obtain ⟨p, hp, hen⟩ := hen
  have hharmless : StateRuns.Along takeoverStep HarmlessStep
      (connectedTo (newInterestTracker 100 false) table 0 2) as := by decide
  have h := run_takeover_keeps_interest (by decide) false 10 100 leftBehind rfl hp hen 2 false (s := s) rfl
    hharmless
  have hd : s.drained := ⟨by decide, 0, by decide, by decide⟩
  exact ⟨h.1, h.2.1, by decide, by decide, h.2.2 hd⟩

/-- The consumer restarted and its new session sent a complete snapshot, then a delta that the
old session had read is applied: it plants a filter nobody announced, and the next delta of
the new session is ignored because its generation is lower. -/
theorem late_delta_hides_new_ones :
    let table := StateRuns.run InterestTable.step (InterestTable.newInterestTable [true] false 10 100) leftBehind
    let as : List TakeoverStep :=
      [.link (.attach .stored), .link (.deliver 0), .stale (.delta ⟨5, [⟨1, 0, [0x78]⟩]⟩) 0,
        .link (.track .stored (.filtersAdded [[0x61]])), .link (.track .stored .flush),
        .link (.take .stored), .link (.deliver 0)]
    let s := StateRuns.run takeoverStep (connectedTo (newInterestTracker 100 false) table 0 2) as
    s.drained ∧ s.ignored = 1 ∧ s.shadow.exceeded = false ∧
      s.tracker.announced.lookup [0x61] = some ⟨interestVol, 0, [0x61]⟩ ∧
      ∃ p : PeerInterest, s.table.peers[s.idx]? = some p ∧ p.entries.lookup [0x61] = none ∧
        p.entries.lookup [0x78] = some ⟨interestVol, 0⟩ := by
  intro table as s
  have hpeer : (s.table.peers[s.idx]?.map (fun p : PeerInterest => (p.entries.lookup [0x61],
      p.entries.lookup [0x78]))) = some (none, some ⟨interestVol, 0⟩) := by decide
  obtain ⟨p, hp, hlook⟩ := Option.map_eq_some_iff.mp hpeer
  rw [Prod.mk.injEq] at hlook
  exact ⟨⟨by decide, 0, by decide, by decide⟩, by decide,
    by decide, by decide, p, hp, hlook.1, hlook.2⟩

end InterestLink

end MonsterMQ.PeerLink
