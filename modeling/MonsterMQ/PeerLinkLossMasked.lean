import MonsterMQ.PeerLinkLossPulled

/-!
# Loss accounting of a masked log under concurrent reads

`accountEvictLocked` charges a loss when the record is evicted, unless a read is open; then `observeLocked`
does it later. `NeedSys` records which evicted offsets consumer `c` really lost.
-/

namespace MonsterMQ.PeerLink

open LittleEndian List

/-- The read of `c` was open when the record at `x` was evicted, and still is. -/
def ReadOp.overlaps (c x : ℕ) (r : ReadOp) : Bool :=
  match r.phase with
  | .scanning scan => r.call.c = c && scan.lso ≤ x
  | _ => false

namespace LogSys

@[grind =] def overlapped (s : LogSys) (c x : ℕ) : Bool := s.reads.any (ReadOp.overlaps c x)

@[grind =] def commits (c : ℕ) (s : LogSys) : LogOp → ℕ
  | .commit d off => if d = c ∧ (s.log.commit d off).isOk then off else 0
  | _ => 0

@[grind =] def returns (c : ℕ) (s : LogSys) : LogOp → Finset ℕ
  | .readComplete k =>
    match s.reads[k]? with
    | some ⟨call, _, .scanning scan⟩ =>
      if call.c = c ∧ scan.running = false then scan.offsets.toFinset else ∅
    | _ => ∅
  | _ => ∅

end LogSys

/-- A run with the largest offset `c` committed, the offsets it was returned, the
evicted offsets that an open read may still return, and the offsets it lost. -/
structure NeedSys where
  sys : LogSys
  committed : ℕ
  returned : Finset ℕ
  pending : Finset ℕ
  lost : Finset ℕ

namespace NeedSys

def start (l : Log) : NeedSys := ⟨LogSys.start l, 0, ∅, ∅, ∅⟩

/-- Offsets evicted by the step that `c` needed and had neither committed nor got. -/
@[grind =] def dropped (c : ℕ) (t : NeedSys) (op : LogOp) : Finset ℕ :=
  ((t.sys.step op).evicted \ t.sys.evicted).filter (fun x =>
    hasBit (Log.markAt (t.sys.step op).marks x) c = true ∧ t.committed ≤ x ∧ x ∉ t.returned)

/-- An offset `c` needed is lost if it was neither committed nor returned when it was
evicted, nor by the time the last read overlapping the eviction has completed. -/
@[grind =] def step (c : ℕ) (t : NeedSys) (op : LogOp) : NeedSys :=
  let s := t.sys.step op
  let committed := max t.committed (t.sys.commits c op)
  let returned := t.returned ∪ t.sys.returns c op
  let undecided := t.pending ∪ t.dropped c op
  { sys := s
    committed := committed
    returned := returned
    pending := undecided.filter (fun x => s.overlapped c x = true)
    lost := t.lost ∪ undecided.filter (fun x =>
      s.overlapped c x = false ∧ committed ≤ x ∧ x ∉ returned) }

def run (c : ℕ) (l : Log) (ops : List LogOp) : NeedSys := StateRuns.run (step c) (start l) ops

end NeedSys

/-- The end of what `c` has behind it in the log's own terms. -/
@[grind =] def LogConsumer.accounted (con : LogConsumer) : ℕ :=
  max (max con.acctNext con.committed) con.served

theorem LogConsumer.committed_le_accounted (con : LogConsumer) : con.committed ≤ con.accounted := by
  simp only [LogConsumer.accounted]
  omega

@[grind =] def ReadOp.reach (c : ℕ) (r : ReadOp) : ℕ :=
  match r.phase with
  | .scanning scan => if r.call.c = c then scan.base + scan.i else 0
  | _ => 0

namespace LogSys

/-- The end of what is behind `c` once its open reads have completed as they stand. -/
@[grind =] def reach (s : LogSys) (c : ℕ) : ℕ :=
  (s.reads.map (ReadOp.reach c)).foldr max (s.log.con c).accounted

/-- The lagging skip of `c` finds a record for `c` at `lso`, or no record. -/
def Stuck (c : ℕ) (l : Log) : Prop := l.lso = l.leo ∨ hasBit (l.maskAtLocked l.lso) c = true
deriving Decidable

/-- The condition on one step, in the state before it. Evicted offsets that are not
accounted for yet (`reach ≤ x < lso`) must not be passed by a position, by the start
of a read or by a charge, and while a read is open only records for `c` may join them.
`Resume`, `ClearConsumerBits` and `MarkServed` are not among the steps considered. -/
def CleanLoss (c : ℕ) (s : LogSys) : LogOp → Prop
  | .append frame kind mask =>
    if (s.log.con c).reading = 0 then
      (s.step (.append frame kind mask)).evicted \ s.evicted = ∅ ∨ s.log.lso ≤ s.reach c
    else ∀ x ∈ (s.step (.append frame kind mask)).evicted \ s.evicted, s.reach c ≤ x →
      hasBit (Log.markAt s.marks x) c = true
  | .commit d off => d = c → off ≤ (s.log.con c).committed ∨ s.log.lso ≤ s.reach c ∨
      if (s.log.con c).reading = 0 then off ≤ s.reach c ∧ Stuck c s.log
      else s.log.lso ≤ off ∨ Stuck c s.log
  | .advanceSkipped => s.log.lso ≤ s.reach c ∨ Stuck c s.log
  | .readSnapshot k => ∀ r ∈ s.reads[k]?, r.call.c = c → r.call.start ≤ s.log.leo →
      r.call.start ≤ max (s.reach c) s.log.lso ∧
      ((s.log.con c).reading = 0 ∨ s.log.lso ≤ s.reach c)
  | .resume _ _ _ | .clearConsumerBits _ _ _ | .markServed _ _ => False
  | _ => True

instance (c : ℕ) (s : LogSys) : ∀ op, Decidable (CleanLoss c s op)
  | .append frame kind mask => inferInstanceAs (Decidable (if (s.log.con c).reading = 0 then
      (s.step (.append frame kind mask)).evicted \ s.evicted = ∅ ∨ s.log.lso ≤ s.reach c
      else ∀ x ∈ (s.step (.append frame kind mask)).evicted \ s.evicted, s.reach c ≤ x →
        hasBit (Log.markAt s.marks x) c = true))
  | .commit d off => inferInstanceAs (Decidable (d = c → off ≤ (s.log.con c).committed ∨
      s.log.lso ≤ s.reach c ∨ if (s.log.con c).reading = 0 then off ≤ s.reach c ∧ Stuck c s.log
      else s.log.lso ≤ off ∨ Stuck c s.log))
  | .advanceSkipped => inferInstanceAs (Decidable (s.log.lso ≤ s.reach c ∨ Stuck c s.log))
  | .readSnapshot k => inferInstanceAs (Decidable (∀ r ∈ s.reads[k]?, r.call.c = c →
      r.call.start ≤ s.log.leo → r.call.start ≤ max (s.reach c) s.log.lso ∧
      ((s.log.con c).reading = 0 ∨ s.log.lso ≤ s.reach c)))
  | .resume _ _ _ | .clearConsumerBits _ _ _ | .markServed _ _ => isFalse (fun h => h)
  | .setConsumerState _ _ | .observeConsumer _ | .sealLog | .clearSlot _ | .readCall _
  | .readAdvance _ | .readComplete _ => isTrue trivial

end LogSys

@[grind =] def ReadOp.holds (c : ℕ) (r : ReadOp) (scan : ReadScan) : Prop :=
  r.call.c = c ∧ scan ∈ r.phase.scan?

@[grind =] def OpenScan (reads : List ReadOp) (c : ℕ) (scan : ReadScan) : Prop := ∃ r ∈ reads, r.holds c scan

/-- The `k`-th call and the others. -/
theorem openScan_split {reads : List ReadOp} {k : ℕ} {r : ReadOp} (hk : reads[k]? = some r) (c : ℕ) :
    ∃ P : ReadScan → Prop, (∀ scan, OpenScan reads c scan ↔ r.holds c scan ∨ P scan) ∧
      ∀ r' scan, OpenScan (reads.set k r') c scan ↔ r'.holds c scan ∨ P scan := by
  have hlt : k < reads.length := (List.getElem?_eq_some_iff.mp hk).1
  refine ⟨fun scan => ∃ j, j ≠ k ∧ ∃ r₀, reads[j]? = some r₀ ∧ r₀.holds c scan, ?_, ?_⟩
  · intro scan
    constructor
    · rintro ⟨r₀, hr₀, hs⟩
      obtain ⟨j, hj⟩ := mem_iff_getElem?.mp hr₀
      by_cases hjk : j = k
      · subst hjk
        rw [hk] at hj
        cases hj
        exact Or.inl hs
      · exact Or.inr ⟨j, hjk, r₀, hj, hs⟩
    · rintro (hs | ⟨j, -, r₀, hj, hs⟩)
      · exact ⟨r, mem_of_getElem? hk, hs⟩
      · exact ⟨r₀, mem_of_getElem? hj, hs⟩
  · intro r' scan
    constructor
    · rintro ⟨r₀, hr₀, hs⟩
      obtain ⟨j, hj⟩ := mem_iff_getElem?.mp hr₀
      by_cases hjk : j = k
      · subst hjk
        rw [List.getElem?_set_self hlt] at hj
        cases hj
        exact Or.inl hs
      · rw [List.getElem?_set_ne (Ne.symm hjk)] at hj
        exact Or.inr ⟨j, hjk, r₀, hj, hs⟩
    · rintro (hs | ⟨j, hjk, r₀, hj, hs⟩)
      · exact ⟨r', mem_set hlt r', hs⟩
      · rw [← List.getElem?_set_ne (Ne.symm hjk) (a := r')] at hj
        exact ⟨r₀, mem_of_getElem? hj, hs⟩

namespace LogSys

variable {s s' : LogSys} {c : ℕ}

private theorem lt_foldr_max {xs : List ℕ} {a x : ℕ} : x < xs.foldr max a ↔ x < a ∨ ∃ y ∈ xs, x < y := by
  induction xs with
  | nil => simp
  | cons y ys ih =>
    rw [foldr_cons, lt_max_iff, ih]
    simp only [mem_cons, exists_eq_or_imp]
    tauto

private theorem lt_readReach_iff {r : ReadOp} {x : ℕ} :
    x < r.reach c ↔ ∃ scan, r.holds c scan ∧ x < scan.base + scan.i := by
  obtain ⟨call, attempt, phase⟩ := r
  cases phase with
  | scanning scan =>
    by_cases hcc : call.c = c
    · simp [ReadOp.reach, ReadOp.holds, ReadPhase.scan?, hcc]
    · simp [ReadOp.reach, ReadOp.holds, hcc]
  | waiting | returned => simp [ReadOp.reach, ReadOp.holds, ReadPhase.scan?]

theorem lt_reach_iff {x : ℕ} : x < s.reach c ↔ x < (s.log.con c).accounted ∨
    ∃ scan, OpenScan s.reads c scan ∧ x < scan.base + scan.i := by
  simp only [reach, lt_foldr_max, mem_map, exists_exists_and_eq_and, lt_readReach_iff]
  refine or_congr_right ?_
  constructor
  · rintro ⟨r, hr, scan, hs, hx⟩
    exact ⟨scan, ⟨r, hr, hs⟩, hx⟩
  · rintro ⟨scan, ⟨r, hr, hs⟩, hx⟩
    exact ⟨r, hr, scan, hs, hx⟩

theorem overlapped_iff {x : ℕ} :
    s.overlapped c x = true ↔ ∃ scan, OpenScan s.reads c scan ∧ scan.lso ≤ x := by
  have hread : ∀ r : ReadOp, r.overlaps c x = true ↔ ∃ scan, r.holds c scan ∧ scan.lso ≤ x := by
    intro r
    obtain ⟨call, attempt, phase⟩ := r
    cases phase with
    | scanning scan => simp [ReadOp.overlaps, ReadOp.holds, ReadPhase.scan?]
    | waiting => simp [ReadOp.overlaps, ReadOp.holds, ReadPhase.scan?]
    | returned => simp [ReadOp.overlaps, ReadOp.holds, ReadPhase.scan?]
  simp only [overlapped, any_eq_true, hread]
  constructor
  · rintro ⟨r, hr, scan, hs, hx⟩
    exact ⟨scan, ⟨r, hr, hs⟩, hx⟩
  · rintro ⟨scan, ⟨r, hr, hs⟩, hx⟩
    exact ⟨r, hr, scan, hs, hx⟩

@[grind =] def Offered (s : LogSys) (c x : ℕ) : Prop := ∃ scan, OpenScan s.reads c scan ∧ x ∈ scan.offsets

theorem accounted_le_reach (s : LogSys) (c : ℕ) : (s.log.con c).accounted ≤ s.reach c := by
  by_contra h
  have := (lt_reach_iff).mpr (Or.inl (not_le.mp h))
  omega

theorem scan_le_reach {scan : ReadScan} (h : OpenScan s.reads c scan) : scan.base + scan.i ≤ s.reach c := by
  by_contra hlt
  have := (lt_reach_iff).mpr (Or.inr ⟨scan, h, not_le.mp hlt⟩)
  omega

section

variable (h : Sound s)
include h

theorem Sound.openScan_iff (hc : c < s.log.consumers.length) :
    (s.log.con c).reading ≠ 0 ↔ ∃ scan, OpenScan s.reads c scan := by
  have hopen : ∀ r : ReadOp, r.isOpen c = true ↔ ∃ scan, r.holds c scan := by
    intro r
    obtain ⟨call, attempt, phase⟩ := r
    cases phase <;> simp [ReadOp.isOpen, ReadOp.holds, ReadPhase.isScanning, ReadPhase.scan?]
  rw [h.reading c hc, ← Nat.pos_iff_ne_zero, countP_pos_iff]
  simp only [hopen, OpenScan]
  constructor
  · rintro ⟨r, hr, scan, hs⟩
    exact ⟨scan, r, hr, hs⟩
  · rintro ⟨scan, r, hr, hs⟩
    exact ⟨r, hr, scan, hs⟩

theorem Sound.scanOk {scan : ReadScan} (hs : OpenScan s.reads c scan) :
    scan.lso ≤ scan.base ∧ scan.lso ≤ s.log.lso ∧ 1 ≤ scan.base := by
  obtain ⟨r, hr, -, hscan⟩ := hs
  have hok := (h.reads r hr).scan scan hscan
  have h1 := hok.base_eq
  have h2 := hok.one_le_start
  exact ⟨by omega, hok.lso_le, by omega⟩

theorem Sound.reach_eq (hc : c < s.log.consumers.length)
    (hread : (s.log.con c).reading = 0) : s.reach c = (s.log.con c).accounted := by
  refine le_antisymm ?_ (accounted_le_reach s c)
  by_contra hlt
  rcases (lt_reach_iff).mp (not_le.mp hlt) with hx | ⟨scan, hs, -⟩
  · omega
  · exact (h.openScan_iff hc).mpr ⟨scan, hs⟩ hread

theorem Sound.reading_ne (hc : c < s.log.consumers.length) {x : ℕ}
    (hx : s.overlapped c x = true) : (s.log.con c).reading ≠ 0 := by
  obtain ⟨scan, hs, -⟩ := (overlapped_iff).mp hx
  exact (h.openScan_iff hc).mpr ⟨scan, hs⟩

theorem Sound.overlapped_of_le (hc : c < s.log.consumers.length)
    (hread : (s.log.con c).reading ≠ 0) {x : ℕ} (hx : s.reach c ≤ x ∨ s.log.lso ≤ x) :
    s.overlapped c x = true := by
  obtain ⟨scan, hs⟩ := (h.openScan_iff hc).mp hread
  obtain ⟨h1, h2, -⟩ := h.scanOk hs
  have h3 := scan_le_reach hs
  exact (overlapped_iff).mpr ⟨scan, hs, by omega⟩

theorem Sound.overlapped_of_offered {x : ℕ} (hx : s.Offered c x) : s.overlapped c x = true := by
  obtain ⟨scan, hs, hoff⟩ := hx
  obtain ⟨h1, -⟩ := h.scanOk hs
  simp only [ReadScan.offsets, mem_map] at hoff
  obtain ⟨d, -, rfl⟩ := hoff
  exact (overlapped_iff).mpr ⟨scan, hs, by omega⟩

end

end LogSys

/-- Behind the scan, exactly the records for `c` have been taken, or all of them. -/
structure ScanTaken (marks : List Mask) (c : ℕ) (scan : ReadScan) : Prop where
  taken : ∀ x, scan.base ≤ x → x < scan.base + scan.i →
    hasBit (Log.markAt marks x) c = true → x ∈ scan.offsets
  lt : ∀ x ∈ scan.offsets, x < scan.base + scan.i

/-- The log's account of `c` against what `c` lost. Offsets from `reach` up to `lso`
are owed: the log has still to charge them and will, and all of them are lost. -/
structure Ledger (c : ℕ) (t : NeedSys) : Prop where
  tracked : t.sys.Tracked
  masked : t.sys.log.masked = true
  c_lt : c < t.sys.log.consumers.length
  scans : ∀ scan, OpenScan t.sys.reads c scan → ScanTaken t.sys.marks c scan
  committed_le : t.committed ≤ (t.sys.log.con c).committed
  returned_lt : ∀ x ∈ t.returned, x < (t.sys.log.con c).accounted
  spared : ∀ x, 1 ≤ x → x < t.sys.reach c → hasBit (Log.markAt t.sys.marks x) c = true →
    (t.sys.log.lso ≤ x ∧ x < t.sys.log.leo) ∨ x ∈ t.pending →
    x < t.committed ∨ x ∈ t.returned ∨ t.sys.Offered c x
  pending_ok : ∀ x ∈ t.pending, 1 ≤ x ∧ x < t.sys.log.lso ∧
    hasBit (Log.markAt t.sys.marks x) c = true ∧ t.sys.overlapped c x = true
  owed_open : (t.sys.log.con c).reading ≠ 0 → ∀ x, t.sys.reach c ≤ x → x < t.sys.log.lso →
    x ∈ t.pending
  owed_closed : (t.sys.log.con c).reading = 0 → ∀ x, t.sys.reach c ≤ x → x < t.sys.log.lso →
    x ∈ t.lost
  lost_lt : ∀ x ∈ t.lost, x < t.sys.log.lso
  lost_open : (t.sys.log.con c).reading ≠ 0 → ∀ x ∈ t.lost, x < (t.sys.log.con c).accounted
  total : (t.sys.log.con c).lostTotal =
    (t.lost.filter (fun x => x < (t.sys.log.con c).accounted)).card

namespace Ledger

variable {c : ℕ} {t : NeedSys}

theorem start {epoch : ℕ} {cfg : LogConfig} {l : Log} (h : newLog epoch cfg = .ok l)
    (hm : cfg.masked = true) (hc : c < cfg.consumers.length) : Ledger c (NeedSys.start l) := by
  obtain ⟨hlen, hcon⟩ := Log.newLog_con h
  have hcon' : (NeedSys.start l).sys.log.con c = newLogConsumer (cfg.consumers.getD c "") := hcon c hc
  have htr := LogSys.tracked_start h
  have hc' : c < (LogSys.start l).log.consumers.length := hlen ▸ hc
  have hreach : (NeedSys.start l).sys.reach c = 1 :=
    (htr.sound.reach_eq hc' (congrArg LogConsumer.reading hcon')).trans
      (congrArg LogConsumer.accounted hcon')
  refine ⟨htr, (Log.newLog_eq h).1.trans hm, hc', ?_, ?_, ?_, ?_, ?_, ?_, ?_, ?_, ?_, ?_⟩
  · rintro scan ⟨r, hr, -⟩
    simp [NeedSys.start, LogSys.start] at hr
  · simp [NeedSys.start]
  · simp [NeedSys.start]
  · intro x h1 hx
    rw [hreach] at hx
    omega
  · simp [NeedSys.start]
  · rw [hcon']
    exact fun hn => absurd rfl hn
  · intro _ x hx hlso
    rw [hreach] at hx
    rcases htr.trimmed x hx hlso with hev | hall
    · simp [LogSys.start] at hev
    · have := hall c hc'
      rw [show (LogSys.start l).log.con c = _ from hcon'] at this
      simp only [newLogConsumer] at this
      omega
  · simp [NeedSys.start]
  · simp [NeedSys.start]
  · rw [hcon']
    rfl

theorem ne_nil (h : Ledger c t) : t.sys.log.consumers ≠ [] := by
  intro h0
  have := h.c_lt
  simp [h0] at this

theorem step_eq (h : Ledger c t) {op : LogOp} (hev : (t.sys.step op).evicted = t.sys.evicted)
    (hret : t.sys.returns c op = ∅)
    (hover : ∀ x, t.sys.overlapped c x = true → (t.sys.step op).overlapped c x = true) :
    t.step c op = ⟨t.sys.step op, max t.committed (t.sys.commits c op), t.returned, t.pending,
      t.lost⟩ := by
  have hdrop : t.dropped c op = ∅ := by simp [NeedSys.dropped, hev]
  have hpend : ∀ x ∈ t.pending, (t.sys.step op).overlapped c x = true :=
    fun x hx => hover x (h.pending_ok x hx).2.2.2
  have h1 : t.pending.filter (fun x => (t.sys.step op).overlapped c x = true) = t.pending :=
    Finset.filter_true_of_mem hpend
  have h2 : t.pending.filter (fun x => (t.sys.step op).overlapped c x = false ∧
      max t.committed (t.sys.commits c op) ≤ x ∧ x ∉ t.returned) = ∅ := by
    refine Finset.filter_false_of_mem ?_
    intro x hx hn
    rw [hpend x hx] at hn
    exact absurd hn.1 (by simp)
  simp only [NeedSys.step, hdrop, hret, Finset.union_empty, h1, h2]

/-- The position of `c` over one step that otherwise leaves its account alone. -/
structure Moves (c : ℕ) (s s' : LogSys) : Prop where
  leo : s'.log.leo = s.log.leo
  marks : s'.marks = s.marks
  evicted : s'.evicted = s.evicted
  scans : ∀ scan, OpenScan s'.reads c scan ↔ OpenScan s.reads c scan
  acct : (s'.log.con c).acctNext = (s.log.con c).acctNext
  served : (s'.log.con c).served = (s.log.con c).served
  reading : (s'.log.con c).reading = (s.log.con c).reading
  lost : (s'.log.con c).lostTotal = (s.log.con c).lostTotal
  committed_le : (s.log.con c).committed ≤ (s'.log.con c).committed
  lso_le : s.log.lso ≤ s'.log.lso
  lso : s'.log.lso = s.log.lso ∨ s'.log.lso ≤ (s'.log.con c).committed

section Moves
variable {s s' : LogSys}

theorem Moves.overlapped (e : Moves c s s') (x : ℕ) : s'.overlapped c x = true ↔ s.overlapped c x = true := by
  simp only [LogSys.overlapped_iff, e.scans]

theorem Moves.offered (e : Moves c s s') (x : ℕ) : s'.Offered c x ↔ s.Offered c x := by
  simp only [LogSys.Offered, e.scans]

theorem Moves.accounted (e : Moves c s s') : (s'.log.con c).accounted =
    max (s.log.con c).accounted (s'.log.con c).committed := by
  have h1 := e.acct
  have h2 := e.served
  have h3 := e.committed_le
  simp only [LogConsumer.accounted]
  omega

theorem Moves.reach (e : Moves c s s') : s'.reach c = max (s.reach c) (s'.log.con c).committed := by
  refine eq_of_forall_lt_iff (fun x => ?_)
  rw [lt_max_iff, LogSys.lt_reach_iff, LogSys.lt_reach_iff, e.accounted, lt_max_iff]
  simp only [e.scans]
  exact or_right_comm

end Moves

/-- A move of `C[c]` to `y` that passes no owed offset and no held record for `c`, other
than those that `c` committed by now. -/
theorem move (h : Ledger c t) {op : LogOp} (e : Moves c t.sys (t.sys.step op)) {K : ℕ}
    (hK : t.committed ≤ K) (hKy : K ≤ ((t.sys.step op).log.con c).committed)
    (hheld : ∀ x, t.sys.reach c ≤ x → x < ((t.sys.step op).log.con c).committed →
      t.sys.log.lso ≤ x → hasBit (Log.markAt t.sys.marks x) c = true → x < K)
    (hclosed : (t.sys.log.con c).reading = 0 → ∀ x, t.sys.reach c ≤ x → x < t.sys.log.lso →
      ((t.sys.step op).log.con c).committed ≤ x)
    (hopen : (t.sys.log.con c).reading ≠ 0 → ∀ x, t.sys.reach c ≤ x → x < t.sys.log.lso →
      x < ((t.sys.step op).log.con c).committed → x < K) :
    Ledger c ⟨t.sys.step op, K, t.returned, t.pending, t.lost⟩ := by
  have hkeep := h.tracked.sound.step op
  have hreach := e.reach
  have hacc := e.accounted
  have hle := LogSys.accounted_le_reach t.sys c
  have hlso := e.lso
  have hlso' := e.lso_le
  have hcom := (t.sys.log.con c).committed_le_accounted
  refine ⟨h.tracked.step h.ne_nil op, hkeep.2.masked.trans h.masked,
    by rw [hkeep.2.length_eq]; exact h.c_lt, ?_, hKy, ?_, ?_, ?_, ?_, ?_, ?_, ?_, ?_⟩
  · intro scan hs
    simp only [e.marks]
    exact h.scans scan ((e.scans scan).mp hs)
  · intro x hx
    have := h.returned_lt x hx
    simp only
    omega
  · intro x h1 hx hbit hwhere
    simp only [e.marks, e.leo] at hbit hwhere
    simp only [e.offered]
    simp only at hx
    by_cases hold : x < t.sys.reach c
    · have hwhere' : (t.sys.log.lso ≤ x ∧ x < t.sys.log.leo) ∨ x ∈ t.pending := by
        rcases hwhere with ⟨h2, h3⟩ | hp
        · exact Or.inl ⟨by omega, h3⟩
        · exact Or.inr hp
      rcases h.spared x h1 hold hbit hwhere' with hx | hx
      · exact Or.inl (by omega)
      · exact Or.inr hx
    · rcases hwhere with ⟨h2, -⟩ | hp
      · exact Or.inl (hheld x (by omega) (by omega) (by omega) hbit)
      · obtain ⟨-, h2, -, h3⟩ := h.pending_ok x hp
        exact Or.inl (hopen (h.tracked.sound.reading_ne h.c_lt h3) x (by omega) h2 (by omega))
  · intro x hx
    obtain ⟨h1, h2, h3, h4⟩ := h.pending_ok x hx
    refine ⟨h1, by simp only; omega, by simp only [e.marks]; exact h3, (e.overlapped x).mpr h4⟩
  · intro hread x hx hx'
    simp only [e.reading] at hread
    simp only at hx hx'
    exact h.owed_open hread x (by omega) (by omega)
  · intro hread x hx hx'
    simp only [e.reading] at hread
    simp only at hx hx'
    exact h.owed_closed hread x (by omega) (by omega)
  · intro x hx
    have := h.lost_lt x hx
    simp only
    omega
  · intro hread x hx
    simp only [e.reading] at hread
    have := h.lost_open hread x hx
    simp only
    omega
  · simp only [e.lost, h.total]
    congr 1
    refine Finset.filter_congr ?_
    intro x hx
    by_cases hread : (t.sys.log.con c).reading = 0
    · have h1 := h.lost_lt x hx
      have h2 := hclosed hread x
      have h3 := h.tracked.sound.reach_eq h.c_lt hread
      omega
    · have h1 := h.lost_open hread x hx
      omega

/-- A step that leaves `C[c]` where it is. -/
theorem stay (h : Ledger c t) {op : LogOp} (e : Moves c t.sys (t.sys.step op))
    (hcom : ((t.sys.step op).log.con c).committed = (t.sys.log.con c).committed)
    (hcommits : t.sys.commits c op ≤ (t.sys.log.con c).committed)
    (hret : t.sys.returns c op = ∅) : Ledger c (t.step c op) := by
  have hle := h.committed_le
  have hreach := LogSys.accounted_le_reach t.sys c
  have hacc := (t.sys.log.con c).committed_le_accounted
  rw [h.step_eq e.evicted hret (fun x => (e.overlapped x).mpr)]
  refine h.move e (le_max_left _ _) (by omega) ?_ ?_ ?_
  · intro x h1 h2
    omega
  · intro _ x h1 h2
    omega
  · intro _ x h1 h2 h3
    omega

theorem Moves.of_con {s s' : LogSys} (hcon : s'.log.con c = s.log.con c)
    (hlso : s'.log.lso = s.log.lso) (hleo : s'.log.leo = s.log.leo) (hmarks : s'.marks = s.marks)
    (hev : s'.evicted = s.evicted)
    (hscans : ∀ scan, OpenScan s'.reads c scan ↔ OpenScan s.reads c scan) : Moves c s s' :=
  ⟨hleo, hmarks, hev, hscans, by rw [hcon], by rw [hcon], by rw [hcon], by rw [hcon], by rw [hcon],
    hlso.ge, Or.inl hlso⟩

theorem Moves.of_shifts (s s' : LogSys) {P : ℕ → ℕ → Prop} (h : Log.Shifts P s.log s'.log)
    (hc : c < s.log.consumers.length) (hP : ∀ y, P c y → (s.log.con c).committed ≤ y)
    (hmarks : s'.marks = s.marks) (hev : s'.evicted = s.evicted) (hreads : s'.reads = s.reads) :
    Moves c s s' ∧ P c (s'.log.con c).committed := by
  obtain ⟨y, hy, hPy, h1, h2⟩ := h.con hc
  refine ⟨⟨h.fields.2.1, hmarks, hev, fun _ => by rw [hreads], ?_, ?_, ?_, ?_, ?_, h1, ?_⟩, ?_⟩
  · rw [hy]
  · rw [hy]
  · rw [hy]
  · rw [hy]
  · rw [hy]
    exact hP y hPy
  · rw [hy]
    exact h2
  · rw [hy]
    exact hPy

/-- A position at or below `lso` stays where it is when the lagging skip is stuck. -/
theorem stuck_skipTo {l : Log} {start y : ℕ} (hstuck : LogSys.Stuck c l)
    (hskip : Log.SkipTo l c start y) (hle : start ≤ l.lso) : y = start := by
  rcases hskip with rfl | ⟨-, h1, h2, h3⟩
  · rfl
  · rcases hstuck with heq | hbit
    · omega
    · have := h3 l.lso (by omega) (by omega)
      rw [hbit] at this
      cases this

theorem commit (h : Ledger c t) {d off : ℕ} (hclean : t.sys.CleanLoss c (.commit d off)) :
    Ledger c (t.step c (.commit d off)) := by
  have hv := h.tracked.sound.invariant h.ne_nil
  have hreads := LogSys.reads_step t.sys (.commit d off) (Or.inl rfl)
  cases hr : t.sys.log.commit d off with
  | error e =>
    have hsame : t.sys.step (.commit d off) = t.sys := by
      simp [LogSys.step, LogSys.stepOut, LogSys.stepCommit, hr]
    refine h.stay (Moves.of_con ?_ ?_ ?_ ?_ ?_ ?_) ?_ ?_ rfl
    all_goals simp [hsame, LogSys.commits, hr, Except.isOk, Except.toBool]
  | ok r =>
    obtain ⟨-, -, -, hshift, -⟩ := hv.commit hr
    have hstep : t.sys.step (.commit d off) = t.sys.after r.1 r.2 := by
      simp [LogSys.step, LogSys.stepOut, LogSys.stepCommit, hr]
    have hmoves := Moves.of_shifts (c := c) t.sys (t.sys.step (.commit d off))
      (by rw [hstep]; exact hshift) h.c_lt ?_ (by rw [hstep]; rfl) (by rw [hstep]; rfl) hreads
    · obtain ⟨e, hP⟩ := hmoves
      unfold Log.OnlyMoves at hP
      split at hP
      · rename_i hcd
        subst hcd
        have hcommits : t.sys.commits c (.commit c off) = off := by
          simp [LogSys.commits, hr, Except.isOk, Except.toBool]
        split at hP
        · rename_i hoff
          exact h.stay e hP (by rw [hcommits]; exact hoff) rfl
        · rename_i hoff
          have hle := h.committed_le
          have hKeq : max t.committed (t.sys.commits c (.commit c off)) = off := by omega
          rw [h.step_eq e.evicted rfl (fun x => (e.overlapped x).mpr), hKeq]
          have hcases := (hclean rfl).resolve_left hoff
          refine h.move e (by omega) hP.le ?_ ?_ ?_
          · intro x h1 h2 h3 hbit
            by_contra hx
            rw [LogSys.skipTo_clean hv hP (not_lt.mp hx) h2 h3] at hbit
            cases hbit
          · intro hread x h1 h2
            rw [if_pos hread] at hcases
            obtain ⟨h3, hstuck⟩ := hcases.resolve_left (by omega)
            rw [stuck_skipTo hstuck hP (by omega)]
            omega
          · intro hread x h1 h2 h3
            rw [if_neg hread] at hcases
            rcases hcases.resolve_left (by omega) with h4 | hstuck
            · omega
            · by_contra hx
              rw [stuck_skipTo hstuck hP (by omega)] at h3
              omega
      · rename_i hcd
        refine h.stay e hP ?_ rfl
        simp [LogSys.commits, Ne.symm hcd]
    · intro y hy
      refine onlyMoves_committed_le hy ?_
      rintro rfl hy
      split at hy
      · exact hy.ge
      · have := hy.le
        omega

theorem advanceSkipped (h : Ledger c t) (hclean : t.sys.CleanLoss c .advanceSkipped) :
    Ledger c (t.step c .advanceSkipped) := by
  have hv := h.tracked.sound.invariant h.ne_nil
  obtain ⟨e, hP⟩ := Moves.of_shifts (c := c) t.sys (t.sys.step .advanceSkipped)
    hv.advanceSkipped.2.1 h.c_lt (fun y hy => hy.le) rfl rfl rfl
  have hle := h.committed_le
  have hacc : (t.sys.log.con c).committed ≤ t.sys.reach c := by
    have := LogSys.accounted_le_reach t.sys c
    simp only [LogConsumer.accounted] at this
    omega
  have howed : ∀ x, t.sys.reach c ≤ x → x < t.sys.log.lso →
      ((t.sys.step .advanceSkipped).log.con c).committed ≤ x := by
    intro x h1 h2
    rcases hclean with h3 | hstuck
    · omega
    · rw [stuck_skipTo hstuck hP (by omega)]
      omega
  rw [h.step_eq e.evicted rfl (fun x => (e.overlapped x).mpr)]
  have hKeq : max t.committed (t.sys.commits c .advanceSkipped) = t.committed := by
    simp [LogSys.commits]
  rw [hKeq]
  refine h.move e le_rfl (hle.trans e.committed_le) ?_ (fun _ => howed) ?_
  · intro x h1 h2 h3 hbit
    rw [LogSys.skipTo_clean hv hP (by omega) h2 h3] at hbit
    cases hbit
  · intro _ x h1 h2 h3
    have := howed x h1 h2
    omega

theorem observe_charge (lso : ℕ) (con : LogConsumer) (hread : con.reading = 0) :
    (Log.observe lso con).accounted = max con.accounted lso ∧
      (Log.observe lso con).lostTotal = con.lostTotal + (lso - con.accounted) := by
  have hzero : ¬ con.reading > 0 := by omega
  simp only [Log.observe, hzero, if_false, LogConsumer.accounted]
  split
  · constructor
    · simp only
      omega
    · rfl
  · constructor
    · simp only
      omega
    · simp only
      omega

theorem observe (h : Ledger c t) (hread : (t.sys.log.con c).reading = 0) :
    Ledger c (t.step c (.observeConsumer c)) ∧
      (t.sys.step (.observeConsumer c)).log.lso ≤ (t.sys.step (.observeConsumer c)).reach c ∧
      ((t.step c (.observeConsumer c)).sys.log.con c).lostTotal =
        (t.step c (.observeConsumer c)).lost.card := by
  obtain ⟨hacc, htotal⟩ := observe_charge t.sys.log.lso (t.sys.log.con c) hread
  have hcon : (t.sys.step (.observeConsumer c)).log.con c =
      Log.observe t.sys.log.lso (t.sys.log.con c) := by
    change (t.sys.log.observeConsumer c).con c = _
    rw [Log.observeConsumer, if_neg (not_le.mpr h.c_lt), Log.observeLocked,
      Log.con_updCon_self _ _ h.c_lt]
  have hlog : (t.sys.step (.observeConsumer c)).log.lso = t.sys.log.lso ∧
      (t.sys.step (.observeConsumer c)).log.leo = t.sys.log.leo := by
    change (t.sys.log.observeConsumer c).lso = _ ∧ (t.sys.log.observeConsumer c).leo = _
    rw [Log.observeConsumer, if_neg (not_le.mpr h.c_lt)]
    exact ⟨rfl, rfl⟩
  rw [← hcon] at hacc htotal
  have hkeep := h.tracked.sound.step (.observeConsumer c)
  have hc' : c < (t.sys.step (.observeConsumer c)).log.consumers.length := by
    rw [hkeep.2.length_eq]
    exact h.c_lt
  have hread' : ((t.sys.step (.observeConsumer c)).log.con c).reading = 0 := by
    rw [hcon, Log.observe_reading, hread]
  have hreach := h.tracked.sound.reach_eq h.c_lt hread
  have hreach' := hkeep.1.reach_eq hc' hread'
  have hpend : t.pending = ∅ := by
    refine Finset.eq_empty_of_forall_notMem (fun x hx => ?_)
    exact h.tracked.sound.reading_ne h.c_lt (h.pending_ok x hx).2.2.2 hread
  have hstep : t.step c (.observeConsumer c) = ⟨t.sys.step (.observeConsumer c), t.committed,
      t.returned, t.pending, t.lost⟩ := by
    have hev : (t.sys.step (.observeConsumer c)).evicted = t.sys.evicted := rfl
    rw [h.step_eq hev rfl (fun x hx => hx)]
    simp [LogSys.commits]
  have hcount : ((t.sys.step (.observeConsumer c)).log.con c).lostTotal = t.lost.card := by
    have hsplit : t.lost = t.lost.filter (fun x => x < (t.sys.log.con c).accounted) ∪
        Finset.Ico (t.sys.log.con c).accounted t.sys.log.lso := by
      ext x
      simp only [Finset.mem_union, Finset.mem_filter, Finset.mem_Ico]
      constructor
      · intro hx
        have := h.lost_lt x hx
        by_cases hlt : x < (t.sys.log.con c).accounted
        · exact Or.inl ⟨hx, hlt⟩
        · exact Or.inr ⟨by omega, this⟩
      · rintro (⟨hx, -⟩ | ⟨h1, h2⟩)
        · exact hx
        · exact h.owed_closed hread x (by omega) h2
    have hdis : Disjoint (t.lost.filter (fun x => x < (t.sys.log.con c).accounted))
        (Finset.Ico (t.sys.log.con c).accounted t.sys.log.lso) := by
      rw [Finset.disjoint_left]
      intro x hx hx'
      have h1 := (Finset.mem_filter.mp hx).2
      have h2 := Finset.mem_Ico.mp hx'
      omega
    rw [htotal, h.total, hsplit, Finset.card_union_of_disjoint hdis, Nat.card_Ico, ← hsplit]
  refine ⟨?_, by omega, by rw [hstep]; exact hcount⟩
  rw [hstep]
  refine ⟨h.tracked.step h.ne_nil _, hkeep.2.masked.trans h.masked, hc', h.scans, ?_, ?_, ?_, ?_,
    fun hn => absurd hread' hn, ?_, ?_, fun hn => absurd hread' hn, ?_⟩
  · simp only [hcon, Log.observe_committed]
    exact h.committed_le
  · intro x hx
    have := h.returned_lt x hx
    simp only
    omega
  · intro x h1 hx hbit hwhere
    simp only [hpend, Finset.notMem_empty, or_false] at hwhere
    refine h.spared x h1 ?_ hbit (Or.inl ⟨by omega, by omega⟩)
    simp only at hx
    omega
  · intro x hx
    simp [hpend] at hx
  · intro _ x hx hx'
    simp only at hx hx'
    omega
  · intro x hx
    have := h.lost_lt x hx
    simp only
    omega
  · rw [hcount]
    congr 1
    refine (Finset.filter_true_of_mem ?_).symm
    intro x hx
    have := h.lost_lt x hx
    simp only
    omega

theorem commits_quiet {op : LogOp} (hop : ∀ d off, op ≠ .commit d off) (s : LogSys) : s.commits c op = 0 := by
  cases op with
  | commit d off => exact absurd rfl (hop d off)
  | _ => rfl

section

variable (h : Ledger c t)
include h

/-- A step that leaves the bounds, the masks and the account of `c` alone. -/
theorem quiet {op : LogOp} (hop : ∀ d off, op ≠ .commit d off)
    (hcon : (t.sys.step op).log.con c = t.sys.log.con c)
    (hlso : (t.sys.step op).log.lso = t.sys.log.lso) (hleo : (t.sys.step op).log.leo = t.sys.log.leo)
    (hmarks : (t.sys.step op).marks = t.sys.marks) (hev : (t.sys.step op).evicted = t.sys.evicted)
    (hret : t.sys.returns c op = ∅)
    (hscans : ∀ scan, OpenScan (t.sys.step op).reads c scan ↔ OpenScan t.sys.reads c scan) :
    Ledger c (t.step c op) := by
  refine h.stay (Moves.of_con hcon hlso hleo hmarks hev hscans) (by rw [hcon]) ?_ hret
  rw [commits_quiet hop]
  exact Nat.zero_le _

/-- A step that leaves the log alone, and the reads but for one that `c` cannot tell from its successor. -/
theorem quietRead {op : LogOp} (hop : ∀ d off, op ≠ .commit d off) {k : ℕ} {r r' : ReadOp} {l : Log}
    (hk : t.sys.reads[k]? = some r)
    (hstep : t.sys.step op = { t.sys with log := l, reads := t.sys.reads.set k r' })
    (hcon : l.con c = t.sys.log.con c) (hlso : l.lso = t.sys.log.lso) (hleo : l.leo = t.sys.log.leo)
    (hret : t.sys.returns c op = ∅) (hholds : ∀ scan, r'.holds c scan ↔ r.holds c scan) :
    Ledger c (t.step c op) := by
  obtain ⟨P, hP, hP'⟩ := openScan_split hk c
  refine h.quiet hop ?_ ?_ ?_ ?_ ?_ hret (fun scan => ?_)
  · rw [hstep, hcon]
  · rw [hstep, hlso]
  · rw [hstep, hleo]
  · rw [hstep]
  · rw [hstep]
  · rw [hstep, hP', hP, hholds]

theorem idle {op : LogOp} (hop : ∀ d off, op ≠ .commit d off) (hs : t.sys.step op = t.sys)
    (hret : t.sys.returns c op = ∅) : Ledger c (t.step c op) := by
  refine h.quiet hop ?_ ?_ ?_ ?_ ?_ hret (fun _ => ?_)
  all_goals rw [hs]

theorem observeConsumer (d : ℕ) : Ledger c (t.step c (.observeConsumer d)) := by
  have hquiet : (t.sys.log.observeConsumer d).con c = t.sys.log.con c →
      Ledger c (t.step c (.observeConsumer d)) := by
    intro hcon
    have hlog : (t.sys.log.observeConsumer d).lso = t.sys.log.lso ∧
        (t.sys.log.observeConsumer d).leo = t.sys.log.leo := by
      unfold Log.observeConsumer
      split <;> exact ⟨rfl, rfl⟩
    exact h.quiet (by simp) hcon hlog.1 hlog.2 rfl rfl rfl (fun _ => Iff.rfl)
  by_cases hdc : d = c
  · subst hdc
    by_cases hread : (t.sys.log.con d).reading = 0
    · exact (h.observe hread).1
    · refine hquiet ?_
      rw [Log.observeConsumer, if_neg (not_le.mpr h.c_lt), Log.observeLocked,
        Log.con_updCon_self _ _ h.c_lt, Log.observe, if_pos (Nat.pos_of_ne_zero hread)]
  · refine hquiet ?_
    unfold Log.observeConsumer
    split
    · rfl
    · rw [Log.observeLocked, Log.con_updCon_of_ne _ _ (Ne.symm hdc)]

theorem setConsumerState (d : ℕ) (st : LogConsumerState) : Ledger c (t.step c (.setConsumerState d st)) := by
  have hcon : (t.sys.log.setConsumerState d st).con c = t.sys.log.con c ∨
      (t.sys.log.setConsumerState d st).con c = { t.sys.log.con c with state := st } := by
    unfold Log.setConsumerState
    split
    · exact Or.inl rfl
    · by_cases hcd : c = d
      · subst hcd
        exact Or.inr (Log.con_updCon_self _ _ h.c_lt)
      · exact Or.inl (Log.con_updCon_of_ne _ _ hcd)
  have hlog : (t.sys.log.setConsumerState d st).lso = t.sys.log.lso ∧
      (t.sys.log.setConsumerState d st).leo = t.sys.log.leo := by
    unfold Log.setConsumerState
    split <;> exact ⟨rfl, rfl⟩
  have hstep : (t.sys.step (.setConsumerState d st)).log = t.sys.log.setConsumerState d st := rfl
  rcases hcon with hcon | hcon
  · exact h.quiet (by simp) hcon hlog.1 hlog.2 rfl rfl rfl (fun _ => Iff.rfl)
  · refine h.stay ⟨hlog.2, rfl, rfl, fun _ => Iff.rfl, ?_, ?_, ?_, ?_, ?_, hlog.1.ge, Or.inl hlog.1⟩
      ?_ (Nat.zero_le _) rfl
    all_goals rw [hstep, hcon]

theorem clearSlot (k : ℕ) : Ledger c (t.step c (.clearSlot k)) := by
  have hstep : (t.sys.step (.clearSlot k)).log.con c = t.sys.log.con c ∧
      (t.sys.step (.clearSlot k)).log.lso = t.sys.log.lso ∧
      (t.sys.step (.clearSlot k)).log.leo = t.sys.log.leo ∧
      (t.sys.step (.clearSlot k)).marks = t.sys.marks ∧
      (t.sys.step (.clearSlot k)).evicted = t.sys.evicted := by
    simp only [LogSys.step, LogSys.stepOut, LogSys.stepClearSlot]
    split
    · exact ⟨rfl, rfl, rfl, rfl, rfl⟩
    · split <;> exact ⟨rfl, rfl, rfl, rfl, rfl⟩
  obtain ⟨h1, h2, h3, h4, h5⟩ := hstep
  refine h.quiet (by simp) h1 h2 h3 h4 h5 rfl (fun scan => ?_)
  rw [LogSys.reads_step t.sys (.clearSlot k) (Or.inl rfl)]

theorem readCall (call : ReadCall) : Ledger c (t.step c (.readCall call)) := by
  have hstep : (t.sys.step (.readCall call)).log = t.sys.log ∧
      (t.sys.step (.readCall call)).marks = t.sys.marks ∧
      (t.sys.step (.readCall call)).evicted = t.sys.evicted ∧
      ∀ scan, OpenScan (t.sys.step (.readCall call)).reads c scan ↔ OpenScan t.sys.reads c scan := by
    simp only [LogSys.step, LogSys.stepOut, LogSys.stepReadCall]
    split
    · exact ⟨rfl, rfl, rfl, fun _ => Iff.rfl⟩
    · refine ⟨rfl, rfl, rfl, fun scan => ?_⟩
      simp [OpenScan, ReadOp.holds, ReadPhase.scan?]
  obtain ⟨h1, h2, h3, h4⟩ := hstep
  exact h.quiet (by simp) (by rw [h1]) (by rw [h1]) (by rw [h1]) h2 h3 rfl h4

end

end Ledger

end MonsterMQ.PeerLink
