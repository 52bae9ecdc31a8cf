import MonsterMQ.PeerLinkLossUnmasked

/-!
# What a reading consumer is told

A consumer of an unmasked log that always reads on from the offset after its last
batch. `Pace` relates its position to the three watermarks the log keeps for it, so
that the losses it was told and the losses still ahead of it add up to `lostTotal`.
-/

namespace MonsterMQ.PeerLink

open LittleEndian List

@[grind =] def ReadOp.pending (c : ℕ) (r : ReadOp) : Bool :=
  r.call.c = c && match r.phase with
    | .returned => false
    | _ => true

theorem ReadOp.pending_of_isOpen {c : ℕ} {r : ReadOp} (h : r.isOpen c = true) : r.pending c = true := by
  obtain ⟨call, attempt, phase⟩ := r
  cases phase <;> simp_all [ReadOp.isOpen, ReadOp.pending, ReadPhase.isScanning]

/-- A run with the position of consumer `c` and the losses it was told. -/
structure PullSys where
  sys : LogSys
  pos : ℕ
  received : ℕ

namespace PullSys

@[grind =] def start (l : Log) : PullSys := ⟨LogSys.start l, 1, 0⟩

/-- Every batch reaches the consumer. With `adopts` it also takes over the position
and the loss that a resume answers. -/
@[grind =] def deliver (adopts : Bool) (c : ℕ) (t : PullSys) : LogOut → ℕ × ℕ
  | .read call r => if call.c = c then (r.base + r.span, t.received + r.lost) else (t.pos, t.received)
  | .resumed d r =>
    if adopts && d = c then (r.resumeAt, t.received + r.lostOnResume) else (t.pos, t.received)
  | _ => (t.pos, t.received)

@[grind =] def step (adopts : Bool) (c : ℕ) (t : PullSys) (op : LogOp) : PullSys :=
  let p := t.deliver adopts c (t.sys.stepOut op).2
  ⟨t.sys.step op, p.1, p.2⟩

def run (adopts : Bool) (c : ℕ) (l : Log) (ops : List LogOp) : PullSys :=
  StateRuns.run (step adopts c) (start l) ops

def Settled (c : ℕ) (s : LogSys) : Prop := ∀ r ∈ s.reads, r.pending c = false
deriving Decidable

/-- What the consumer does: it reads one batch at a time from its position, and
commits and resumes only up to it. To adopt the answer of a resume it has no call in
progress and resumes where it stands, or it has received nothing so far. -/
def Pulls (adopts : Bool) (c : ℕ) (t : PullSys) : LogOp → Prop
  | .readCall call => call.c = c → Settled c t.sys ∧ call.start = t.pos
  | .resume d lastEpoch off => d = c → (lastEpoch = t.sys.log.epoch → off ≤ t.pos) ∧
      (adopts = true → Settled c t.sys ∧
        if lastEpoch = t.sys.log.epoch then off = t.pos else t.pos = 1)
  | .commit d off => d = c → off ≤ t.pos
  | .markServed d _ => d ≠ c
  | _ => True

instance (adopts : Bool) (c : ℕ) (t : PullSys) : ∀ op, Decidable (Pulls adopts c t op)
  | .readCall call => inferInstanceAs (Decidable (call.c = c → Settled c t.sys ∧ call.start = t.pos))
  | .resume d lastEpoch off => inferInstanceAs (Decidable (d = c →
      (lastEpoch = t.sys.log.epoch → off ≤ t.pos) ∧ (adopts = true → Settled c t.sys ∧
        if lastEpoch = t.sys.log.epoch then off = t.pos else t.pos = 1)))
  | .commit d off => inferInstanceAs (Decidable (d = c → off ≤ t.pos))
  | .markServed d _ => inferInstanceAs (Decidable (d ≠ c))
  | .append _ _ _ | .advanceSkipped | .clearConsumerBits _ _ _ | .setConsumerState _ _
  | .observeConsumer _ | .sealLog | .clearSlot _ | .readSnapshot _ | .readAdvance _
  | .readComplete _ => isTrue trivial

end PullSys

/-- The position lies where the log's watermarks put it, and the losses the consumer
has not been told are those between it and `acctNext`. -/
structure Pace (lso pos received : ℕ) (con : LogConsumer) : Prop where
  one_le : 1 ≤ pos
  committed_le : con.committed ≤ pos
  served_le : con.served ≤ max pos con.acctNext
  pos_le : pos ≤ max con.acctNext (max con.committed con.served)
  acct_le : con.acctNext ≤ max pos lso
  told : con.lostTotal = received + (con.acctNext - pos)

namespace Pace

variable {lso pos received : ℕ} {con con' : LogConsumer}

theorem keep (h : Pace lso pos received con) (hu : Unseen con con') {lso' : ℕ} (hlso : lso ≤ lso')
    (hcom : con'.committed ≤ pos) (hser : con'.served ≤ max pos con.acctNext) :
    Pace lso' pos received con' := by
  obtain ⟨h1, h2, h3, h4, h5, h6⟩ := h
  obtain ⟨u1, u2, u3, u4⟩ := hu
  refine ⟨h1, hcom, ?_, ?_, ?_, ?_⟩
  · rw [u1]
    exact hser
  · rw [u1]
    exact h4.trans (max_le_max le_rfl (max_le_max u3 u4))
  · rw [u1]
    exact h5.trans (max_le_max le_rfl hlso)
  · rw [u1, u2]
    exact h6

private theorem max_sub_left (p l : ℕ) : max p l - p = l - p := by omega

private theorem charged_sum {a p l : ℕ} (h : a ≤ max p l) : a - p + (l - max p a) = max p l - p := by omega

section

variable (h : Pace lso pos received con)
include h

/-- An observation charges everything between the position and `lso`. -/
theorem charge {lso' : ℕ} (hs : Seen lso' con con')
    (hread : con.reading = 0) (hlso : lso ≤ lso') (hcom : con'.committed ≤ pos) :
    Pace lso' pos received con' ∧ con'.acctNext = max pos lso' := by
  obtain ⟨h1, h2, h3, h4, h5, h6⟩ := h
  obtain ⟨hacct, hlost⟩ := hs.charge hread
  have hser := hs.served
  have ha : max (max con.acctNext con'.committed) con'.served = max pos con.acctNext := by
    rw [hser]
    apply le_antisymm
    · exact max_le (max_le (le_max_right _ _) (hcom.trans (le_max_left _ _))) h3
    · refine max_le (h4.trans ?_) ((le_max_left _ _).trans (le_max_left _ _))
      rw [← max_assoc]
      exact max_le_max (max_le_max le_rfl hs.committed_le) le_rfl
  rw [ha] at hacct hlost
  have hle : con.acctNext ≤ max pos lso' := h5.trans (max_le_max le_rfl hlso)
  have hnext : con'.acctNext = max pos lso' := by
    rw [hacct, max_right_comm]
    exact max_eq_left hle
  refine ⟨⟨h1, hcom, ?_, ?_, ?_, ?_⟩, hnext⟩
  · rw [hser, hnext]
    exact h3.trans (max_le (le_max_left _ _) (hle.trans (le_max_right _ _)))
  · rw [hnext]
    exact (le_max_left _ _).trans (le_max_left _ _)
  · exact hnext.le
  · rw [hlost, h6, hnext, Nat.add_assoc, charged_sum hle]

theorem receive (hu : Unseen con con') {base span : ℕ}
    (hbase : base = max pos con.acctNext) (hcom : con'.committed = con.committed)
    (hser : con'.served = max con.served (base + span)) :
    Pace lso (base + span) (received + (con.acctNext - pos)) con' ∧
      con'.lostTotal = received + (con.acctNext - pos) := by
  obtain ⟨h1, h2, h3, h4, h5, h6⟩ := h
  obtain ⟨u1, u2, -, -⟩ := hu
  have hpos : pos ≤ base + span := by
    rw [hbase]
    exact (le_max_left _ _).trans (Nat.le_add_right _ _)
  have hnext : con.acctNext ≤ base + span := by
    rw [hbase]
    exact (le_max_right _ _).trans (Nat.le_add_right _ _)
  refine ⟨⟨h1.trans hpos, ?_, ?_, ?_, ?_, ?_⟩, ?_⟩
  · rw [hcom]
    exact h2.trans hpos
  · rw [hser]
    exact max_le ((h3.trans (max_le hpos hnext)).trans (le_max_left _ _)) (le_max_left _ _)
  · rw [hser]
    exact (le_max_right _ _).trans ((le_max_right _ _).trans (le_max_right _ _))
  · rw [u1]
    exact hnext.trans (le_max_left _ _)
  · rw [u1, u2, h6, Nat.sub_eq_zero_of_le hnext, Nat.add_zero]
  · rw [u2, h6]

theorem adopt (hacct : con.acctNext = max pos lso) : Pace lso (max pos lso) (received + (lso - pos)) con := by
  obtain ⟨h1, h2, h3, h4, h5, h6⟩ := h
  refine ⟨h1.trans (le_max_left _ _), h2.trans (le_max_left _ _), ?_, ?_, ?_, ?_⟩
  · exact h3.trans (max_le_max (le_max_left _ _) le_rfl)
  · rw [hacct]
    exact le_max_left _ _
  · rw [hacct]
    exact le_max_left _ _
  · rw [h6, hacct, max_sub_left, Nat.sub_self, Nat.add_zero]

end

end Pace

section Position
variable {l : Log} {frames : List Bytes} {marks : List Mask} {c : ℕ}

/-- `Resume` on an unmasked log: where it puts the position and what it answers. -/
theorem resume_unmasked (hv : Log.LogInvariant l frames marks) (hm : l.masked = false)
    (hc : c < l.consumers.length) {lastEpoch off : ℕ} {r : Log × Log.Resume × Option ClearReq}
    (hr : l.resume c lastEpoch off = .ok r) : (r.1.con c).committed =
        (if lastEpoch = l.epoch then max (l.con c).committed (max 1 off) else (l.con c).committed) ∧
      r.2.1.resumeAt = max (if lastEpoch = l.epoch then max 1 off else (l.con c).committed) r.1.lso ∧
      r.2.1.lostOnResume =
        r.1.lso - (if lastEpoch = l.epoch then max 1 off else (l.con c).committed) := by
  unfold Log.resume at hr
  split at hr
  · cases hr
  simp only at hr
  split at hr
  · rename_i hep
    have ho : (if off = 0 then 1 else off) = max 1 off := by split <;> omega
    rw [ho] at hr
    simp only [hep, if_true]
    generalize max 1 off = o at hr
    split at hr
    · cases hr
    rename_i hoff
    cases hr
    obtain ⟨-, hshift, -⟩ := hv.resumeCommit hc (not_lt.mp hoff)
    obtain ⟨y, hy, hPy, -⟩ := hshift.con hc
    simp only [Log.OnlyMoves, if_true] at hPy
    have hm₁ : (l.resumeCommit c o).1.masked = false := hshift.fields.1.masked.trans hm
    have hc₁ : c < (l.resumeCommit c o).1.consumers.length := by
      rw [hshift.length_eq]
      exact hc
    have hcom : (((l.resumeCommit c o).1.observeLocked c).con c).committed =
        max (l.con c).committed o := by
      rw [Log.observeLocked, Log.con_updCon_self _ _ hc₁, Log.observe_committed, hy, ← hPy]
    have hm₂ : ((l.resumeCommit c o).1.observeLocked c).masked = false := hm₁
    unfold Log.resumeSameEpoch
    simp only [hm₂, Bool.false_eq_true, if_false]
    split
    · rename_i hge
      refine ⟨hcom, ?_, ?_⟩
      · simp only
        omega
      · simp only
        omega
    · rename_i hlt
      refine ⟨hcom, ?_, rfl⟩
      simp only
      omega
  · rename_i hep
    cases hr
    simp only [hep, if_false]
    have hcom : ((l.observeLocked c).con c).committed = (l.con c).committed := by
      rw [Log.observeLocked, Log.con_updCon_self _ _ hc, Log.observe_committed]
    have hm₂ : (l.observeLocked c).masked = false := hm
    have hlso : (l.observeLocked c).lso = l.lso := rfl
    unfold Log.resumeOtherEpoch
    simp only [hm₂, Bool.false_eq_true, if_false, hcom, hlso]
    split
    · exact ⟨hcom, rfl, rfl⟩
    · rename_i hle
      refine ⟨hcom, rfl, ?_⟩
      simp only [hlso]
      omega

/-- `C[c]` stays up to the position of the puller and `S[c]` where it is. -/
def Keeps (t : PullSys) (c : ℕ) (l : Log) : Prop :=
  (l.con c).committed ≤ t.pos ∧ (l.con c).served = (t.sys.log.con c).served

section Keeps

variable {t : PullSys} {adopts : Bool}

theorem keeps_of_con (hcom : (t.sys.log.con c).committed ≤ t.pos) {l : Log} (hcon : l.con c = t.sys.log.con c) :
    Keeps t c l := by
  rw [Keeps, hcon]
  exact ⟨hcom, rfl⟩

theorem keeps_updCon (hc : c < t.sys.log.consumers.length) (hcom : (t.sys.log.con c).committed ≤ t.pos) {d : ℕ}
    {f : LogConsumer → LogConsumer} (hf : c = d → (f (t.sys.log.con c)).committed = (t.sys.log.con c).committed ∧
      (f (t.sys.log.con c)).served = (t.sys.log.con c).served) : Keeps t c (t.sys.log.updCon d f) := by
  by_cases hcd : c = d
  · obtain ⟨hcommitted, hserved⟩ := hf hcd
    subst hcd
    rw [Keeps, Log.con_updCon_self _ _ hc, hcommitted, hserved]
    exact ⟨hcom, rfl⟩
  · exact keeps_of_con hcom (Log.con_updCon_of_ne _ _ hcd)

theorem keeps_append (h : t.sys.Sound) (hm : t.sys.log.masked = false) (hc : c < t.sys.log.consumers.length)
    (hcom : (t.sys.log.con c).committed ≤ t.pos) (frame : Bytes) (kind : LogKind) (mask : Mask) :
    Keeps t c (t.sys.step (.append frame kind mask)).log := by
  have hne : t.sys.log.consumers ≠ [] := fun h0 => by simp [h0] at hc
  rcases h.append_view hne frame kind mask with e | ⟨lso₁, k, e⟩
  · exact keeps_of_con hcom (e.con c)
  · have hcon := e.con c hc
    simp only [hm, Log.evictCharges, Bool.false_eq_true, if_false] at hcon
    exact keeps_of_con hcom hcon

/-- A commit of the puller is not past its position. -/
theorem keeps_commit (h : t.sys.Sound) (hm : t.sys.log.masked = false) (hc : c < t.sys.log.consumers.length)
    {d off : ℕ} (hp : d = c → off ≤ t.pos) (hcom : (t.sys.log.con c).committed ≤ t.pos) :
    Keeps t c (t.sys.step (.commit d off)).log := by
  have hne : t.sys.log.consumers ≠ [] := fun h0 => by simp [h0] at hc
  simp only [LogSys.step, LogSys.stepOut, LogSys.stepCommit]
  cases hr : t.sys.log.commit d off with
  | error e => exact keeps_of_con hcom rfl
  | ok r =>
    obtain ⟨-, -, -, hshift, -⟩ := (h.invariant hne).commit hr
    obtain ⟨y, hy, hP, -⟩ := hshift.con hc
    simp only [Keeps, LogSys.after, hy, and_true]
    unfold Log.OnlyMoves at hP
    split at hP
    · rename_i hcd
      split at hP
      · rw [hP, ← hcd]
        exact hcom
      · rcases hP with rfl | ⟨hm', -⟩
        · exact hp hcd.symm
        · rw [hm] at hm'
          cases hm'
    · rw [hP]
      exact hcom

theorem keeps_resume (h : t.sys.Sound) (hm : t.sys.log.masked = false) (hc : c < t.sys.log.consumers.length)
    {d lastEpoch off : ℕ} (hp : t.Pulls adopts c (.resume d lastEpoch off)) (h1 : 1 ≤ t.pos)
    (hcom : (t.sys.log.con c).committed ≤ t.pos) : Keeps t c (t.sys.step (.resume d lastEpoch off)).log := by
  have hne : t.sys.log.consumers ≠ [] := fun h0 => by simp [h0] at hc
  simp only [LogSys.step, LogSys.stepOut, LogSys.stepResume]
  cases hr : t.sys.log.resume d lastEpoch off with
  | error e => exact keeps_of_con hcom rfl
  | ok r =>
    by_cases hdc : d = c
    · subst hdc
      refine ⟨?_, (seen_resume h hc hr).served⟩
      simp only [LogSys.after, (resume_unmasked (h.invariant hne) hm hc hr).1]
      split
      · rename_i hep
        have := (hp rfl).1 hep
        omega
      · exact hcom
    · exact keeps_of_con hcom ((h.invariant hne).resume_con_of_ne (Ne.symm hdc) hc hr)

private theorem keeps_advanceSkipped (h : t.sys.Sound) (hm : t.sys.log.masked = false)
    (hc : c < t.sys.log.consumers.length) (hcom : (t.sys.log.con c).committed ≤ t.pos) :
    Keeps t c (t.sys.step .advanceSkipped).log := by
  have hne : t.sys.log.consumers ≠ [] := fun h0 => by simp [h0] at hc
  obtain ⟨y, hy, hP, -⟩ := (h.invariant hne).advanceSkipped.2.1.con hc
  have hcon : (t.sys.step .advanceSkipped).log.con c = { t.sys.log.con c with committed := y } := hy
  simp only [Keeps, hcon, and_true]
  rcases hP with rfl | ⟨hm', -⟩
  · exact hcom
  · rw [hm] at hm'
    cases hm'

theorem keeps_observe (hc : c < t.sys.log.consumers.length) (hcom : (t.sys.log.con c).committed ≤ t.pos) (d : ℕ) :
    Keeps t c (t.sys.log.observeConsumer d) := by
  unfold Log.observeConsumer
  split
  · exact keeps_of_con hcom rfl
  · exact keeps_updCon hc hcom fun _ => ⟨Log.observe_committed _ _, (Seen.observe _ _).served⟩

theorem keeps_readSnapshot (hc : c < t.sys.log.consumers.length) (hcom : (t.sys.log.con c).committed ≤ t.pos)
    (k : ℕ) : Keeps t c (t.sys.step (.readSnapshot k)).log := by
  rw [LogSys.step]
  rcases t.sys.stepOut_readSnapshot k with hs | ⟨call, attempt, -, ⟨e, -, hs⟩ | ⟨l, scan, hr, hs⟩⟩ <;> rw [hs]
  · exact keeps_of_con hcom rfl
  · exact keeps_of_con hcom rfl
  · obtain ⟨-, -, heq⟩ := Log.readSnapshot_eq hr
    simp only at heq ⊢
    rw [heq]
    exact keeps_updCon hc hcom fun _ => ⟨Log.observe_committed _ _, (Seen.observe _ _).served⟩

/-- Apart from read completions, a consumer that pulls keeps `C[c]` up to its position
and `S[c]` where it is. -/
theorem pulls_step (h : t.sys.Sound) (hm : t.sys.log.masked = false) (hc : c < t.sys.log.consumers.length)
    {op : LogOp} (hp : t.Pulls adopts c op) (hop : ∀ k, op ≠ .readComplete k) (h1 : 1 ≤ t.pos)
    (hcom : (t.sys.log.con c).committed ≤ t.pos) : Keeps t c (t.sys.step op).log := by
  have hstay : Keeps t c t.sys.log := ⟨hcom, rfl⟩
  cases op with
  | append frame kind mask => exact keeps_append h hm hc hcom frame kind mask
  | commit d off => exact keeps_commit h hm hc hp hcom
  | resume d lastEpoch off => exact keeps_resume h hm hc hp h1 hcom
  | advanceSkipped => exact keeps_advanceSkipped h hm hc hcom
  | clearConsumerBits d start drop =>
    have hguard : (!t.sys.log.masked || decide (d ≥ t.sys.log.consumers.length)) = true := by
      simp [hm]
    have hlog : (t.sys.step (.clearConsumerBits d start drop)).log = t.sys.log := by
      simp [LogSys.step, LogSys.stepOut, LogSys.stepClearBits, LogSys.after, Log.clearConsumerBits,
        hguard]
    rw [hlog]
    exact hstay
  | markServed d upTo =>
    change Keeps t c (t.sys.log.markServed d upTo)
    unfold Log.markServed
    split
    · exact hstay
    · exact keeps_updCon hc hcom fun hcd => absurd hcd.symm hp
  | setConsumerState d st =>
    change Keeps t c (t.sys.log.setConsumerState d st)
    unfold Log.setConsumerState
    split
    · exact hstay
    · exact keeps_updCon hc hcom fun _ => ⟨rfl, rfl⟩
  | observeConsumer d => exact keeps_observe hc hcom d
  | sealLog => exact hstay
  | clearSlot k =>
    simp only [LogSys.step, LogSys.stepOut, LogSys.stepClearSlot]
    split
    · exact hstay
    · split <;> exact hstay
  | readCall call =>
    simp only [LogSys.step, LogSys.stepOut, LogSys.stepReadCall]
    split <;> exact hstay
  | readSnapshot k => exact keeps_readSnapshot hc hcom k
  | readAdvance k =>
    simp only [LogSys.step, LogSys.stepOut, LogSys.stepReadAdvance]
    split <;> exact hstay
  | readComplete k => exact absurd rfl (hop k)

end Keeps

end Position

/-- At most one call of `c` is in progress; it starts at the position, and a snapshot
it has taken begins where the accounting stood. -/
structure OneCall (c pos acct : ℕ) (reads : List ReadOp) : Prop where
  count : reads.countP (ReadOp.pending c) ≤ 1
  start : ∀ r ∈ reads, r.pending c = true → r.call.start = pos
  scan : ∀ r ∈ reads, r.call.c = c → ∀ scan ∈ r.phase.scan?,
    scan.base = max pos acct ∧ scan.lost = acct - pos

theorem isOpen_of_scan {c : ℕ} {r : ReadOp} (hc : r.call.c = c) {scan : ReadScan}
    (hscan : scan ∈ r.phase.scan?) : r.isOpen c = true := by
  obtain ⟨call, attempt, phase⟩ := r
  cases phase <;> simp_all [ReadOp.isOpen, ReadPhase.isScanning, ReadPhase.scan?]

namespace OneCall

variable {c pos acct : ℕ} {reads : List ReadOp}

theorem move (h : OneCall c pos acct reads) (hopen : reads.countP (ReadOp.isOpen c) = 0)
    (acct' : ℕ) : OneCall c pos acct' reads := by
  refine ⟨h.count, h.start, ?_⟩
  intro r hr hc scan hscan
  exact absurd (isOpen_of_scan hc hscan) (countP_eq_zero.mp hopen r hr)

theorem settled (h : ∀ r ∈ reads, r.pending c = false) (pos acct : ℕ) : OneCall c pos acct reads := by
  have hcount : reads.countP (ReadOp.pending c) = 0 := by
    rw [countP_eq_zero]
    intro r hr
    simp [h r hr]
  refine ⟨by omega, ?_, ?_⟩
  · intro r hr hp
    rw [h r hr] at hp
    cases hp
  · intro r hr hc scan hscan
    have hp := ReadOp.pending_of_isOpen (isOpen_of_scan hc hscan)
    rw [h r hr] at hp
    cases hp

section

variable (h : OneCall c pos acct reads)
include h

theorem push {r : ReadOp} (hscan : r.phase.scan? = none)
    (hr : r.pending c = true → (∀ x ∈ reads, x.pending c = false) ∧ r.call.start = pos) :
    OneCall c pos acct (reads ++ [r]) := by
  refine ⟨?_, ?_, ?_⟩
  · rw [countP_append, countP_singleton]
    split
    · rename_i hpend
      have hzero : reads.countP (ReadOp.pending c) = 0 := by
        rw [countP_eq_zero]
        intro x hx
        simp [(hr hpend).1 x hx]
      omega
    · exact h.count
  · intro x hx hpend
    rcases mem_append.mp hx with hx | hx
    · exact h.start x hx hpend
    · rw [mem_singleton] at hx
      subst hx
      exact (hr hpend).2
  · intro x hx
    rcases mem_append.mp hx with hx | hx
    · exact h.scan x hx
    · rw [mem_singleton.mp hx, hscan]
      simp

/-- The `k`-th call goes on. -/
theorem set {k : ℕ} {r r' : ReadOp} (hk : reads[k]? = some r)
    (hcall : r'.call = r.call) (hpend : r'.pending c = true → r.pending c = true)
    (hscan : r'.call.c = c → ∀ scan ∈ r'.phase.scan?,
      scan.base = max pos acct ∧ scan.lost = acct - pos) : OneCall c pos acct (reads.set k r') := by
  have hmem := mem_of_getElem? hk
  refine ⟨?_, ?_, ?_⟩
  · have hcount := LogSys.countP_setRead hk (ReadOp.pending c) r'
    have hle := h.count
    by_cases hp : r'.pending c = true
    · rw [hp, hpend hp] at hcount
      omega
    · rw [if_neg hp] at hcount
      split at hcount <;> omega
  · intro x hx hp
    rcases mem_or_eq_of_mem_set hx with hx | rfl
    · exact h.start x hx hp
    · rw [hcall]
      exact h.start r hmem (hpend hp)
  · intro x hx
    rcases mem_or_eq_of_mem_set hx with hx | rfl
    · exact h.scan x hx
    · exact hscan

theorem returned {k : ℕ} {r r' : ReadOp} (hk : reads[k]? = some r)
    (hr : r.pending c = true) (hr' : r'.pending c = false) : ∀ x ∈ reads.set k r', x.pending c = false := by
  have hcount := LogSys.countP_setRead hk (ReadOp.pending c) r'
  have hle := h.count
  simp only [hr, hr', if_true, Bool.false_eq_true, if_false] at hcount
  have hzero : (reads.set k r').countP (ReadOp.pending c) = 0 := by omega
  intro x hx
  simpa using countP_eq_zero.mp hzero x hx

/-- While a call of `c` waits for its snapshot no read of `c` is open. -/
theorem waiting {k : ℕ} {r : ReadOp} (hk : reads[k]? = some r)
    (hr : r.pending c = true) (hopen : r.isOpen c = false) : reads.countP (ReadOp.isOpen c) = 0 := by
  let r' : ReadOp := ⟨r.call, r.attempt, .returned⟩
  have hr' : r'.pending c = false := by simp [r', ReadOp.pending]
  have hopen' : r'.isOpen c = false := by simp [r', ReadOp.isOpen, ReadPhase.isScanning]
  have hcount := LogSys.countP_setRead hk (ReadOp.isOpen c) r'
  rw [hopen, hopen'] at hcount
  have hzero : (reads.set k r').countP (ReadOp.isOpen c) = 0 := by
    rw [countP_eq_zero]
    intro x hx hxo
    have := h.returned hk hr hr' x hx
    rw [ReadOp.pending_of_isOpen hxo] at this
    cases this
  simpa [hzero] using hcount.symm

end

end OneCall

structure Pulling (c : ℕ) (t : PullSys) : Prop where
  sound : t.sys.Sound
  unmasked : t.sys.log.masked = false
  c_lt : c < t.sys.log.consumers.length
  pace : Pace t.sys.log.lso t.pos t.received (t.sys.log.con c)
  calls : OneCall c t.pos (t.sys.log.con c).acctNext t.sys.reads

namespace Pulling

variable {adopts : Bool} {c : ℕ} {t : PullSys}

theorem start {epoch : ℕ} {cfg : LogConfig} {l : Log} (h : newLog epoch cfg = .ok l)
    (hm : cfg.masked = false) (hc : c < cfg.consumers.length) : Pulling c (PullSys.start l) := by
  obtain ⟨hlen, hcon⟩ := Log.newLog_con h
  have hcon' : (PullSys.start l).sys.log.con c = newLogConsumer (cfg.consumers.getD c "") := hcon c hc
  refine ⟨LogSys.sound_start h, (Log.newLog_eq h).1.trans hm, hlen ▸ hc, ?_, ?_⟩
  · rw [hcon']
    constructor <;> simp [PullSys.start, newLogConsumer]
  · exact OneCall.settled (by simp [PullSys.start, LogSys.start]) _ _

theorem next (h : Pulling c t) (op : LogOp) {pos received : ℕ}
    (hpace : Pace (t.sys.step op).log.lso pos received ((t.sys.step op).log.con c))
    (hcalls : OneCall c pos ((t.sys.step op).log.con c).acctNext (t.sys.step op).reads) :
    Pulling c ⟨t.sys.step op, pos, received⟩ := by
  obtain ⟨hs, he⟩ := h.sound.step op
  exact ⟨hs, he.masked.trans h.unmasked, by rw [he.length_eq]; exact h.c_lt, hpace, hcalls⟩

theorem lso_le (h : Pulling c t) (op : LogOp) : t.sys.log.lso ≤ (t.sys.step op).log.lso :=
  (h.sound.step op).2.lso_le

variable {op : LogOp}

/-- A step that neither observes `c` nor completes one of its reads. -/
theorem pace_unseen (h : Pulling c t) (hp : t.Pulls adopts c op) (hop : ∀ k, op ≠ .readComplete k)
    (hu : Unseen (t.sys.log.con c) ((t.sys.step op).log.con c)) :
    Pace (t.sys.step op).log.lso t.pos t.received ((t.sys.step op).log.con c) := by
  obtain ⟨hcom, hser⟩ := pulls_step h.sound h.unmasked h.c_lt hp hop h.pace.one_le h.pace.committed_le
  refine h.pace.keep hu (h.lso_le op) hcom ?_
  rw [hser]
  exact h.pace.served_le

/-- A step that observes `c` with no read of it open. -/
theorem pace_seen (h : Pulling c t) (hp : t.Pulls adopts c op)
    (hobs : t.sys.observes c op = true) (hread : (t.sys.log.con c).reading = 0) :
    Pace (t.sys.step op).log.lso t.pos t.received ((t.sys.step op).log.con c) ∧
      ((t.sys.step op).log.con c).acctNext = max t.pos (t.sys.step op).log.lso := by
  have hop : ∀ k, op ≠ .readComplete k := by
    rintro k rfl
    cases hobs
  obtain ⟨hcom, -⟩ := pulls_step h.sound h.unmasked h.c_lt hp hop h.pace.one_le h.pace.committed_le
  exact h.pace.charge (seen_step h.sound h.c_lt op hobs) hread (h.lso_le op) hcom

theorem stay (h : Pulling c t) (hp : t.Pulls adopts c op)
    (hop : ∀ k, op ≠ .readComplete k) (hreads : (t.sys.step op).reads = t.sys.reads) :
    Pulling c ⟨t.sys.step op, t.pos, t.received⟩ := by
  have hkeep : Unseen (t.sys.log.con c) ((t.sys.step op).log.con c) →
      Pulling c ⟨t.sys.step op, t.pos, t.received⟩ := by
    intro hu
    refine h.next op (h.pace_unseen hp hop hu) ?_
    rw [hreads, hu.acct]
    exact h.calls
  cases hobs : t.sys.observes c op with
  | false => exact hkeep (unseen_step h.sound h.unmasked h.c_lt op hobs)
  | true =>
    by_cases hread : (t.sys.log.con c).reading = 0
    · refine h.next op (h.pace_seen hp hobs hread).1 ?_
      rw [hreads]
      exact h.calls.move ((h.sound.reading c h.c_lt).symm.trans hread) _
    · exact hkeep ((seen_step h.sound h.c_lt op hobs).unseen hread)

theorem step_eq (hout : t.deliver adopts c (t.sys.stepOut op).2 = (t.pos, t.received)) :
    t.step adopts c op = ⟨t.sys.step op, t.pos, t.received⟩ := by
  simp [PullSys.step, hout]

theorem resume (h : Pulling c t) {d lastEpoch off : ℕ} (hp : t.Pulls adopts c (.resume d lastEpoch off)) :
    Pulling c (t.step adopts c (.resume d lastEpoch off)) := by
  have hreads := LogSys.reads_step t.sys (.resume d lastEpoch off) (Or.inr ⟨_, _, _, rfl⟩)
  have hstay := h.stay hp (by simp) hreads
  cases hr : t.sys.log.resume d lastEpoch off with
  | error e =>
    rw [step_eq]
    · exact hstay
    · simp [LogSys.stepOut, LogSys.stepResume, hr, PullSys.deliver]
  | ok r =>
    by_cases had : adopts = true ∧ d = c
    · obtain ⟨had, rfl⟩ := had
      obtain ⟨hset, hpos⟩ := (hp rfl).2 had
      have hv := h.sound.invariant (fun h0 => by have := h.c_lt; simp [h0] at this)
      have hobs : t.sys.observes d (.resume d lastEpoch off) = true := by
        simp [LogSys.observes, hr, Except.isOk, Except.toBool]
      have hread : (t.sys.log.con d).reading = 0 := by
        rw [h.sound.reading d h.c_lt, countP_eq_zero]
        intro x hx hxo
        have := hset x hx
        rw [ReadOp.pending_of_isOpen hxo] at this
        cases this
      obtain ⟨hpace, hacct⟩ := h.pace_seen hp hobs hread
      obtain ⟨-, hat, hlost⟩ := resume_unmasked hv h.unmasked h.c_lt hr
      have hlog : (t.sys.step (.resume d lastEpoch off)).log = r.1 := by
        simp [LogSys.step, LogSys.stepOut, LogSys.stepResume, hr, LogSys.after]
      have hfrom : (if lastEpoch = t.sys.log.epoch then max 1 off else (t.sys.log.con d).committed) =
          t.pos := by
        have h1 := h.pace.one_le
        have h2 := h.pace.committed_le
        have h3 := (hv.position d h.c_lt).one_le
        split at hpos
        · rename_i hep
          rw [if_pos hep]
          omega
        · rename_i hep
          rw [if_neg hep]
          omega
      rw [hfrom, ← hlog] at hat hlost
      have heq : t.step adopts d (.resume d lastEpoch off) = ⟨t.sys.step (.resume d lastEpoch off),
          max t.pos (t.sys.step (.resume d lastEpoch off)).log.lso,
          t.received + ((t.sys.step (.resume d lastEpoch off)).log.lso - t.pos)⟩ := by
        rw [← hat, ← hlost]
        simp [PullSys.step, LogSys.stepOut, LogSys.stepResume, hr, PullSys.deliver, had]
      rw [heq]
      refine h.next _ (hpace.adopt hacct) (OneCall.settled ?_ _ _)
      rw [hreads]
      exact hset
    · rw [step_eq]
      · exact hstay
      · simp only [LogSys.stepOut, LogSys.stepResume, hr, PullSys.deliver]
        rw [if_neg (by simpa using had)]

variable {call : ReadCall}

section

variable (h : Pulling c t)
include h

theorem readCall (hp : t.Pulls adopts c (.readCall call)) : Pulling c (t.step adopts c (.readCall call)) := by
  have hcon : Unseen (t.sys.log.con c) ((t.sys.step (.readCall call)).log.con c) :=
    unseen_step h.sound h.unmasked h.c_lt _ rfl
  have hpace := h.pace_unseen hp (by simp) hcon
  rw [step_eq]
  · refine h.next _ hpace ?_
    rw [hcon.acct]
    simp only [LogSys.step, LogSys.stepOut, LogSys.stepReadCall]
    split
    · exact h.calls
    · refine h.calls.push rfl ?_
      intro hpend
      simp only [ReadOp.pending, Bool.and_true, decide_eq_true_eq] at hpend
      exact hp hpend
  · simp only [LogSys.stepOut, LogSys.stepReadCall]
    split <;> rfl

theorem local_read {k : ℕ} {r : ReadOp}
    (hk : t.sys.reads[k]? = some r) (r' : ReadOp) (hcall : r'.call = r.call)
    (hpend : r'.pending c = true → r.pending c = true)
    (hscan : r'.call.c = c → ∀ scan ∈ r'.phase.scan?, ∃ scan₀ ∈ r.phase.scan?,
      scan.base = scan₀.base ∧ scan.lost = scan₀.lost)
    (hstep : t.sys.step op = { t.sys with reads := t.sys.reads.set k r' }) :
    Pulling c ⟨t.sys.step op, t.pos, t.received⟩ := by
  refine h.next op ?_ ?_
  · rw [hstep]
    exact h.pace
  · rw [hstep]
    refine h.calls.set hk hcall hpend ?_
    intro hc scan hs
    obtain ⟨scan₀, hs₀, h1, h2⟩ := hscan hc scan hs
    rw [h1, h2]
    exact h.calls.scan r (mem_of_getElem? hk) (hcall ▸ hc) scan₀ hs₀

omit h in
theorem still (hs : t.sys.stepOut op = (t.sys, .silent)) : t.step adopts c op = t := by
  simp [PullSys.step, LogSys.step, hs, PullSys.deliver]

theorem readAdvance (k : ℕ) : Pulling c (t.step adopts c (.readAdvance k)) := by
  rcases t.sys.stepOut_readAdvance k with hs | ⟨call, attempt, scan, hk, hs⟩
  · rwa [still hs]
  · rw [step_eq rfl]
    refine h.local_read hk ⟨call, attempt, .scanning (scan.advance t.sys.log call)⟩ rfl
      (fun hp => hp) ?_ (congrArg Prod.fst hs)
    intro _ scan' hs
    simp only [ReadPhase.scan?, Option.mem_def, Option.some.injEq] at hs
    subst hs
    exact ⟨scan, rfl, (advance_scan _ _ _).symm⟩

theorem readSnapshot (k : ℕ) : Pulling c (t.step adopts c (.readSnapshot k)) := by
  have hp : t.Pulls adopts c (.readSnapshot k) := trivial
  rcases t.sys.stepOut_readSnapshot k with hs | ⟨call, attempt, hk, ⟨e, hr, hs⟩ | ⟨l, scan, hr, hs⟩⟩
  · rwa [still hs]
  · rw [step_eq (by rw [hs]; rfl)]
    exact h.local_read hk ⟨call, attempt, .returned⟩ rfl (by simp [ReadOp.pending])
      (by simp [ReadPhase.scan?]) (congrArg Prod.fst hs)
  · rw [step_eq (by rw [hs]; rfl)]
    have hstep : t.sys.step (.readSnapshot k) =
        { t.sys with log := l, reads := t.sys.reads.set k ⟨call, attempt, .scanning scan⟩ } :=
      congrArg Prod.fst hs
    by_cases hcc : call.c = c
    · have hpend : ReadOp.pending c ⟨call, attempt, .waiting⟩ = true := by
        simp [ReadOp.pending, hcc]
      have hzero := h.calls.waiting hk hpend (by simp [ReadOp.isOpen, ReadPhase.isScanning])
      have hobs : t.sys.observes c (.readSnapshot k) = true := by
        simp [LogSys.observes, hk, hr, hcc, Except.isOk, Except.toBool]
      obtain ⟨hpace, hacct⟩ := h.pace_seen hp hobs ((h.sound.reading c h.c_lt).trans hzero)
      have hstart := h.calls.start _ (mem_of_getElem? hk) hpend
      simp only at hstart
      have hlso : (t.sys.step (.readSnapshot k)).log.lso = t.sys.log.lso := by
        obtain ⟨-, -, heq⟩ := Log.readSnapshot_eq hr
        simp only at heq
        rw [hstep, heq]
        rfl
      have hsp : call.sparse = false := by
        by_contra hsp
        have hm := (h.sound.reads _ (mem_of_getElem? hk)).sparse (by simpa using hsp)
        rw [h.unmasked] at hm
        cases hm
      refine h.next _ hpace ?_
      rw [show (t.sys.step (.readSnapshot k)).reads = _ from congrArg LogSys.reads hstep]
      refine (h.calls.move hzero _).set hk rfl (fun _ => hpend) ?_
      intro _ scan hs
      simp only [ReadPhase.scan?, Option.mem_def, Option.some.injEq] at hs
      subst hs
      obtain ⟨hlost, hbase⟩ := snapshot_scan hr
      simp only [hsp, Bool.false_eq_true, if_false] at hbase hlost
      omega
    · have hobs : t.sys.observes c (.readSnapshot k) = false := by
        simp [LogSys.observes, hk, hcc]
      have hu := unseen_step h.sound h.unmasked h.c_lt _ hobs
      refine h.next _ (h.pace_unseen hp (by simp) hu) ?_
      rw [show (t.sys.step (.readSnapshot k)).reads = _ from congrArg LogSys.reads hstep, hu.acct]
      exact h.calls.set hk rfl (by simp [ReadOp.pending, hcc]) (fun hc => absurd hc hcc)

theorem completeOther {k : ℕ} {attempt : ℕ} {scan : ReadScan}
    (hk : t.sys.reads[k]? = some ⟨call, attempt, .scanning scan⟩) (hrun : scan.running = false)
    (hcc : call.c ≠ c) : Pulling c (t.step adopts c (.readComplete k)) := by
  have hout := LogSys.stepOut_completed hk hrun
  have hlog : (t.sys.step (.readComplete k)).log = t.sys.log.readComplete call scan := by
    simp only [LogSys.step, hout]
  have hcon : (t.sys.step (.readComplete k)).log.con c = t.sys.log.con c := by
    rw [hlog, Log.readComplete, Log.con_updCon_of_ne _ _ (Ne.symm hcc)]
  rw [step_eq]
  · refine h.next _ ?_ ?_
    · rw [hcon, hlog]
      exact h.pace
    · rw [hcon]
      simp only [LogSys.step, hout]
      refine h.calls.set hk ?_ ?_ ?_
      · split <;> rfl
      · split <;> simp [ReadOp.pending, hcc]
      · split <;> simp [hcc]
  · simp only [hout]
    split
    · rfl
    · simp [PullSys.deliver, hcc]

/-- A completed read of `c`: a retry moves only `S[c]`, a result catches up with every
loss charged so far. -/
theorem completeOwn {k : ℕ} {attempt : ℕ} {scan : ReadScan}
    (hk : t.sys.reads[k]? = some ⟨call, attempt, .scanning scan⟩) (hrun : scan.running = false)
    (hcc : call.c = c) : Pulling c (t.step adopts c (.readComplete k)) ∧
      (Log.retries attempt call scan = false → (t.step adopts c (.readComplete k)).received =
        ((t.step adopts c (.readComplete k)).sys.log.con c).lostTotal) := by
  subst hcc
  have hout := LogSys.stepOut_completed hk hrun
  have hu := unseen_readComplete h.c_lt k
  have hlog : (t.sys.step (.readComplete k)).log = t.sys.log.readComplete call scan := by
    simp only [LogSys.step, hout]
  have hcon := congrArg (fun l => Log.con l call.c) hlog
  simp only [Log.readComplete, Log.con_updCon_self _ _ h.c_lt] at hcon
  have hcom := congrArg LogConsumer.committed hcon
  have hser := congrArg LogConsumer.served hcon
  have hlso : (t.sys.step (.readComplete k)).log.lso = t.sys.log.lso := by
    rw [hlog]
    rfl
  simp only at hcom hser
  have hpend : ReadOp.pending call.c ⟨call, attempt, .scanning scan⟩ = true := by simp [ReadOp.pending]
  obtain ⟨hbase, hlost⟩ := h.calls.scan _ (mem_of_getElem? hk) rfl scan rfl
  cases hretry : Log.retries attempt call scan with
  | true =>
    have hspan : scan.span call = 0 := by
      simp only [Log.retries, Bool.and_eq_true, decide_eq_true_eq] at hretry
      exact hretry.1.1
    rw [step_eq (by simp [hout, hretry, PullSys.deliver])]
    refine ⟨h.next _ ?_ ?_, by simp⟩
    · refine h.pace.keep hu hlso.ge ?_ ?_
      · rw [hcom]
        exact h.pace.committed_le
      · have := h.pace.served_le
        omega
    · rw [hu.acct]
      simp only [LogSys.step, hout, hretry, if_true]
      exact h.calls.set hk rfl (fun _ => hpend) (by simp [ReadPhase.scan?])
  | false =>
    obtain ⟨hpace, htold⟩ := h.pace.receive hu hbase hcom hser
    have heq : t.step adopts call.c (.readComplete k) = ⟨t.sys.step (.readComplete k),
        scan.base + scan.span call, t.received + ((t.sys.log.con call.c).acctNext - t.pos)⟩ := by
      rw [← hlost]
      simp [PullSys.step, hout, hretry, PullSys.deliver, ReadScan.result]
    rw [heq]
    refine ⟨h.next _ ?_ (OneCall.settled ?_ _ _), fun _ => htold.symm⟩
    · rw [hlso]
      exact hpace
    · simp only [LogSys.step, hout, hretry, Bool.false_eq_true, if_false]
      exact h.calls.returned hk hpend (by simp [ReadOp.pending])

theorem readComplete (k : ℕ) : Pulling c (t.step adopts c (.readComplete k)) ∧
      ∀ call r, (t.sys.stepOut (.readComplete k)).2 = .read call r → call.c = c →
        (t.step adopts c (.readComplete k)).received =
          ((t.step adopts c (.readComplete k)).sys.log.con c).lostTotal := by
  rcases t.sys.stepOut_readComplete k with ⟨hs, -⟩ | ⟨call, attempt, scan, hk, hrun⟩
  · rw [still hs, hs]
    exact ⟨h, by simp⟩
  · have hout := LogSys.stepOut_completed hk hrun
    by_cases hcc : call.c = c
    · refine ⟨(h.completeOwn hk hrun hcc).1, fun call' r hr _ => (h.completeOwn hk hrun hcc).2 ?_⟩
      cases hretry : Log.retries attempt call scan with
      | true => simp [hout, hretry] at hr
      | false => rfl
    · refine ⟨h.completeOther hk hrun hcc, fun call' r hr hc => ?_⟩
      simp only [hout] at hr
      split at hr
      · cases hr
      · simp only [LogOut.read.injEq] at hr
        exact absurd (hr.1 ▸ hc) hcc

theorem step (hp : t.Pulls adopts c op) : Pulling c (t.step adopts c op) := by
  have hquiet : ∀ op, op.isLocal = true → t.Pulls adopts c op →
      t.deliver adopts c (t.sys.stepOut op).2 = (t.pos, t.received) →
      Pulling c (t.step adopts c op) := by
    intro op hop hp hout
    rw [step_eq hout]
    refine h.stay hp ?_ (LogSys.reads_step t.sys op (Or.inl hop))
    rintro k rfl
    cases hop
  cases op with
  | resume d lastEpoch off => exact h.resume hp
  | readCall call => exact h.readCall hp
  | readSnapshot k => exact h.readSnapshot k
  | readAdvance k => exact h.readAdvance k
  | readComplete k => exact (h.readComplete k).1
  | append frame kind mask =>
    refine hquiet _ rfl hp ?_
    simp only [LogSys.stepOut, LogSys.stepAppend]
    split <;> rfl
  | commit d off =>
    refine hquiet _ rfl hp ?_
    simp only [LogSys.stepOut, LogSys.stepCommit]
    split <;> rfl
  | _ => exact hquiet _ rfl hp rfl

end

theorem run {epoch : ℕ} {cfg : LogConfig} {l : Log} (h : newLog epoch cfg = .ok l)
    (hm : cfg.masked = false) (hc : c < cfg.consumers.length) {ops : List LogOp}
    (hrun : StateRuns.Along (PullSys.step adopts c) (PullSys.Pulls adopts c) (PullSys.start l) ops) :
    Pulling c (PullSys.run adopts c l ops) :=
  StateRuns.run_invariant (fun _ _ ht hp => ht.step hp) (Pulling.start h hm hc) hrun

theorem told (h : Pulling c t) {r : LogReadResult}
    (hout : (t.sys.stepOut op).2 = .read call r) (hcc : call.c = c) :
    (t.step adopts c op).received = ((t.step adopts c op).sys.log.con c).lostTotal := by
  cases op with
  | readComplete k => exact (h.readComplete k).2 call r hout hcc
  | append frame kind mask =>
    simp only [LogSys.stepOut, LogSys.stepAppend] at hout
    split at hout <;> cases hout
  | commit d off =>
    simp only [LogSys.stepOut, LogSys.stepCommit] at hout
    split at hout <;> cases hout
  | resume d lastEpoch off =>
    simp only [LogSys.stepOut, LogSys.stepResume] at hout
    split at hout <;> cases hout
  | readCall call' =>
    simp only [LogSys.stepOut, LogSys.stepReadCall] at hout
    split at hout <;> cases hout
  | readSnapshot k =>
    simp only [LogSys.stepOut, LogSys.stepReadSnapshot] at hout
    split at hout
    · split at hout <;> cases hout
    · cases hout
  | _ => cases hout

end Pulling

/-- Loss accounting of an unmasked log. In every run `lostTotal` counts the offsets
judged lost, each once and none taken back, and right after an observation with no
read open these are the evicted offsets below `lso` never found below a watermark.
A consumer that reads on from its last batch has been told exactly `lostTotal` after
each read. -/
theorem LossSys.run_losses_exact {epoch : ℕ} {cfg : LogConfig} {l : Log}
    (h : newLog epoch cfg = .ok l) (hm : cfg.masked = false) {c : ℕ} (hc : c < cfg.consumers.length) :
    (∀ ops op,
      let t := run c l ops
      let t' := t.step c op
      (t.sys.log.con c).lostTotal = t.lost.card ∧
      (∀ x ∈ t.lost, x ∈ t.sys.evicted) ∧
      (t.sys.log.con c).lostTotal ≤ (t'.sys.log.con c).lostTotal ∧
      t.lost ⊆ t'.lost ∧
      (t'.sys.log.con c).lostTotal = (t.sys.log.con c).lostTotal + (t'.lost \ t.lost).card ∧
      (t.sys.observes c op = true → (t.sys.log.con c).reading = 0 →
        (t'.sys.log.con c).lostTotal =
          (t'.sys.evicted.filter (fun x => x < t'.sys.log.lso ∧ x ∉ t'.covered)).card)) ∧
    (∀ adopts ops op call r,
      let t := PullSys.run adopts c l ops
      StateRuns.Along (PullSys.step adopts c) (PullSys.Pulls adopts c) (PullSys.start l) ops →
      (t.sys.stepOut op).2 = .read call r → call.c = c →
      (t.step adopts c op).received = ((t.step adopts c op).sys.log.con c).lostTotal) := by
  refine ⟨?_, ?_⟩
  · intro ops op t t'
    have ht : Accounted c t := Accounted.run h hm hc ops
    have ht' : Accounted c t' := ht.step op
    have hsub : t.lost ⊆ t'.lost := by
      simp only [t', LossSys.step]
      split
      · exact Finset.subset_union_left
      · exact subset_rfl
    have hcard : (t'.sys.log.con c).lostTotal =
        (t.sys.log.con c).lostTotal + (t'.lost \ t.lost).card := by
      rw [ht.total, ht'.total, Finset.card_sdiff_of_subset hsub]
      have := Finset.card_le_card hsub
      omega
    refine ⟨ht.total, fun x hx => (ht.lost_sub x hx).1, by omega, hsub, hcard, ?_⟩
    intro hobs hread
    rw [ht'.total]
    congr 1
    exact ht.lost_eq hobs hread
  · intro adopts ops op call r t hrun hout hcc
    exact (Pulling.run h hm hc hrun).told hout hcc

def plainConfig : LogConfig := ⟨1, 0, 0, ["b"], false, 0, LogConfig.unlimited_lt⟩

def plainLog : Log := (newLog 7 plainConfig).toOption.get rfl

theorem plainLog_eq : newLog 7 plainConfig = .ok plainLog := rfl

/-- Two records, the first evicted by the second, and a read from offset 1. -/
def plainRead : List LogOp :=
  [.append [0, 0, 0, 0] .client 0, .append [0, 0, 0, 0] .client 0, .readCall ⟨0, 1, 8, 0, false⟩,
    .readSnapshot 0, .readAdvance 0, .readAdvance 0]

theorem LossSys.run_losses_exact_sample :
    (let t := (run 0 plainLog (plainRead.take 2)).step 0 (.observeConsumer 0)
    (t.sys.log.con 0).lostTotal =
      (t.sys.evicted.filter (fun x => x < t.sys.log.lso ∧ x ∉ t.covered)).card) ∧
    let p := (PullSys.run true 0 plainLog plainRead).step true 0 (.readComplete 0)
    p.received = 1 ∧ p.received = (p.sys.log.con 0).lostTotal := by
  refine ⟨?_, by decide, ?_⟩
  · exact ((run_losses_exact plainLog_eq rfl (by decide)).1 (plainRead.take 2)
      (.observeConsumer 0)).2.2.2.2.2 (by decide) (by decide)
  · exact (run_losses_exact plainLog_eq rfl (by decide)).2 true plainRead (.readComplete 0)
      ⟨0, 1, 8, 0, false⟩ ⟨2, 1, 1, false, 4, 1, false, 2, 3, [[0, 0, 0, 0]], []⟩ (by decide)
      (by decide) rfl

end MonsterMQ.PeerLink
