import MonsterMQ.PeerLinkLogTrim

/-!
# What a consumer is told about its losses

`Resume`, a sparse read and a dense read report losses; `ReportSys` adds up what consumer `c` has been told.
A sparse read takes its figure in one locked step and records it in another, so a report between the two
tells a loss twice.
-/

namespace MonsterMQ.PeerLink

open LittleEndian List

/-- The loss figure an answer carries to consumer `c`. -/
def LogOut.tells (c : ℕ) : LogOut → ℕ
  | .read call r => if call.c = c then r.lost else 0
  | .resumed d r => if d = c then r.lostOnResume else 0
  | _ => 0

structure ReportSys where
  sys : LogSys
  told : ℕ

namespace ReportSys

@[grind =] def start (l : Log) : ReportSys := ⟨LogSys.start l, 0⟩

@[grind =] def step (c : ℕ) (t : ReportSys) (op : LogOp) : ReportSys :=
  ⟨t.sys.step op, t.told + (t.sys.stepOut op).2.tells c⟩

def run (c : ℕ) (l : Log) (ops : List LogOp) : ReportSys := StateRuns.run (step c) (start l) ops

end ReportSys

/-- The loss an open read of `c` has taken and not recorded yet. -/
@[grind =] def ReadOp.owed (c : ℕ) (r : ReadOp) : ℕ :=
  match r.phase with
  | .scanning s => if r.call.c = c then s.lost else 0
  | _ => 0

namespace LogSys

def NoneOwed (s : LogSys) (c : ℕ) : Prop := ∀ r ∈ s.reads, r.owed c = 0
deriving Decidable

/-- A snapshot that reports: a sparse one needs sole charge of the losses, a dense
one must not start below `lso`. -/
def CleanSnapshot (s : LogSys) (c : ℕ) (r : ReadOp) : Prop :=
  r.call.c = c → if r.call.sparse then s.NoneOwed c else s.log.lso ≤ r.call.start
deriving Decidable

/-- The third attempt of a sparse read that took a loss still finds its first record. -/
def CleanCompletion (c : ℕ) (r : ReadOp) : Prop :=
  match r.phase with
  | .scanning scan => r.call.c = c → r.call.sparse = true → scan.truncated = true →
      scan.span r.call = 0 → r.attempt = 2 → scan.lost = 0
  | _ => True

/-- The condition on one step, in the state before it. -/
def CleanReport (c : ℕ) (s : LogSys) : LogOp → Prop
  | .readSnapshot k => ∀ r ∈ s.reads[k]?, s.CleanSnapshot c r
  | .readComplete k => ∀ r ∈ s.reads[k]?, CleanCompletion c r
  | .resume d lastEpoch off =>
      d = c → lastEpoch = s.log.epoch ∧ s.log.lso ≤ (if off = 0 then 1 else off) ∨ s.NoneOwed c
  | _ => True

instance (c : ℕ) : ∀ r, Decidable (CleanCompletion c r)
  | ⟨_, _, .waiting⟩ => isTrue trivial
  | ⟨call, attempt, .scanning scan⟩ =>
    inferInstanceAs (Decidable (call.c = c → call.sparse = true → scan.truncated = true →
      scan.span call = 0 → attempt = 2 → scan.lost = 0))
  | ⟨_, _, .returned⟩ => isTrue trivial

instance (c : ℕ) (s : LogSys) : ∀ op, Decidable (CleanReport c s op)
  | .readSnapshot k => inferInstanceAs (Decidable (∀ r ∈ s.reads[k]?, s.CleanSnapshot c r))
  | .readComplete k => inferInstanceAs (Decidable (∀ r ∈ s.reads[k]?, CleanCompletion c r))
  | .resume d lastEpoch off => inferInstanceAs (Decidable (d = c → lastEpoch = s.log.epoch ∧
      s.log.lso ≤ (if off = 0 then 1 else off) ∨ s.NoneOwed c))
  | .append _ _ _ | .commit _ _ | .advanceSkipped | .clearConsumerBits _ _ _ | .markServed _ _
  | .setConsumerState _ _ | .observeConsumer _ | .sealLog | .clearSlot _ | .readCall _
  | .readAdvance _ => isTrue trivial

end LogSys

/-- A consumer over an operation that reports nothing: it may be charged. -/
structure Charged (con con' : LogConsumer) : Prop where
  lost_le : con.lostTotal ≤ con'.lostTotal
  reported : con'.reportedLost = con.reportedLost

namespace Charged

theorem refl (con : LogConsumer) : Charged con con := ⟨le_rfl, rfl⟩

theorem trans {con con₁ con₂ : LogConsumer} (h : Charged con con₁) (h' : Charged con₁ con₂) :
    Charged con con₂ :=
  ⟨h.1.trans h'.1, h'.2.trans h.2⟩

theorem observe (lso : ℕ) (con : LogConsumer) : Charged con (Log.observe lso con) := by
  unfold Log.observe
  split
  · exact refl con
  · simp only
    split
    · exact ⟨Nat.le_add_right _ _, rfl⟩
    · exact ⟨le_rfl, rfl⟩

theorem accountEvict (x : ℕ) (mask : Mask) (c : ℕ) (con : LogConsumer) :
    Charged con (Log.accountEvict x mask c con) := by
  unfold Log.accountEvict
  split
  · exact refl con
  · refine ⟨?_, rfl⟩
    simp only
    split <;> omega

theorem evictCharges (masked : Bool) (marks : List Mask) (k x c : ℕ) (con : LogConsumer) :
    Charged con (Log.evictCharges masked marks k x c con) := by
  unfold Log.evictCharges
  split
  · induction k generalizing x con with
    | zero => exact refl con
    | succ k ih => exact (accountEvict x _ c con).trans (ih (x + 1) _)
  · exact refl con

theorem skipCaughtUp (off : ℕ) (mask : Mask) (c : ℕ) (con : LogConsumer) :
    Charged con (Log.skipCaughtUp off mask c con) := by
  unfold Log.skipCaughtUp
  split
  · exact ⟨le_rfl, rfl⟩
  · exact refl con

theorem updCon (l : Log) (c : ℕ) {f : LogConsumer → LogConsumer} (hf : ∀ con, Charged con (f con))
    {d : ℕ} (hd : d < l.consumers.length) : Charged (l.con d) ((l.updCon c f).con d) := by
  by_cases hdc : d = c
  · subst hdc
    rw [Log.con_updCon_self l f hd]
    exact hf _
  · rw [Log.con_updCon_of_ne l f hdc]
    exact refl _

theorem of_eq {con con' : LogConsumer} (h : con' = con) : Charged con con' := h ▸ refl con

private theorem skipOrStay (masked : Bool) (off : ℕ) (mask : Mask) (c : ℕ) (con : LogConsumer) :
    Charged con (if masked then Log.skipCaughtUp off mask c con else con) := by
  split
  · exact skipCaughtUp off mask c con
  · exact refl con

theorem shifts {P : ℕ → ℕ → Prop} {l l' : Log} (h : Log.Shifts P l l') {d : ℕ}
    (hd : d < l.consumers.length) : Charged (l.con d) (l'.con d) := by
  obtain ⟨y, hy, -⟩ := h.con hd
  rw [hy]
  exact ⟨le_rfl, rfl⟩

end Charged

/-- The operations that neither report losses nor belong to a read. -/
def LogOp.isLocal : LogOp → Bool
  | .resume _ _ _ | .readCall _ | .readSnapshot _ | .readAdvance _ | .readComplete _ => false
  | _ => true

open LogSys in
theorem charged_step {s : LogSys} (h : Sound s) {c : ℕ} (hc : c < s.log.consumers.length) (op : LogOp)
    (hop : op.isLocal = true) : Charged (s.log.con c) ((s.step op).log.con c) ∧
      (s.step op).reads = s.reads ∧ (s.stepOut op).2.tells c = 0 := by
  have hne : s.log.consumers ≠ [] := fun h0 => by simp [h0] at hc
  have hv := h.invariant hne
  cases op with
  | append frame kind mask =>
    have hout : (s.stepOut (.append frame kind mask)).2.tells c = 0 := by
      simp only [stepOut, stepAppend]
      split <;> rfl
    rcases h.append_view hne frame kind mask with e | ⟨lso₁, k, e⟩
    · exact ⟨Charged.of_eq (e.con c), e.reads, hout⟩
    · refine ⟨?_, e.reads, hout⟩
      refine Charged.trans ?_ (Charged.of_eq (e.con c hc))
      exact (Charged.skipOrStay _ _ _ _ _).trans (Charged.evictCharges _ _ _ _ _ _)
  | commit d off =>
    simp only [step, stepOut, stepCommit]
    generalize hr : s.log.commit d off = r
    cases r with
    | error e => exact ⟨Charged.refl _, rfl, rfl⟩
    | ok r =>
      obtain ⟨-, -, -, hshift, -⟩ := hv.commit hr
      exact ⟨Charged.shifts hshift hc, rfl, rfl⟩
  | advanceSkipped => exact ⟨Charged.shifts hv.advanceSkipped.2.1 hc, rfl, rfl⟩
  | clearConsumerBits d start drop =>
    refine ⟨?_, rfl, rfl⟩
    change Charged _ ((s.log.clearConsumerBits d start drop).1.con c)
    by_cases hg : s.log.masked = true ∧ d < s.log.consumers.length
    · obtain ⟨e, -, -, hshift, -⟩ := hv.clearConsumerBits start drop hg.1 hg.2
      have hcons := e.field Log.consumers (fun _ => rfl)
      have hcon : (s.log.sweepBits d start drop).1.con c = s.log.con c := by
        simp only [Log.con, hcons]
      rw [← hcon]
      exact Charged.shifts hshift (by rw [hcons]; exact hc)
    · have hguard : (!s.log.masked || decide (d ≥ s.log.consumers.length)) = true := by
        simpa [imp_iff_not_or] using hg
      simp only [Log.clearConsumerBits, hguard, if_true]
      exact Charged.refl _
  | markServed d upTo =>
    refine ⟨?_, rfl, rfl⟩
    change Charged _ ((s.log.markServed d upTo).con c)
    unfold Log.markServed
    split
    · exact Charged.refl _
    · refine Charged.updCon _ _ (fun _ => ?_) hc
      exact ⟨le_rfl, rfl⟩
  | setConsumerState d st =>
    refine ⟨?_, rfl, rfl⟩
    change Charged _ ((s.log.setConsumerState d st).con c)
    unfold Log.setConsumerState
    split
    · exact Charged.refl _
    · refine Charged.updCon _ _ (fun _ => ?_) hc
      exact ⟨le_rfl, rfl⟩
  | observeConsumer d =>
    refine ⟨?_, rfl, rfl⟩
    change Charged _ ((s.log.observeConsumer d).con c)
    unfold Log.observeConsumer
    split
    · exact Charged.refl _
    · exact Charged.updCon _ _ (Charged.observe _) hc
  | sealLog => exact ⟨Charged.refl _, rfl, rfl⟩
  | clearSlot k =>
    simp only [step, stepOut, stepClearSlot]
    split
    · exact ⟨Charged.refl _, rfl, rfl⟩
    · split
      · exact ⟨Charged.refl _, rfl, rfl⟩
      · exact ⟨Charged.refl _, rfl, rfl⟩
  | resume _ _ _ | readCall _ | readSnapshot _ | readAdvance _ | readComplete _ => cases hop

theorem snapshot_scan {l : Log} {call : ReadCall} {r : Log × ReadScan}
    (hr : l.readSnapshot call = .ok r) : r.2.lost =
        (if call.sparse then r.1.unreported call.c else max call.start l.lso - call.start) ∧
      r.2.base = max call.start l.lso := by
  unfold Log.readSnapshot at hr
  split at hr
  · cases hr
  · simp only [Except.ok.injEq] at hr
    subst hr
    exact ⟨rfl, rfl⟩

theorem advance_scan (l : Log) (call : ReadCall) (s : ReadScan) :
    (s.advance l call).lost = s.lost ∧ (s.advance l call).base = s.base := by
  rcases Log.advance_cases l call s with
    heq | ⟨-, -, heq⟩ | ⟨-, p, -, heq | ⟨-, -, heq⟩ | ⟨-, done, heq⟩⟩
  · exact ⟨by rw [heq], by rw [heq]⟩
  · rw [heq]
    rcases Log.loadSlot_cases l s with heq | ⟨p, -, heq⟩ <;> exact ⟨by rw [heq], by rw [heq]⟩
  · exact ⟨by rw [heq], by rw [heq]⟩
  · exact ⟨by rw [heq], by rw [heq]⟩
  · rw [heq]
    exact ⟨rfl, rfl⟩

section Resume
variable {l : Log} {frames : List Bytes} {marks : List Mask} {c : ℕ}

/-- A resume offset at or above `lso` stays there when the resume trims the log. -/
theorem resumeCommit_lso_le (hv : Log.LogInvariant l frames marks) (hc : c < l.consumers.length)
    {off : ℕ} (hoff : off ≤ l.leo) (hlso : l.lso ≤ off) : (l.resumeCommit c off).1.lso ≤ off := by
  obtain ⟨y, -, hy, -, h2⟩ := (hv.resumeCommit hc hoff).2.1.con hc
  simp only [Log.OnlyMoves, if_true] at hy
  by_cases hgt : off > (l.con c).committed
  · omega
  · rw [Log.resumeCommit, if_neg hgt]
    exact hlso

/-- `Resume` as seen by the resuming consumer of a masked log: it is observed, and
then reports everything unreported unless it goes on where it stopped. -/
theorem resume_reports (hv : Log.LogInvariant l frames marks) (hm : l.masked = true)
    {lastEpoch off : ℕ} {r : Log × Log.Resume × Option ClearReq} (hr : l.resume c lastEpoch off = .ok r) :
    ∃ con₁, Charged (l.con c) con₁ ∧ ((r.2.1.lostOnResume = 0 ∧ r.1.con c = con₁) ∨
      (¬ (lastEpoch = l.epoch ∧ l.lso ≤ (if off = 0 then 1 else off)) ∧
        r.2.1.lostOnResume = counterDiff con₁.lostTotal con₁.reportedLost ∧
        r.1.con c = { con₁ with reportedLost := con₁.lostTotal })) := by
  unfold Log.resume at hr
  split at hr
  · cases hr
  rename_i hc
  have hc : c < l.consumers.length := by omega
  simp only at hr
  split at hr
  · rename_i hep
    generalize (if off = 0 then 1 else off) = o at hr ⊢
    split at hr
    · cases hr
    rename_i hoff
    cases hr
    obtain ⟨hv₁, hshift, -⟩ := hv.resumeCommit hc (not_lt.mp hoff)
    have hc₁ : c < (l.resumeCommit c o).1.consumers.length := by rw [hshift.length_eq]; exact hc
    have hm₁ : (l.resumeCommit c o).1.masked = true := hshift.fields.1.masked.trans hm
    have hobs : Charged (l.con c) (((l.resumeCommit c o).1.observeLocked c).con c) :=
      (Charged.shifts hshift hc).trans (Charged.updCon _ _ (Charged.observe _) hc₁)
    refine ⟨((l.resumeCommit c o).1.observeLocked c).con c, hobs, ?_⟩
    unfold Log.resumeSameEpoch
    simp only
    have hm₂ : ((l.resumeCommit c o).1.observeLocked c).masked = true := hm₁
    have hlso₂ : ((l.resumeCommit c o).1.observeLocked c).lso = (l.resumeCommit c o).1.lso := rfl
    rw [if_pos hm₂, hlso₂]
    split
    · exact Or.inl ⟨rfl, rfl⟩
    · rename_i hlt
      refine Or.inr ⟨fun hno => hlt (resumeCommit_lso_le hv hc (not_lt.mp hoff) hno.2), rfl, ?_⟩
      exact Log.con_updCon_self _ _ (by simpa [Log.observeLocked] using hc₁)
  · rename_i hep
    cases hr
    have hobs : Charged (l.con c) ((l.observeLocked c).con c) :=
      Charged.updCon _ _ (Charged.observe _) hc
    refine ⟨(l.observeLocked c).con c, hobs, Or.inr ⟨fun hno => hep hno.1, ?_, ?_⟩⟩
    · unfold Log.resumeOtherEpoch
      simp only
      rw [if_pos (show (l.observeLocked c).masked = true from hm)]
      rfl
    · unfold Log.resumeOtherEpoch
      simp only
      rw [if_pos (show (l.observeLocked c).masked = true from hm)]
      exact Log.con_updCon_self _ _ (by simpa [Log.observeLocked] using hc)

end Resume

@[grind =] def LogSys.owed (s : LogSys) (c : ℕ) : ℕ := (s.reads.map (ReadOp.owed c)).sum

theorem LogSys.NoneOwed.owed_eq {s : LogSys} {c : ℕ} (h : s.NoneOwed c) : s.owed c = 0 := by
  refine sum_eq_zero ?_
  intro n hn
  obtain ⟨r, hr, rfl⟩ := mem_map.mp hn
  exact h r hr

private theorem sum_owed_set (c : ℕ) {reads : List ReadOp} {k : ℕ} {r : ReadOp} (hk : reads[k]? = some r)
    (r' : ReadOp) : ((reads.set k r').map (ReadOp.owed c)).sum + r.owed c =
      (reads.map (ReadOp.owed c)).sum + r'.owed c := by
  induction reads generalizing k with
  | nil => simp at hk
  | cons q reads ih =>
    cases k with
    | zero =>
      simp only [List.getElem?_cons_zero, Option.some.injEq] at hk
      subst hk
      simp only [set_cons_zero, map_cons, sum_cons]
      omega
    | succ k =>
      have := ih (k := k) (by simpa using hk)
      simp only [set_cons_succ, map_cons, sum_cons]
      omega

/-- An open dense read of `c` has taken no loss. -/
def LogSys.DenseClear (s : LogSys) (c : ℕ) : Prop :=
  ∀ r ∈ s.reads, r.call.c = c → r.call.sparse = false → r.owed c = 0

namespace LogSys

variable {s : LogSys} {c : ℕ}

theorem DenseClear.set (h : s.DenseClear c) {k : ℕ} {r' : ReadOp}
    (hr' : r'.call.c = c → r'.call.sparse = false → r'.owed c = 0) {s' : LogSys}
    (hs' : s'.reads = s.reads.set k r') : s'.DenseClear c := by
  intro r hr
  rw [hs'] at hr
  rcases mem_or_eq_of_mem_set hr with hr | rfl
  · exact h r hr
  · exact hr'

theorem reads_step (s : LogSys) (op : LogOp)
    (hop : op.isLocal = true ∨ ∃ d e off, op = .resume d e off) : (s.step op).reads = s.reads := by
  cases op with
  | append frame kind mask =>
    simp only [step, stepOut, stepAppend]
    split <;> rfl
  | commit d off =>
    simp only [step, stepOut, stepCommit]
    split <;> rfl
  | resume d e off =>
    simp only [step, stepOut, stepResume]
    split <;> rfl
  | clearSlot k =>
    simp only [step, stepOut, stepClearSlot]
    split
    · rfl
    · split <;> rfl
  | readCall call | readSnapshot k | readAdvance k | readComplete k => simp [LogOp.isLocal] at hop
  | _ => rfl

theorem DenseClear.step (h : s.DenseClear c) {op : LogOp} (hclean : s.CleanReport c op) :
    (s.step op).DenseClear c := by
  have hsame : ∀ s' : LogSys, s'.reads = s.reads → s'.DenseClear c := by
    intro s' hs' r hr
    exact h r (hs' ▸ hr)
  cases op with
  | resume d e off => exact hsame _ (reads_step s _ (Or.inr ⟨d, e, off, rfl⟩))
  | readCall call =>
    simp only [LogSys.step, stepOut, stepReadCall]
    split
    · exact hsame _ rfl
    · intro r hr
      rcases mem_append.mp hr with hr | hr
      · exact h r hr
      · rw [mem_singleton.mp hr]
        exact fun _ _ => rfl
  | readSnapshot k =>
    simp only [LogSys.step, stepOut, stepReadSnapshot]
    split
    · rename_i call attempt hk
      split
      · exact h.set (fun _ _ => rfl) rfl
      · rename_i l scan hr
        refine h.set ?_ rfl
        intro (hcc : call.c = c) (hsp : call.sparse = false)
        have hsnap := hclean _ hk hcc
        have hlost := (snapshot_scan hr).1
        simp only [hsp, Bool.false_eq_true, if_false] at hsnap hlost
        simp only [ReadOp.owed, hcc, if_true]
        omega
    · exact hsame _ rfl
  | readAdvance k =>
    simp only [LogSys.step, stepOut, stepReadAdvance]
    split
    · rename_i call attempt scan hk
      refine h.set ?_ rfl
      have := h _ (mem_of_getElem? hk)
      simp only [ReadOp.owed, (advance_scan _ _ _).1] at this ⊢
      exact this
    · exact hsame _ rfl
  | readComplete k =>
    simp only [LogSys.step, stepOut, stepReadComplete]
    split
    · split
      · exact hsame _ rfl
      · split
        · exact h.set (fun _ _ => rfl) rfl
        · exact h.set (fun _ _ => rfl) rfl
    · exact hsame _ rfl
  | _ => exact hsame _ (reads_step s _ (Or.inl rfl))

end LogSys

/-- What `c` was told is what the log has recorded, and the losses that open reads
have taken fit between that and the total. -/
structure Reporting (c : ℕ) (t : ReportSys) : Prop where
  sound : t.sys.Sound
  masked : t.sys.log.masked = true
  c_lt : c < t.sys.log.consumers.length
  told_eq : t.told = (t.sys.log.con c).reportedLost
  owed_le : (t.sys.log.con c).reportedLost + t.sys.owed c ≤ (t.sys.log.con c).lostTotal

namespace Reporting

variable {c : ℕ} {t : ReportSys}

theorem silent (h : Reporting c t) {op : LogOp} (hcon : Charged (t.sys.log.con c) ((t.sys.step op).log.con c))
    (hreads : (t.sys.step op).owed c ≤ t.sys.owed c) (hout : (t.sys.stepOut op).2.tells c = 0) :
    Reporting c (t.step c op) := by
  obtain ⟨hs, he⟩ := h.sound.step op
  have h1 := h.told_eq
  have h2 := h.owed_le
  have h3 := hcon.lost_le
  have h4 := hcon.reported
  refine ⟨hs, he.masked.trans h.masked, by rw [ReportSys.step, he.length_eq]; exact h.c_lt, ?_, ?_⟩
  · simp only [ReportSys.step, hout]
    omega
  · simp only [ReportSys.step]
    omega

theorem next (h : Reporting c t) {op : LogOp}
    (htold : t.told + (t.sys.stepOut op).2.tells c = ((t.sys.step op).log.con c).reportedLost)
    (howed : ((t.sys.step op).log.con c).reportedLost + (t.sys.step op).owed c ≤
      ((t.sys.step op).log.con c).lostTotal) : Reporting c (t.step c op) := by
  obtain ⟨hs, he⟩ := h.sound.step op
  exact ⟨hs, he.masked.trans h.masked, by rw [ReportSys.step, he.length_eq]; exact h.c_lt, htold,
    howed⟩

theorem resume (h : Reporting c t) {d lastEpoch off : ℕ}
    (hclean : t.sys.CleanReport c (.resume d lastEpoch off)) :
    Reporting c (t.step c (.resume d lastEpoch off)) := by
  have hne : t.sys.log.consumers ≠ [] := fun h0 => by have := h.c_lt; simp [h0] at this
  have hv := h.sound.invariant hne
  have htold := h.told_eq
  have howed := h.owed_le
  cases hr : t.sys.log.resume d lastEpoch off with
  | error e =>
    have heq : t.sys.stepOut (.resume d lastEpoch off) = (t.sys, .failed e) := by
      simp only [LogSys.stepOut, LogSys.stepResume, hr]
    refine h.silent ?_ ?_ ?_
    · rw [LogSys.step, heq]
      exact Charged.refl _
    · rw [LogSys.step, heq]
    · rw [heq]
      rfl
  | ok r =>
    have heq : t.sys.stepOut (.resume d lastEpoch off) =
        (t.sys.after r.1 r.2.2, .resumed d r.2.1) := by
      simp only [LogSys.stepOut, LogSys.stepResume, hr]
    have hreads : (t.sys.step (.resume d lastEpoch off)).owed c = t.sys.owed c := by
      rw [LogSys.step, heq]
      rfl
    have hlog : (t.sys.step (.resume d lastEpoch off)).log = r.1 := by
      rw [LogSys.step, heq]
      rfl
    have htells : (t.sys.stepOut (.resume d lastEpoch off)).2.tells c =
        if d = c then r.2.1.lostOnResume else 0 := by
      rw [heq]
      rfl
    by_cases hdc : d = c
    · subst hdc
      rw [if_pos rfl] at htells
      obtain ⟨con₁, hch, ⟨h1, h2⟩ | ⟨h1, h2, h3⟩⟩ := resume_reports hv h.masked hr
      · exact h.silent (by rw [hlog, h2]; exact hch) hreads.le (htells.trans h1)
      · have hnone : t.sys.owed d = 0 := ((hclean rfl).resolve_left h1).owed_eq
        have hlost := hch.lost_le
        have hrep := hch.reported
        have hdiff : counterDiff con₁.lostTotal con₁.reportedLost =
            con₁.lostTotal - con₁.reportedLost := by
          rw [counterDiff, if_pos (by omega)]
        refine h.next ?_ ?_
        · rw [hlog, htells, h2, h3, hdiff]
          simp only
          omega
        · rw [hlog, hreads, h3, hnone]
          simp
    · rw [if_neg hdc] at htells
      refine h.silent ?_ hreads.le htells
      rw [hlog]
      exact Charged.of_eq (hv.resume_con_of_ne (fun he => hdc he.symm) h.c_lt hr)

theorem readCall (h : Reporting c t) (call : ReadCall) : Reporting c (t.step c (.readCall call)) := by
  have hkey : (t.sys.step (.readCall call)).log = t.sys.log ∧
      (t.sys.step (.readCall call)).owed c = t.sys.owed c ∧
      (t.sys.stepOut (.readCall call)).2.tells c = 0 := by
    simp only [LogSys.step, LogSys.stepOut, LogSys.stepReadCall]
    split
    · exact ⟨rfl, rfl, rfl⟩
    · refine ⟨rfl, ?_, rfl⟩
      simp [LogSys.owed, ReadOp.owed]
  refine h.silent ?_ hkey.2.1.le hkey.2.2
  rw [hkey.1]
  exact Charged.refl _

theorem owed_set {s : LogSys} {k : ℕ} {r : ReadOp} (hk : s.reads[k]? = some r) (r' : ReadOp)
    {s' : LogSys} (hs' : s'.reads = s.reads.set k r') : s'.owed c + r.owed c = s.owed c + r'.owed c := by
  rw [LogSys.owed, hs']
  exact sum_owed_set c hk r'

theorem still (h : Reporting c t) {op : LogOp} (hs : t.sys.stepOut op = (t.sys, .silent)) :
    Reporting c (t.step c op) := by
  refine h.silent ?_ ?_ ?_ <;> simp only [LogSys.step, hs]
  · exact Charged.refl _
  · exact le_rfl
  · rfl

theorem readSnapshot (h : Reporting c t) {k : ℕ} (hclean : t.sys.CleanReport c (.readSnapshot k)) :
    Reporting c (t.step c (.readSnapshot k)) := by
  have howed := h.owed_le
  rcases t.sys.stepOut_readSnapshot k with hs | ⟨call, attempt, hk, ⟨e, -, hs⟩ | ⟨l, scan, hr, hs⟩⟩
  · exact h.still hs
  · refine h.silent ?_ ?_ ?_
    · rw [LogSys.step, hs]
      exact Charged.refl _
    · have := owed_set (c := c) hk ⟨call, attempt, .returned⟩
        (show (t.sys.step (.readSnapshot k)).reads = _ by rw [LogSys.step, hs])
      simp only [ReadOp.owed] at this
      omega
    · rw [hs]
      rfl
  · have hset := owed_set (c := c) hk ⟨call, attempt, .scanning scan⟩
      (show (t.sys.step (.readSnapshot k)).reads = _ by rw [LogSys.step, hs])
    have hlog : (t.sys.step (.readSnapshot k)).log = l := by rw [LogSys.step, hs]
    obtain ⟨-, -, hl⟩ := Log.readSnapshot_eq hr
    simp only at hl
    have hch : Charged (t.sys.log.con c) (l.con c) := by
      rw [hl]
      refine Charged.updCon _ _ (fun con => ?_) h.c_lt
      have := Charged.observe t.sys.log.lso con
      exact ⟨this.1, this.2⟩
    have hlost := hch.lost_le
    have hrep := hch.reported
    simp only [ReadOp.owed] at hset
    by_cases hcc : call.c = c
    · have hsnap := hclean _ hk hcc
      simp only at hsnap
      have hscan := (snapshot_scan hr).1
      rw [if_pos hcc] at hset
      refine h.next ?_ ?_
      · rw [hlog, hs]
        simp only [LogOut.tells, hrep]
        exact h.told_eq
      · rw [hlog]
        cases hsp : call.sparse with
        | true =>
          simp only [hsp, if_true] at hsnap hscan
          have hzero := hsnap.owed_eq
          rw [hcc] at hscan
          have hdiff : l.unreported c = (l.con c).lostTotal - (l.con c).reportedLost := by
            rw [Log.unreported, counterDiff, if_pos (by omega)]
          omega
        | false =>
          simp only [hsp, Bool.false_eq_true, if_false] at hsnap hscan
          omega
    · rw [if_neg hcc] at hset
      refine h.silent ?_ (by omega) ?_
      · rw [hlog]
        exact hch
      · rw [hs]
        rfl

theorem readAdvance (h : Reporting c t) (k : ℕ) : Reporting c (t.step c (.readAdvance k)) := by
  rcases t.sys.stepOut_readAdvance k with hs | ⟨call, attempt, scan, hk, hs⟩
  · exact h.still hs
  · refine h.silent ?_ ?_ rfl
    · rw [LogSys.step, hs]
      exact Charged.refl _
    · have := owed_set (c := c) hk ⟨call, attempt, .scanning (scan.advance t.sys.log call)⟩
        (show (t.sys.step (.readAdvance k)).reads = _ by rw [LogSys.step, hs])
      simp only [ReadOp.owed, (advance_scan _ _ _).1] at this
      omega

theorem readComplete (h : Reporting c t) (hd : t.sys.DenseClear c) {k : ℕ}
    (hclean : t.sys.CleanReport c (.readComplete k)) : Reporting c (t.step c (.readComplete k)) := by
  have howed := h.owed_le
  have htold := h.told_eq
  rcases t.sys.stepOut_readComplete k with ⟨hs, -⟩ | ⟨call, attempt, scan, hk, hrun⟩
  · exact h.still hs
  · have hcl := hclean _ hk
    simp only [LogSys.CleanCompletion] at hcl
    have heq := LogSys.stepOut_completed hk hrun
    have hout : (t.sys.stepOut (.readComplete k)).2.tells c = if Log.retries attempt call scan = true then 0
        else if call.c = c then scan.lost else 0 := by
      rw [heq]
      simp only
      split <;> rfl
    have hset := owed_set (c := c) hk _ (show (t.sys.step (.readComplete k)).reads = _ by rw [LogSys.step, heq])
    have hlog : (t.sys.step (.readComplete k)).log = t.sys.log.readComplete call scan := by
      rw [LogSys.step, heq]
    have hr' : ReadOp.owed c (if Log.retries attempt call scan then ⟨call, attempt + 1, .waiting⟩
        else ⟨call, attempt, .returned⟩) = 0 := by split <;> rfl
    rw [hr'] at hset
    simp only [ReadOp.owed] at hset
    by_cases hcc : call.c = c
    · subst hcc
      rw [if_pos rfl] at hset hout
      have hcon : (t.sys.log.readComplete call scan).con call.c = _ :=
        Log.con_updCon_self _ _ h.c_lt
      have hrec : (if Log.retries attempt call scan = true then 0 else scan.lost) =
          if (call.sparse && (!scan.truncated || decide (scan.span call > 0))) = true then scan.lost
            else 0 := by
        cases hsp : call.sparse with
        | false =>
          have hzero := hd _ (mem_of_getElem? hk) rfl hsp
          simp only [ReadOp.owed, if_true] at hzero
          simp [hzero]
        | true =>
          cases htr : scan.truncated with
          | false => simp [Log.retries, htr]
          | true =>
            rcases Nat.eq_zero_or_pos (scan.span call) with hz | hz
            · by_cases hatt : attempt = 2
              · have hzero := hcl rfl hsp htr hz hatt
                simp [hzero]
              · simp [Log.retries, htr, hz, hatt]
            · simp [Log.retries, htr, hz, Nat.ne_of_gt hz]
      refine h.next ?_ ?_
      · rw [hout, hrec, hlog, hcon]
        simp only
        split <;> omega
      · rw [hlog, hcon]
        simp only
        split <;> omega
    · rw [if_neg hcc] at hset hout
      refine h.silent ?_ (by omega) (by rw [hout]; split <;> rfl)
      rw [hlog, Log.readComplete, Log.con_updCon_of_ne _ _ (fun e => hcc e.symm)]
      exact Charged.refl _

theorem step (h : Reporting c t) (hd : t.sys.DenseClear c) {op : LogOp}
    (hclean : t.sys.CleanReport c op) : Reporting c (t.step c op) := by
  have hlocal := charged_step h.sound h.c_lt op
  cases op with
  | resume d lastEpoch off => exact h.resume hclean
  | readCall call => exact h.readCall call
  | readSnapshot k => exact h.readSnapshot hclean
  | readAdvance k => exact h.readAdvance k
  | readComplete k => exact h.readComplete hd hclean
  | _ =>
    obtain ⟨h1, h2, h3⟩ := hlocal rfl
    exact h.silent h1 (by rw [LogSys.owed, h2]; exact le_rfl) h3

end Reporting

/-- In every clean run on a masked log the reported losses never exceed the losses
that happened, and consumer `c` has been told at most those. -/
theorem ReportSys.run_reported_once {epoch : ℕ} {cfg : LogConfig} {l : Log}
    (h : newLog epoch cfg = .ok l) (hm : cfg.masked = true) {c : ℕ} (hc : c < cfg.consumers.length)
    {ops : List LogOp}
    (hclean : StateRuns.Along (step c) (fun t op => t.sys.CleanReport c op) (start l) ops) :
    ((run c l ops).sys.log.con c).reportedLost ≤ ((run c l ops).sys.log.con c).lostTotal ∧
      (run c l ops).told ≤ ((run c l ops).sys.log.con c).lostTotal := by
  have hstart : Reporting c (start l) ∧ (start l).sys.DenseClear c := by
    obtain ⟨hlen, hcon⟩ := Log.newLog_con h
    have hcl : c < (start l).sys.log.consumers.length := by
      rw [show (start l).sys.log = l from rfl, hlen]
      exact hc
    refine ⟨⟨LogSys.sound_start h, (Log.newLog_eq h).1.trans hm, hcl, ?_, ?_⟩,
      by simp [LogSys.DenseClear, start, LogSys.start]⟩
    · rw [show (start l).sys.log = l from rfl, hcon c hc]
      rfl
    · rw [show (start l).sys.log = l from rfl, hcon c hc]
      rfl
  have hrun : Reporting c (run c l ops) ∧ (run c l ops).sys.DenseClear c := by
    refine StateRuns.run_invariant (P := fun t => Reporting c t ∧ t.sys.DenseClear c) ?_ hstart hclean
    intro t op ht hop
    exact ⟨ht.1.step ht.2 hop, ht.2.step hop⟩
  have htold := hrun.1.told_eq
  have howed := hrun.1.owed_le
  omega

/-- Two records for consumer 0, the first evicted by the second, and a sparse read
from offset 1 up to its snapshot. -/
def lossyRead : List LogOp :=
  [.append [0, 0, 0, 0] .client 1, .append [0, 0, 0, 0] .client 1, .readCall ⟨0, 1, 8, 0, true⟩,
    .readSnapshot 0]

theorem ReportSys.run_reported_once_sample :
    (run 0 LogSys.sampleLog (lossyRead ++ [.readAdvance 0, .readAdvance 0, .readComplete 0])).told ≤
      ((run 0 LogSys.sampleLog
        (lossyRead ++ [.readAdvance 0, .readAdvance 0, .readComplete 0])).sys.log.con 0).lostTotal :=
  (run_reported_once LogSys.sampleLog_eq rfl (by decide) (by decide)).2

/-- A `Resume` between the two locked steps of that read tells the one loss twice. -/
theorem ReportSys.resume_inside_read_reports_twice :
    let t := run 0 LogSys.sampleLog
      (lossyRead ++ [.resume 0 7 1, .readAdvance 0, .readAdvance 0, .readComplete 0])
    ¬ ((t.sys.log.con 0).reportedLost ≤ (t.sys.log.con 0).lostTotal) ∧
      ¬ (t.told ≤ (t.sys.log.con 0).lostTotal) := by
  decide

end MonsterMQ.PeerLink
