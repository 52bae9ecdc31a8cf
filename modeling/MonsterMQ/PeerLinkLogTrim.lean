import MonsterMQ.PeerLinkLogRepresentation

/-!
# Nothing is trimmed too early

A consumer position passes a held record that still carries its bit only because that consumer named a
larger offset, and `lso` passes a record only by evicting it or because every consumer position has passed
it.
-/

namespace MonsterMQ.PeerLink

open LittleEndian

namespace LogSys

variable {s : LogSys}

/-- What an accepted append does, with `lso₁` the bound after skipping and trimming
and `k` evictions after it. -/
structure AppendView (s s' : LogSys) (mask : Mask) (lso₁ k : ℕ) : Prop where
  lso_le : s.log.lso ≤ lso₁
  lso : s'.log.lso = lso₁ + k
  kept : k = 0 ∨ lso₁ + k ≤ s.log.leo
  leo : s'.log.leo = s.log.leo + 1
  marks : s'.marks = s.marks ++ [mask]
  evicted : s'.evicted = s.evicted ∪ Finset.Ico lso₁ (lso₁ + k)
  reads : s'.reads = s.reads
  trimmed : ∀ c < s.log.consumers.length, lso₁ = s.log.lso ∨
    lso₁ ≤ (if s.log.masked then Log.skipCaughtUp s.log.leo mask c (s.log.con c)
      else s.log.con c).committed
  con : ∀ c < s.log.consumers.length, s'.log.con c =
    Log.evictCharges s.log.masked (s.marks ++ [mask]) k lso₁ c
      (if s.log.masked then Log.skipCaughtUp s.log.leo mask c (s.log.con c) else s.log.con c)

structure Still (s s' : LogSys) : Prop where
  lso : s'.log.lso = s.log.lso
  leo : s'.log.leo = s.log.leo
  consumers : s'.log.consumers = s.log.consumers
  marks : s'.marks = s.marks
  evicted : s'.evicted = s.evicted
  reads : s'.reads = s.reads

theorem Still.con {s' : LogSys} (e : Still s s') (c : ℕ) : s'.log.con c = s.log.con c := by
  simp only [Log.con, e.consumers]

theorem Sound.invariant (h : Sound s) (hne : s.log.consumers ≠ []) :
    Log.LogInvariant s.log s.frames s.marks := by
  rcases h.valid with hv | hv
  · exact hv
  · exact absurd hv.consumers_eq hne

theorem Sound.append_view (h : Sound s) (hne : s.log.consumers ≠ []) (frame : Bytes) (kind : LogKind)
    (mask : Mask) : Still s (s.stepAppend frame kind mask).1 ∨
      ∃ lso₁ k, AppendView s (s.stepAppend frame kind mask).1 mask lso₁ k := by
  have hv := h.invariant hne
  unfold stepAppend
  generalize hr : s.log.appendMask frame kind mask = r
  obtain ⟨l, off, clear⟩ := r
  cases off with
  | none =>
    left
    have hoff : (s.log.appendMask frame kind mask).2.1 = none := by rw [hr]
    obtain ⟨a, b, d, h1, -⟩ := Log.appendMask_rejected hoff
    rw [hr] at h1
    simp only at h1
    subst h1
    exact ⟨rfl, rfl, rfl, rfl, rfl, rfl⟩
  | some off =>
    right
    have hoff : (s.log.appendMask frame kind mask).2.1 = some off := by rw [hr]
    obtain ⟨-, ⟨k, e⟩, -⟩ := hv.appendMask hoff
    rw [hr] at e
    simp only at e
    refine ⟨max s.log.lso (s.log.skipAll s.log.leo mask).minCommitted, k, ?_⟩
    have hlso := e.lso
    have hcount := e.count
    refine ⟨le_max_left _ _, hlso, ?_, e.leo, rfl, ?_, rfl, ?_, fun c hc => e.con hc⟩
    · rw [← hlso]
      exact e.kept
    · have hev : evictedBetween s.log l = Finset.Ico
          (max s.log.lso (s.log.skipAll s.log.leo mask).minCommitted)
          (max s.log.lso (s.log.skipAll s.log.leo mask).minCommitted + k) := by
        unfold evictedBetween
        rw [hcount, hlso]
        congr 1
        omega
      rw [← hev]
    · intro c hc
      have hlen : c < (s.log.skipAll s.log.leo mask).consumers.length := by
        rw [Log.skipAll_consumers]
        split <;> simpa using hc
      have hle := Log.minCommitted_le _ hlen
      have hcon : (s.log.skipAll s.log.leo mask).con c =
          if s.log.masked then Log.skipCaughtUp s.log.leo mask c (s.log.con c) else s.log.con c := by
        rw [Log.con_eq_getElem _ hlen, Log.con_eq_getElem _ hc]
        simp only [Log.skipAll_consumers]
        split <;> simp
      rw [hcon] at hle
      omega

private theorem skipCaughtUp_committed_le (off : ℕ) (mask : Mask) (c : ℕ) (con : LogConsumer) :
    con.committed ≤ (Log.skipCaughtUp off mask c con).committed := by
  unfold Log.skipCaughtUp
  split
  · rename_i h
    simp only
    omega
  · exact le_rfl

/-- Below `lso` a record was evicted or every position has passed it. -/
def Trimmed (s : LogSys) : Prop :=
  ∀ x, 1 ≤ x → x < s.log.lso → x ∈ s.evicted ∨
    ∀ c < s.log.consumers.length, x < (s.log.con c).committed

/-- Consumer `c` itself asked for a position above `x`. -/
def Named (s : LogSys) (op : LogOp) (c x : ℕ) : Prop :=
  (∃ off, op = .commit c off ∧ x < off) ∨ (∃ off, op = .resume c s.log.epoch off ∧ x < off)

/-- No held record that carries bit `c` after the step is passed, unless `c` named a
larger offset. -/
def PassesNothing (s s' : LogSys) (op : LogOp) (c : ℕ) : Prop :=
  ∀ x, (s.log.con c).committed ≤ x → x < (s'.log.con c).committed → x ∉ s.evicted →
    hasBit (Log.markAt s'.marks x) c = true → Named s op c x

/-- Positions and bounds over one step that is not an append. -/
structure MoveView (s s' : LogSys) (op : LogOp) : Prop where
  leo : s'.log.leo = s.log.leo
  evicted : s'.evicted = s.evicted
  length : s'.log.consumers.length = s.log.consumers.length
  con : ∀ c < s.log.consumers.length, PassesNothing s s' op c ∧
    (s.log.con c).committed ≤ (s'.log.con c).committed ∧ s.log.lso ≤ s'.log.lso ∧
    (s'.log.lso = s.log.lso ∨ s'.log.lso ≤ (s'.log.con c).committed)

theorem committed_congr {l l' : Log}
    (hcons : l'.consumers.map LogConsumer.committed = l.consumers.map LogConsumer.committed) {c : ℕ}
    (hc : c < l.consumers.length) : (l'.con c).committed = (l.con c).committed := by
  have hlen : l'.consumers.length = l.consumers.length := by
    simpa using congrArg List.length hcons
  rw [Log.con_eq_getElem _ (hlen ▸ hc), Log.con_eq_getElem _ hc]
  have h1 : (l'.consumers.map LogConsumer.committed)[c]? =
      (l.consumers.map LogConsumer.committed)[c]? := by rw [hcons]
  simpa [hc, hlen] using h1

theorem moveView_of_committed {s' : LogSys} (op : LogOp) (hleo : s'.log.leo = s.log.leo)
    (hlso : s'.log.lso = s.log.lso) (hev : s'.evicted = s.evicted)
    (hcons : s'.log.consumers.map LogConsumer.committed = s.log.consumers.map LogConsumer.committed) :
    MoveView s s' op := by
  have hlen : s'.log.consumers.length = s.log.consumers.length := by
    simpa using congrArg List.length hcons
  refine ⟨hleo, hev, hlen, fun c hc => ?_⟩
  have hcom := committed_congr hcons hc
  exact ⟨fun x h1 h2 => absurd h2 (by omega), hcom.ge, hlso.ge, Or.inl hlso⟩

theorem Still.moveView {s' : LogSys} (e : Still s s') (op : LogOp) : MoveView s s' op :=
  moveView_of_committed op e.leo e.lso e.evicted (by rw [e.consumers])

theorem updCon_map_committed (l : Log) (c : ℕ) {f : LogConsumer → LogConsumer}
    (hf : ∀ con, (f con).committed = con.committed) :
    (l.updCon c f).consumers.map LogConsumer.committed = l.consumers.map LogConsumer.committed := by
  refine List.ext_getElem (by simp) ?_
  intro d h1 h2
  simp only [Log.updCon, List.getElem_map, List.getElem_modify]
  split
  · exact hf _
  · rfl

theorem skipTo_clean {l : Log} {frames : List Bytes} {marks : List Mask}
    (hv : Log.LogInvariant l frames marks) {c start x y : ℕ} (hskip : Log.SkipTo l c start y)
    (hx : start ≤ x) (hxy : x < y) (hlso : l.lso ≤ x) : hasBit (Log.markAt marks x) c = false := by
  rcases hskip with rfl | ⟨hm, -, hleo, hbits⟩
  · omega
  · rw [← hv.marked.maskAtLocked_eq hv.stored.geometry hm hlso (by omega)]
    exact hbits x (by omega) hxy

theorem Trimmed.lso_le (ht : Trimmed s) {c x : ℕ} (hc : c < s.log.consumers.length) (h1 : 1 ≤ x)
    (hx : (s.log.con c).committed ≤ x) (hev : x ∉ s.evicted) : s.log.lso ≤ x := by
  by_contra hlt
  rcases ht x h1 (by omega) with h | h
  · exact hev h
  · have := h c hc
    omega

theorem moveView_of_shifts {s' : LogSys} {l₁ : Log} {P : ℕ → ℕ → Prop} (op : LogOp)
    (hshift : Log.Shifts P l₁ s'.log) (hcons : l₁.consumers = s.log.consumers)
    (hlso : l₁.lso = s.log.lso) (hleo : l₁.leo = s.log.leo) (hev : s'.evicted = s.evicted)
    (hP : ∀ c < s.log.consumers.length, ∀ y, P c y → (s.log.con c).committed ≤ y ∧
      ∀ x, (s.log.con c).committed ≤ x → x < y → x ∉ s.evicted →
        hasBit (Log.markAt s'.marks x) c = true → Named s op c x) : MoveView s s' op := by
  refine ⟨hshift.fields.2.1.trans hleo, hev, by rw [hshift.length_eq, hcons], fun c hc => ?_⟩
  obtain ⟨y, hy, hPy, h1, h2⟩ := hshift.con (d := c) (by rw [hcons]; exact hc)
  obtain ⟨h3, h4⟩ := hP c hc y hPy
  have hcom : (s'.log.con c).committed = y := by rw [hy]
  rw [hlso] at h1 h2
  refine ⟨?_, by rw [hcom]; exact h3, h1, by rw [hcom]; exact h2⟩
  intro x hx1 hx2
  rw [hcom] at hx2
  exact h4 x hx1 hx2

/-- A change of the consumers outside of `committed` does not show in the view. -/
theorem MoveView.congr {s₁ s₂ : LogSys} {op : LogOp} (e : MoveView s s₁ op)
    (hleo : s₂.log.leo = s₁.log.leo) (hlso : s₂.log.lso = s₁.log.lso)
    (hev : s₂.evicted = s₁.evicted) (hmarks : s₂.marks = s₁.marks)
    (hcons : s₂.log.consumers.map LogConsumer.committed =
      s₁.log.consumers.map LogConsumer.committed) : MoveView s s₂ op := by
  have hlen : s₂.log.consumers.length = s₁.log.consumers.length := by
    simpa using congrArg List.length hcons
  refine ⟨hleo.trans e.leo, hev.trans e.evicted, hlen.trans e.length, fun c hc => ?_⟩
  have hcom := committed_congr hcons (c := c) (by rw [e.length]; exact hc)
  have hcon := e.con c hc
  unfold PassesNothing at hcon ⊢
  rw [hcom, hlso, hmarks]
  exact hcon

theorem observe_map_committed (l : Log) (c : ℕ) : (l.observeLocked c).consumers.map LogConsumer.committed =
      l.consumers.map LogConsumer.committed :=
  updCon_map_committed l c (Log.observe_committed l.lso)

/-- An append passes no record that carries the bit: the only one it can pass is the
new one. -/
theorem AppendView.passesNothing {s' : LogSys} {mask : Mask} {lso₁ k : ℕ}
    (e : AppendView s s' mask lso₁ k) (op : LogOp) {c : ℕ} (hc : c < s.log.consumers.length)
    (hleo : s.log.leo = s.marks.length + 1) : PassesNothing s s' op c := by
  intro x h1 h2 _ h4
  rw [e.con c hc, Log.evictCharges_committed] at h2
  rw [e.marks] at h4
  split at h2
  · unfold Log.skipCaughtUp at h2
    split at h2
    · rename_i hskip
      simp only at h2
      have hx : x = s.marks.length + 1 := by omega
      rw [Log.markAt_append_self mask hx, hskip.2] at h4
      cases h4
    · omega
  · omega

section Moves
variable (h : Sound s) (ht : Trimmed s)
include h ht

theorem moveView_commit (hne : s.log.consumers ≠ []) (c off : ℕ) :
    MoveView s (s.stepCommit c off).1 (.commit c off) := by
  have hv := h.invariant hne
  unfold stepCommit
  generalize hr : s.log.commit c off = r
  cases r with
  | error e => exact moveView_of_committed _ rfl rfl rfl rfl
  | ok r =>
    obtain ⟨l, clear⟩ := r
    obtain ⟨-, -, -, hshift, -⟩ := hv.commit hr
    change MoveView s (s.after l clear) _
    refine moveView_of_shifts _ hshift rfl rfl rfl rfl ?_
    intro d hd y hP
    have hp := hv.position d hd
    unfold Log.OnlyMoves at hP
    split at hP
    · rename_i hdc
      subst hdc
      split at hP
      · subst hP
        exact ⟨le_rfl, fun x h1 h2 => absurd h2 (by omega)⟩
      · have hle := hP.le
        refine ⟨by omega, fun x h1 h2 h3 h4 => ?_⟩
        by_cases hxo : x < off
        · exact Or.inl ⟨off, rfl, hxo⟩
        · have hlso := ht.lso_le hd (hp.one_le.trans h1) h1 h3
          have := skipTo_clean hv hP (by omega) h2 hlso
          rw [show (s.after l clear).marks = s.marks from rfl, this] at h4
          cases h4
    · subst hP
      exact ⟨le_rfl, fun x h1 h2 => absurd h2 (by omega)⟩

section

variable (hne : s.log.consumers ≠ [])
include hne

omit ht in
theorem moveView_resume (c lastEpoch off : ℕ) :
    MoveView s (s.stepResume c lastEpoch off).1 (.resume c lastEpoch off) := by
  have hv := h.invariant hne
  unfold stepResume
  generalize hr : s.log.resume c lastEpoch off = r
  cases r with
  | error e => exact moveView_of_committed _ rfl rfl rfl rfl
  | ok r =>
    obtain ⟨l, res, clear⟩ := r
    change MoveView s (s.after l clear) _
    unfold Log.resume at hr
    split at hr
    · cases hr
    rename_i hc
    simp only at hr
    split at hr
    · rename_i hep
      subst hep
      generalize heq : (if off = 0 then 1 else off) = o at hr
      split at hr
      · cases hr
      rename_i hoff
      simp only [Except.ok.injEq] at hr
      obtain ⟨-, hshift, -⟩ := hv.resumeCommit (c := c) (by omega) (not_lt.mp hoff)
      have hview : MoveView s (s.after (s.log.resumeCommit c o).1 clear)
          (.resume c s.log.epoch off) := by
        refine moveView_of_shifts _ hshift rfl rfl rfl rfl ?_
        intro d hd y hP
        have hp := hv.position d hd
        unfold Log.OnlyMoves at hP
        split at hP
        · rename_i hdc
          subst hdc
          refine ⟨by omega, fun x h1 h2 _ _ => Or.inr ⟨off, rfl, ?_⟩⟩
          have := hp.one_le
          split at heq <;> omega
        · subst hP
          exact ⟨le_rfl, fun x h1 h2 => absurd h2 (by omega)⟩
      have hobs := observe_map_committed (s.log.resumeCommit c o).1 c
      have hrep := updCon_map_committed ((s.log.resumeCommit c o).1.observeLocked c) c
        (f := fun con => { con with reportedLost := con.lostTotal }) (fun _ => rfl)
      unfold Log.resumeSameEpoch at hr
      simp only at hr
      split at hr
      · cases hr
        exact hview.congr rfl rfl rfl rfl hobs
      split at hr
      · cases hr
        exact hview.congr rfl rfl rfl rfl (hrep.trans hobs)
      · cases hr
        exact hview.congr rfl rfl rfl rfl hobs
    · have hobs := observe_map_committed s.log c
      have hrep := updCon_map_committed (s.log.observeLocked c) c
        (f := fun con => { con with reportedLost := con.lostTotal }) (fun _ => rfl)
      simp only [Except.ok.injEq] at hr
      unfold Log.resumeOtherEpoch at hr
      simp only at hr
      split at hr
      · cases hr
        exact moveView_of_committed _ rfl rfl rfl (hrep.trans hobs)
      split at hr
      · cases hr
        exact moveView_of_committed _ rfl rfl rfl hobs
      · cases hr
        exact moveView_of_committed _ rfl rfl rfl hobs

private theorem moveView_advanceSkipped : MoveView s (s.step .advanceSkipped) .advanceSkipped := by
  have hv := h.invariant hne
  obtain ⟨-, hshift, -⟩ := hv.advanceSkipped
  change MoveView s (s.after s.log.advanceSkipped.1 s.log.advanceSkipped.2) _
  refine moveView_of_shifts _ hshift rfl rfl rfl rfl ?_
  intro d hd y hP
  refine ⟨hP.le, fun x h1 h2 h3 h4 => ?_⟩
  have hlso := ht.lso_le hd ((hv.position d hd).one_le.trans h1) h1 h3
  have := skipTo_clean hv hP h1 h2 hlso
  rw [show (s.after s.log.advanceSkipped.1 s.log.advanceSkipped.2).marks = s.marks from rfl,
    this] at h4
  cases h4

theorem moveView_clearBits (c start : ℕ) (drop : Bytes → Bool) :
    MoveView s (s.stepClearBits c start drop) (.clearConsumerBits c start drop) := by
  have hv := h.invariant hne
  unfold stepClearBits
  by_cases hg : s.log.masked = true ∧ c < s.log.consumers.length
  · have hmarks : (s.log.masked && decide (c < s.log.consumers.length)) = true := by simp [hg]
    obtain ⟨e, hv₁, -, hshift, -⟩ := hv.clearConsumerBits start drop hg.1 hg.2
    have hcons := e.field Log.consumers (fun _ => rfl)
    have hlso := e.field Log.lso (fun _ => rfl)
    have hleo := e.field Log.leo (fun _ => rfl)
    simp only [hmarks, if_true]
    refine moveView_of_shifts _ hshift hcons hlso hleo rfl ?_
    intro d hd y hP
    have hcon : (s.log.sweepBits c start drop).1.con d = s.log.con d := by
      simp only [Log.con, hcons]
    unfold Log.OnlyMoves at hP
    split at hP
    · rename_i hdc
      subst hdc
      rw [hcon] at hP
      refine ⟨hP.le, fun x h1 h2 h3 h4 => ?_⟩
      have hle := ht.lso_le hd ((hv.position d hd).one_le.trans h1) h1 h3
      have := skipTo_clean hv₁ hP h1 h2 (hlso.trans_le hle)
      rw [this] at h4
      cases h4
    · rw [hcon] at hP
      subst hP
      exact ⟨le_rfl, fun x h1 h2 => absurd h2 (by omega)⟩
  · have hguard : (!s.log.masked || decide (c ≥ s.log.consumers.length)) = true := by
      simpa [imp_iff_not_or] using hg
    simp only [Log.clearConsumerBits, hguard, if_true]
    exact moveView_of_committed _ rfl rfl rfl rfl

theorem moveView_step (op : LogOp)
    (hop : ∀ frame kind mask, op ≠ .append frame kind mask) : MoveView s (s.step op) op := by
  cases op with
  | append frame kind mask => exact absurd rfl (hop frame kind mask)
  | commit c off => exact moveView_commit h ht hne c off
  | resume c lastEpoch off => exact moveView_resume h hne c lastEpoch off
  | advanceSkipped => exact moveView_advanceSkipped h ht hne
  | clearConsumerBits c start drop => exact moveView_clearBits h ht hne c start drop
  | markServed c upTo =>
    change MoveView s { s with log := s.log.markServed c upTo } _
    unfold Log.markServed
    split
    · exact moveView_of_committed _ rfl rfl rfl rfl
    · exact moveView_of_committed _ rfl rfl rfl (updCon_map_committed _ _ (fun _ => rfl))
  | setConsumerState c st =>
    change MoveView s { s with log := s.log.setConsumerState c st } _
    unfold Log.setConsumerState
    split
    · exact moveView_of_committed _ rfl rfl rfl rfl
    · exact moveView_of_committed _ rfl rfl rfl (updCon_map_committed _ _ (fun _ => rfl))
  | observeConsumer c =>
    change MoveView s { s with log := s.log.observeConsumer c } _
    unfold Log.observeConsumer
    split
    · exact moveView_of_committed _ rfl rfl rfl rfl
    · exact moveView_of_committed _ rfl rfl rfl (observe_map_committed _ _)
  | sealLog => exact moveView_of_committed _ rfl rfl rfl rfl
  | clearSlot k =>
    change MoveView s (s.stepClearSlot k) _
    unfold stepClearSlot
    split
    · exact moveView_of_committed _ rfl rfl rfl rfl
    · split
      · exact moveView_of_committed _ rfl rfl rfl rfl
      · exact moveView_of_committed _ rfl rfl rfl rfl
  | readCall call =>
    change MoveView s (s.stepReadCall call).1 _
    unfold stepReadCall
    split <;> exact moveView_of_committed _ rfl rfl rfl rfl
  | readSnapshot k =>
    change MoveView s (s.stepReadSnapshot k).1 _
    unfold stepReadSnapshot
    split
    · split
      · exact moveView_of_committed _ rfl rfl rfl rfl
      · rename_i l scan hr
        obtain ⟨-, -, heq⟩ := Log.readSnapshot_eq hr
        simp only at heq
        subst heq
        exact moveView_of_committed _ rfl rfl rfl
          (updCon_map_committed _ _ (Log.observe_committed s.log.lso))
    · exact moveView_of_committed _ rfl rfl rfl rfl
  | readAdvance k =>
    change MoveView s (s.stepReadAdvance k) _
    unfold stepReadAdvance
    split <;> exact moveView_of_committed _ rfl rfl rfl rfl
  | readComplete k =>
    change MoveView s (s.stepReadComplete k).1 _
    unfold stepReadComplete
    split
    · split
      · exact moveView_of_committed _ rfl rfl rfl rfl
      · simp only
        split <;> exact moveView_of_committed _ rfl rfl rfl (updCon_map_committed _ _ (fun _ => rfl))
    · exact moveView_of_committed _ rfl rfl rfl rfl

end

theorem Trimmed.step (op : LogOp) : Trimmed (s.step op) := by
  by_cases hne : s.log.consumers = []
  · intro x _ _
    right
    have hlen : (s.step op).log.consumers = [] := by
      rw [← List.length_eq_zero_iff, (h.step op).2.length_eq, hne]
      rfl
    simp [hlen]
  intro x h1 hx
  rw [(h.step op).2.length_eq]
  by_cases hop : ∃ frame kind mask, op = .append frame kind mask
  · obtain ⟨frame, kind, mask, rfl⟩ := hop
    change x < (s.stepAppend frame kind mask).1.log.lso at hx
    change x ∈ (s.stepAppend frame kind mask).1.evicted ∨ ∀ c < s.log.consumers.length,
      x < ((s.stepAppend frame kind mask).1.log.con c).committed
    rcases h.append_view hne frame kind mask with e | ⟨lso₁, k, e⟩
    · rw [e.evicted]
      simp only [e.con]
      exact ht x h1 (by rw [← e.lso]; exact hx)
    · rw [e.lso] at hx
      rw [e.evicted]
      by_cases hge : lso₁ ≤ x
      · left
        exact Finset.mem_union_right _ (Finset.mem_Ico.mpr ⟨hge, hx⟩)
      have hpos : ∀ c < s.log.consumers.length, (s.log.con c).committed ≤
          ((s.stepAppend frame kind mask).1.log.con c).committed ∧ (lso₁ = s.log.lso ∨
            lso₁ ≤ ((s.stepAppend frame kind mask).1.log.con c).committed) := by
        intro c hc
        have htrim := e.trimmed c hc
        rw [e.con c hc, Log.evictCharges_committed]
        refine ⟨?_, htrim⟩
        split
        · exact skipCaughtUp_committed_le _ _ _ _
        · exact le_rfl
      by_cases hlt : x < s.log.lso
      · rcases ht x h1 hlt with hev | hall
        · exact Or.inl (Finset.mem_union_left _ hev)
        · exact Or.inr (fun c hc => (hall c hc).trans_le (hpos c hc).1)
      · refine Or.inr (fun c hc => ?_)
        have := (hpos c hc).2
        omega
  · have e := moveView_step h ht hne op (by intro f kd m heq; exact hop ⟨f, kd, m, heq⟩)
    rw [e.evicted]
    by_cases hlt : x < s.log.lso
    · rcases ht x h1 hlt with hev | hall
      · exact Or.inl hev
      · exact Or.inr (fun c hc => (hall c hc).trans_le (e.con c hc).2.1)
    · refine Or.inr (fun c hc => ?_)
      have := (e.con c hc).2.2.2
      omega

end Moves

structure Tracked (s : LogSys) : Prop where
  sound : Sound s
  trimmed : Trimmed s
  evicted_lt : ∀ x ∈ s.evicted, 1 ≤ x ∧ x < s.log.lso

theorem Tracked.step (h : Tracked s) (hne : s.log.consumers ≠ []) (op : LogOp) : Tracked (s.step op) := by
  obtain ⟨hs, he⟩ := h.sound.step op
  refine ⟨hs, h.trimmed.step h.sound op, ?_⟩
  intro x hx
  have hlso := he.lso_le
  by_cases hop : ∃ frame kind mask, op = .append frame kind mask
  · obtain ⟨frame, kind, mask, rfl⟩ := hop
    have hone := (h.sound.invariant hne).stored.geometry.one_le_lso
    rcases h.sound.append_view hne frame kind mask with e | ⟨lso₁, k, e⟩
    · have := h.evicted_lt x (e.evicted ▸ hx)
      omega
    · have hx' : x ∈ s.evicted ∪ Finset.Ico lso₁ (lso₁ + k) := e.evicted ▸ hx
      rcases Finset.mem_union.mp hx' with hx' | hx'
      · have := h.evicted_lt x hx'
        omega
      · have h1 := Finset.mem_Ico.mp hx'
        have h2 := e.lso_le
        have h3 : (s.step (.append frame kind mask)).log.lso = lso₁ + k := e.lso
        omega
  · have e := moveView_step h.sound h.trimmed hne op (fun f kd m heq => hop ⟨f, kd, m, heq⟩)
    have := h.evicted_lt x (e.evicted ▸ hx)
    omega

theorem Tracked.evicted_sub (h : Tracked s) (hne : s.log.consumers ≠ []) (op : LogOp) :
    s.evicted ⊆ (s.step op).evicted := by
  by_cases hop : ∃ frame kind mask, op = .append frame kind mask
  · obtain ⟨frame, kind, mask, rfl⟩ := hop
    rcases h.sound.append_view hne frame kind mask with e | ⟨lso₁, k, e⟩
    · exact e.evicted.ge
    · exact fun x hx => e.evicted ▸ Finset.mem_union_left _ hx
  · exact (moveView_step h.sound h.trimmed hne op
      (fun f kd m heq => hop ⟨f, kd, m, heq⟩)).evicted.ge

theorem trimmed_start {epoch : ℕ} {cfg : LogConfig} {l : Log} (h : newLog epoch cfg = .ok l) :
    Trimmed (start l) := by
  intro x h1 hx
  rcases Log.newLog_valid h with hv | hv
  · have hlso : l.lso = 1 := by
      have h1 := hv.stored.geometry.one_le_lso
      have h2 := hv.stored.geometry.lso_le_leo
      have h3 := hv.stored.contents.leo_eq
      simp only [List.length_nil] at h3
      omega
    have hx' : x < l.lso := hx
    omega
  · right
    have hnil : (start l).log.consumers = [] := hv.consumers_eq
    simp [hnil]

theorem tracked_start {epoch : ℕ} {cfg : LogConfig} {l : Log} (h : newLog epoch cfg = .ok l) :
    Tracked (start l) :=
  ⟨sound_start h, trimmed_start h, by simp [start]⟩

private theorem trimmed_run {epoch : ℕ} {cfg : LogConfig} {l : Log} (h : newLog epoch cfg = .ok l)
    (ops : List LogOp) : Sound (run l ops) ∧ Trimmed (run l ops) := by
  refine StateRuns.run_always (P := fun s => Sound s ∧ Trimmed s) ?_
    ⟨sound_start h, trimmed_start h⟩ ops
  exact fun s op hs => ⟨(hs.1.step op).1, hs.2.step hs.1 op⟩

/-- After any run and over any further step: a position passes a held record that
still carries its bit only if its consumer named a larger offset, and every record
a consumer still needs is held with the frame appended for it. -/
theorem run_no_premature_trim {epoch : ℕ} {cfg : LogConfig} {l : Log} (h : newLog epoch cfg = .ok l)
    (ops : List LogOp) (op : LogOp) : let s := run l ops
    let s' := s.step op
    (s.log.masked = true → ∀ x, s.log.lso ≤ x → x < s.log.leo →
      s.log.maskAtLocked x = Log.markAt s.marks x) ∧
    ∀ c < s.log.consumers.length,
      (∀ x, (s.log.con c).committed ≤ x → x < (s'.log.con c).committed → x ∉ s.evicted →
        hasBit (Log.markAt s'.marks x) c = true →
        (∃ off, op = .commit c off ∧ x < off) ∨
          (∃ off, op = .resume c s.log.epoch off ∧ x < off)) ∧
      (∀ x, (s.log.con c).committed ≤ x → x < s.log.leo → hasBit (Log.markAt s.marks x) c = true →
        x ∉ s.evicted → s.log.lso ≤ x ∧ ∃ f, s.frames[x - 1]? = some f ∧ s.log.frameAt x = some f) := by
  intro s s'
  obtain ⟨hs, ht⟩ : Sound s ∧ Trimmed s := trimmed_run h ops
  refine ⟨?_, fun c hc => ?_⟩
  · intro hm x hlo hhi
    rcases hs.valid with hv | hv
    · exact hv.marked.maskAtLocked_eq hv.stored.geometry hm hlo hhi
    · have := hv.lso_eq
      omega
  have hne : s.log.consumers ≠ [] := fun h0 => by simp [h0] at hc
  have hv := hs.invariant hne
  have hone := (hv.position c hc).one_le
  refine ⟨?_, ?_⟩
  · by_cases hop : ∃ frame kind mask, op = .append frame kind mask
    · obtain ⟨frame, kind, mask, rfl⟩ := hop
      rcases hs.append_view hne frame kind mask with e | ⟨lso₁, k, e⟩
      · exact ((e.moveView _).con c hc).1
      · exact e.passesNothing _ hc hv.marked.leo_eq
    · exact ((moveView_step hs ht hne op
        (fun f kd m heq => hop ⟨f, kd, m, heq⟩)).con c hc).1
  · intro x h1 h2 _ hev
    have hlso := ht.lso_le hc (hone.trans h1) h1 hev
    have hlt : x - 1 < s.frames.length := by
      have := hv.stored.contents.leo_eq
      omega
    refine ⟨hlso, s.frames[x - 1], List.getElem?_eq_getElem hlt, ?_⟩
    rw [Log.frameAt_eq hv.stored.geometry hv.stored.contents hlso h2]
    exact List.getElem?_eq_getElem hlt

theorem run_no_premature_trim_sample : (run sampleLog [.append [0, 0, 0, 0] .client 1]).log.lso ≤ 1 ∧
      ∃ f, (run sampleLog [.append [0, 0, 0, 0] .client 1]).log.frameAt 1 = some f := by
  obtain ⟨h1, f, -, h2⟩ := ((run_no_premature_trim sampleLog_eq [.append [0, 0, 0, 0] .client 1]
    .advanceSkipped).2 0 (by decide)).2 1 (by decide) (by decide) (by decide) (by decide)
  exact ⟨h1, f, h2⟩

end LogSys

end MonsterMQ.PeerLink
