import Mathlib.Data.Finset.Card
import MonsterMQ.PeerLinkLossReported

/-!
# Loss accounting of an unmasked log

On an unmasked log losses are charged by `observeLocked` alone, from the
watermarks it finds. `LossSys` records beside a run which offsets were below
`C[c]` or `S[c]` when the log looked, and which were charged; `Accounted` ties both
to `lostTotal`.
-/

namespace MonsterMQ.PeerLink

open LittleEndian

namespace LogSys

/-- The step observes consumer `c`: `ObserveConsumer`, a granted `Resume` or the
snapshot of a read. -/
@[grind =] def observes (c : ℕ) (s : LogSys) : LogOp → Bool
  | .observeConsumer d => d = c
  | .resume d lastEpoch off => d = c && (s.log.resume d lastEpoch off).isOk
  | .readSnapshot k =>
    match s.reads[k]? with
    | some ⟨call, _, .waiting⟩ => call.c = c && (s.log.readSnapshot call).isOk
    | _ => false
  | _ => false

/-- The step completes a read of consumer `c`, for good or for a retry. -/
def completes (c : ℕ) (s : LogSys) : LogOp → Bool
  | .readComplete k =>
    match s.reads[k]? with
    | some ⟨call, _, .scanning scan⟩ => call.c = c && !scan.running
    | _ => false
  | _ => false

end LogSys

/-- A run, the offsets found below a watermark of `c` before they were charged, and
the offsets charged. -/
structure LossSys where
  sys : LogSys
  covered : Finset ℕ
  lost : Finset ℕ

namespace LossSys

@[grind =] def start (l : Log) : LossSys := ⟨LogSys.start l, ∅, ∅⟩

def below (l : Log) (c : ℕ) : Finset ℕ := Finset.range (max (l.con c).committed (l.con c).served)

/-- At an observation and at a completion the offsets below the watermarks are noted;
an observation with no read open judges every evicted offset not noted by then. -/
@[grind =] def step (c : ℕ) (t : LossSys) (op : LogOp) : LossSys :=
  let s := t.sys.step op
  let looks := t.sys.observes c op || t.sys.completes c op
  let covered := if looks then t.covered ∪ (below s.log c \ t.lost) else t.covered
  ⟨s, covered, if t.sys.observes c op && (t.sys.log.con c).reading = 0 then
    t.lost ∪ (s.evicted \ covered) else t.lost⟩

def run (c : ℕ) (l : Log) (ops : List LogOp) : LossSys := StateRuns.run (step c) (start l) ops

end LossSys

/-- The accounting fields over a step that does not look at the consumer. -/
structure Unseen (con con' : LogConsumer) : Prop where
  acct : con'.acctNext = con.acctNext
  lost : con'.lostTotal = con.lostTotal
  committed_le : con.committed ≤ con'.committed
  served_le : con.served ≤ con'.served

/-- The accounting fields over a step that observes the consumer once its position
has become `C`. -/
structure Seen (lso : ℕ) (con con' : LogConsumer) : Prop where
  acct : con'.acctNext = (Log.observe lso { con with committed := con'.committed }).acctNext
  lost : con'.lostTotal = (Log.observe lso { con with committed := con'.committed }).lostTotal
  committed_le : con.committed ≤ con'.committed
  served : con'.served = con.served

namespace Unseen

theorem refl (con : LogConsumer) : Unseen con con := ⟨rfl, rfl, le_rfl, le_rfl⟩

theorem of_eq {con con' : LogConsumer} (h : con' = con) : Unseen con con' := h ▸ refl con

theorem updCon (l : Log) (c : ℕ) {f : LogConsumer → LogConsumer} {d : ℕ}
    (hf : d = c → Unseen (l.con d) (f (l.con d))) (hd : d < l.consumers.length) :
    Unseen (l.con d) ((l.updCon c f).con d) := by
  by_cases hdc : d = c
  · have := hf hdc
    subst hdc
    rw [Log.con_updCon_self l f hd]
    exact this
  · rw [Log.con_updCon_of_ne l f hdc]
    exact refl _

theorem shifts {P : ℕ → ℕ → Prop} {l l' : Log} (h : Log.Shifts P l l') {d : ℕ}
    (hd : d < l.consumers.length) (hP : ∀ y, P d y → (l.con d).committed ≤ y) :
    Unseen (l.con d) (l'.con d) := by
  obtain ⟨y, hy, hPy, -⟩ := h.con hd
  rw [hy]
  exact ⟨rfl, rfl, hP y hPy, le_rfl⟩

end Unseen

section Step
variable {s : LogSys} {c : ℕ}
open LogSys

theorem onlyMoves_committed_le {l : Log} {e : ℕ} {P : ℕ → Prop} {d y : ℕ}
    (h : Log.OnlyMoves l e P d y) (hP : d = e → P y → (l.con d).committed ≤ y) : (l.con d).committed ≤ y := by
  unfold Log.OnlyMoves at h
  split at h
  · rename_i hde
    exact hP hde h
  · exact h.ge

private theorem unseen_commit (h : Sound s) (hc : c < s.log.consumers.length) (d off : ℕ) :
    Unseen (s.log.con c) ((s.step (.commit d off)).log.con c) := by
  have hv := h.invariant (fun h0 => by simp [h0] at hc)
  simp only [step, stepOut, stepCommit]
  generalize hr : s.log.commit d off = r
  cases r with
  | error e => exact Unseen.refl _
  | ok r =>
    obtain ⟨-, -, -, hshift, -⟩ := hv.commit hr
    refine Unseen.shifts hshift hc (fun y hy => onlyMoves_committed_le hy ?_)
    rintro rfl hP
    split at hP
    · exact hP.ge
    · have := hP.le
      omega

theorem unseen_clearBits (h : Sound s) (hc : c < s.log.consumers.length) (d start : ℕ) (drop : Bytes → Bool) :
    Unseen (s.log.con c) ((s.step (.clearConsumerBits d start drop)).log.con c) := by
  have hv := h.invariant (fun h0 => by simp [h0] at hc)
  change Unseen _ ((s.log.clearConsumerBits d start drop).1.con c)
  by_cases hg : s.log.masked = true ∧ d < s.log.consumers.length
  · obtain ⟨e, -, -, hshift, -⟩ := hv.clearConsumerBits start drop hg.1 hg.2
    have hcons := e.field Log.consumers (fun _ => rfl)
    have hcon : (s.log.sweepBits d start drop).1.con c = s.log.con c := by
      simp only [Log.con, hcons]
    rw [← hcon]
    refine Unseen.shifts hshift (by rw [hcons]; exact hc) (fun y hy => onlyMoves_committed_le hy ?_)
    rintro rfl hP
    exact hP.le
  · have hguard : (!s.log.masked || decide (d ≥ s.log.consumers.length)) = true := by
      simpa [imp_iff_not_or] using hg
    simp only [Log.clearConsumerBits, hguard, if_true]
    exact Unseen.refl _

/-- A resume that leaves consumer `c` unobserved: it failed or names another one. -/
theorem unseen_resume (h : Sound s) (hc : c < s.log.consumers.length) {d lastEpoch off : ℕ}
    (hobs : s.observes c (.resume d lastEpoch off) = false) :
    Unseen (s.log.con c) ((s.step (.resume d lastEpoch off)).log.con c) := by
  have hv := h.invariant (fun h0 => by simp [h0] at hc)
  simp only [step, stepOut, stepResume]
  cases hr : s.log.resume d lastEpoch off with
  | error e => exact Unseen.refl _
  | ok r =>
    have hcd : c ≠ d := by
      rintro rfl
      simp [observes, hr, Except.isOk, Except.toBool] at hobs
    exact Unseen.of_eq (hv.resume_con_of_ne hcd hc hr)

private theorem unseen_readSnapshot (hc : c < s.log.consumers.length) {k : ℕ}
    (hobs : s.observes c (.readSnapshot k) = false) :
    Unseen (s.log.con c) ((s.step (.readSnapshot k)).log.con c) := by
  simp only [step, stepOut, stepReadSnapshot]
  split
  · rename_i call attempt hk
    split
    · exact Unseen.refl _
    · rename_i l scan hr
      have hcc : c ≠ call.c := by
        rintro rfl
        simp [observes, hk, hr, Except.isOk, Except.toBool] at hobs
      obtain ⟨-, -, heq⟩ := Log.readSnapshot_eq hr
      simp only at heq
      rw [heq]
      exact Unseen.updCon _ _ (fun h => absurd h hcc) hc
  · exact Unseen.refl _

theorem unseen_readComplete (hc : c < s.log.consumers.length) (k : ℕ) :
    Unseen (s.log.con c) ((s.step (.readComplete k)).log.con c) := by
  simp only [step, stepOut, stepReadComplete]
  split
  · rename_i call attempt scan hk
    split
    · exact Unseen.refl _
    have key : Unseen (s.log.con c) ((s.log.readComplete call scan).con c) := by
      refine Unseen.updCon _ _ (fun _ => ?_) hc
      exact ⟨rfl, rfl, le_rfl, le_max_left _ _⟩
    split
    · exact key
    · exact key
  · exact Unseen.refl _

theorem unseen_step (h : Sound s) (hm : s.log.masked = false) (hc : c < s.log.consumers.length)
    (op : LogOp) (hobs : s.observes c op = false) : Unseen (s.log.con c) ((s.step op).log.con c) := by
  have hne : s.log.consumers ≠ [] := fun h0 => by simp [h0] at hc
  have hv := h.invariant hne
  cases op with
  | append frame kind mask =>
    rcases h.append_view hne frame kind mask with e | ⟨lso₁, k, e⟩
    · exact Unseen.of_eq (e.con c)
    · refine Unseen.of_eq ((e.con c hc).trans ?_)
      simp [hm, Log.evictCharges]
  | commit d off => exact unseen_commit h hc d off
  | resume d lastEpoch off => exact unseen_resume h hc hobs
  | advanceSkipped =>
    exact Unseen.shifts hv.advanceSkipped.2.1 hc (fun y hy => hy.le)
  | clearConsumerBits d start drop => exact unseen_clearBits h hc d start drop
  | markServed d upTo =>
    change Unseen _ ((s.log.markServed d upTo).con c)
    unfold Log.markServed
    split
    · exact Unseen.refl _
    · refine Unseen.updCon _ _ (fun _ => ?_) hc
      exact ⟨rfl, rfl, le_rfl, le_max_left _ _⟩
  | setConsumerState d st =>
    change Unseen _ ((s.log.setConsumerState d st).con c)
    unfold Log.setConsumerState
    split
    · exact Unseen.refl _
    · refine Unseen.updCon _ _ (fun _ => ?_) hc
      exact ⟨rfl, rfl, le_rfl, le_rfl⟩
  | observeConsumer d =>
    have hdc : c ≠ d := by
      rintro rfl
      simp [observes] at hobs
    change Unseen _ ((s.log.observeConsumer d).con c)
    unfold Log.observeConsumer
    split
    · exact Unseen.refl _
    · exact Unseen.updCon _ _ (fun h => absurd h hdc) hc
  | sealLog => exact Unseen.refl _
  | clearSlot k =>
    simp only [step, stepOut, stepClearSlot]
    split
    · exact Unseen.refl _
    · split <;> exact Unseen.refl _
  | readCall call =>
    simp only [step, stepOut, stepReadCall]
    split <;> exact Unseen.refl _
  | readSnapshot k => exact unseen_readSnapshot hc hobs
  | readAdvance k =>
    simp only [step, stepOut, stepReadAdvance]
    split <;> exact Unseen.refl _
  | readComplete k => exact unseen_readComplete hc k

theorem Seen.observe (lso : ℕ) (con : LogConsumer) : Seen lso con (Log.observe lso con) := by
  have hcom := Log.observe_committed lso con
  refine ⟨?_, ?_, hcom.ge, ?_⟩
  · rw [hcom]
  · rw [hcom]
  · unfold Log.observe
    split
    · rfl
    · simp only
      split <;> rfl

theorem Seen.after_move {lso : ℕ} {con con₁ con' : LogConsumer} {y : ℕ}
    (hcon₁ : con₁ = { con with committed := y }) (hy : con.committed ≤ y) (h : Seen lso con₁ con')
    (hcom : con'.committed = con₁.committed) : Seen lso con con' := by
  subst hcon₁
  obtain ⟨h1, h2, -, h4⟩ := h
  refine ⟨h1, h2, ?_, h4⟩
  rw [hcom]
  exact hy

theorem seen_resume (h : Sound s) (hc : c < s.log.consumers.length) {lastEpoch off : ℕ}
    {r : Log × Log.Resume × Option ClearReq} (hr : s.log.resume c lastEpoch off = .ok r) :
    Seen r.1.lso (s.log.con c) (r.1.con c) := by
  have hv := h.invariant (fun h0 => by simp [h0] at hc)
  have hmark : ∀ l : Log, c < l.consumers.length → ∀ con, Seen l.lso con (l.con c) →
      Seen l.lso con ((l.markReported c).con c) := by
    intro l hl con hs
    rw [Log.markReported, Log.con_updCon_self _ _ hl]
    exact ⟨hs.1, hs.2, hs.3, hs.4⟩
  unfold Log.resume at hr
  split at hr
  · cases hr
  simp only at hr
  split at hr
  · generalize (if off = 0 then 1 else off) = o at hr
    split at hr
    · cases hr
    rename_i hoff
    cases hr
    obtain ⟨-, hshift, -⟩ := hv.resumeCommit hc (not_lt.mp hoff)
    obtain ⟨y, hy, hPy, -⟩ := hshift.con hc
    simp only [Log.OnlyMoves, if_true] at hPy
    have hc₁ : c < (s.log.resumeCommit c o).1.consumers.length := by
      rw [hshift.length_eq]
      exact hc
    have hobs : Seen (s.log.resumeCommit c o).1.lso (s.log.con c)
        (((s.log.resumeCommit c o).1.observeLocked c).con c) := by
      rw [Log.observeLocked, Log.con_updCon_self _ _ hc₁]
      exact Seen.after_move hy (by omega) (Seen.observe _ _) (Log.observe_committed _ _)
    unfold Log.resumeSameEpoch
    simp only
    split
    · exact hobs
    split
    · exact hmark ((s.log.resumeCommit c o).1.observeLocked c)
        (by simpa [Log.observeLocked] using hc₁) _ hobs
    · exact hobs
  · cases hr
    have hobs : Seen s.log.lso (s.log.con c) ((s.log.observeLocked c).con c) := by
      rw [Log.observeLocked, Log.con_updCon_self _ _ hc]
      exact Seen.observe _ _
    unfold Log.resumeOtherEpoch
    simp only
    split
    · exact hmark (s.log.observeLocked c) (by simpa [Log.observeLocked] using hc) _ hobs
    split
    · exact hobs
    · exact hobs

theorem seen_step (h : Sound s) (hc : c < s.log.consumers.length) (op : LogOp)
    (hobs : s.observes c op = true) : Seen (s.step op).log.lso (s.log.con c) ((s.step op).log.con c) := by
  cases op with
  | observeConsumer d =>
    simp only [observes, decide_eq_true_eq] at hobs
    subst hobs
    change Seen (s.log.observeConsumer d).lso _ ((s.log.observeConsumer d).con d)
    rw [Log.observeConsumer, if_neg (by omega), Log.observeLocked, Log.con_updCon_self _ _ hc]
    exact Seen.observe _ _
  | resume d lastEpoch off =>
    simp only [observes, Bool.and_eq_true, decide_eq_true_eq] at hobs
    obtain ⟨rfl, hok⟩ := hobs
    cases hr : s.log.resume d lastEpoch off with
    | error e => simp [hr, Except.isOk, Except.toBool] at hok
    | ok r =>
      have := seen_resume h hc hr
      simp only [step, stepOut, stepResume, hr]
      exact this
  | readSnapshot k =>
    simp only [observes] at hobs
    split at hobs
    · rename_i call attempt hk
      simp only [Bool.and_eq_true, decide_eq_true_eq] at hobs
      obtain ⟨rfl, hok⟩ := hobs
      cases hr : s.log.readSnapshot call with
      | error e => simp [hr, Except.isOk, Except.toBool] at hok
      | ok r =>
        obtain ⟨-, -, heq⟩ := Log.readSnapshot_eq hr
        simp only [step, stepOut, stepReadSnapshot, hk, hr]
        rw [heq, Log.con_updCon_self _ _ hc]
        obtain ⟨h1, h2, h3, h4⟩ := Seen.observe s.log.lso (s.log.con call.c)
        exact ⟨h1, h2, h3, h4⟩
    · cases hobs
  | _ => cases hobs

end Step

theorem Seen.unseen {lso : ℕ} {con con' : LogConsumer}
    (h : Seen lso con con') (hread : con.reading ≠ 0) : Unseen con con' := by
  have hopen : con.reading > 0 := Nat.pos_of_ne_zero hread
  have hobs : Log.observe lso { con with committed := con'.committed } =
      { con with committed := con'.committed } := by
    rw [Log.observe, if_pos hopen]
  refine ⟨?_, ?_, h.committed_le, h.served.ge⟩
  · rw [h.acct, hobs]
  · rw [h.lost, hobs]

/-- With no read open an observation charges from `a`, the highest watermark, to `lso`. -/
theorem Seen.charge {lso : ℕ} {con con' : LogConsumer} (h : Seen lso con con') (hread : con.reading = 0) :
    let a := max (max con.acctNext con'.committed) con'.served
    con'.acctNext = max a lso ∧ con'.lostTotal = con.lostTotal + (lso - a) := by
  intro a
  have ha : a = max (max con.acctNext con'.committed) con.served := by rw [← h.served]
  have hzero : ¬ con.reading > 0 := by omega
  have h1 := h.acct
  have h2 := h.lost
  simp only [Log.observe, hzero, if_false] at h1 h2
  rw [← ha] at h1 h2
  split at h1
  · rename_i hlt
    rw [if_pos hlt] at h2
    simp only at h1 h2
    refine ⟨?_, h2⟩
    rw [h1, max_eq_right hlt.le]
  · rename_i hge
    rw [if_neg hge] at h2
    simp only at h1 h2
    refine ⟨?_, ?_⟩
    · rw [h1, max_eq_left (by omega)]
    · rw [h2]
      omega

/-- Every offset below `acctNext` has been found covered or has been charged, and
`lostTotal` counts the charged ones. -/
structure Accounted (c : ℕ) (t : LossSys) : Prop where
  tracked : t.sys.Tracked
  unmasked : t.sys.log.masked = false
  c_lt : c < t.sys.log.consumers.length
  covered_sub : t.covered ⊆ LossSys.below t.sys.log c
  disjoint : Disjoint t.covered t.lost
  lost_sub : ∀ x ∈ t.lost, x ∈ t.sys.evicted ∧ x < (t.sys.log.con c).acctNext
  judged : ∀ x, 1 ≤ x → x < (t.sys.log.con c).acctNext → x ∈ t.covered ∨ x ∈ t.lost
  total : (t.sys.log.con c).lostTotal = t.lost.card

namespace Accounted

variable {c : ℕ} {t : LossSys}

theorem mem_below {l : Log} {c x : ℕ} :
    x ∈ LossSys.below l c ↔ x < (l.con c).committed ∨ x < (l.con c).served := by
  simp [LossSys.below]

theorem start {epoch : ℕ} {cfg : LogConfig} {l : Log} (h : newLog epoch cfg = .ok l)
    (hm : cfg.masked = false) (hc : c < cfg.consumers.length) : Accounted c (LossSys.start l) := by
  obtain ⟨hlen, hcon⟩ := Log.newLog_con h
  have hcon' : (LossSys.start l).sys.log.con c = newLogConsumer (cfg.consumers.getD c "") := hcon c hc
  refine ⟨LogSys.tracked_start h, (Log.newLog_eq h).1.trans hm, hlen ▸ hc, by simp [LossSys.start],
    by simp [LossSys.start], by simp [LossSys.start], ?_, ?_⟩
  · intro x h1 hx
    rw [hcon'] at hx
    simp only [newLogConsumer] at hx
    omega
  · rw [hcon']
    rfl

section

variable (h : Accounted c t)
include h

theorem keep {op : LogOp} {covered : Finset ℕ} (hcon : Unseen (t.sys.log.con c) ((t.sys.step op).log.con c))
    (hcov : covered = t.covered ∨ covered = t.covered ∪
      (LossSys.below (t.sys.step op).log c \ t.lost)) :
    Accounted c ⟨t.sys.step op, covered, t.lost⟩ := by
  have hne : t.sys.log.consumers ≠ [] := fun h0 => by have := h.c_lt; simp [h0] at this
  have htr := h.tracked.step hne op
  have he := (h.tracked.sound.step op).2
  have hsub : t.covered ⊆ covered := by
    rcases hcov with rfl | rfl
    · exact subset_rfl
    · exact Finset.subset_union_left
  have hmono : LossSys.below t.sys.log c ⊆ LossSys.below (t.sys.step op).log c := by
    intro x hx
    have h1 := hcon.committed_le
    have h2 := hcon.served_le
    rw [mem_below] at hx ⊢
    omega
  refine ⟨htr, he.masked.trans h.unmasked, by rw [he.length_eq]; exact h.c_lt, ?_, ?_, ?_, ?_, ?_⟩
  · rcases hcov with rfl | rfl
    · exact h.covered_sub.trans hmono
    · exact Finset.union_subset (h.covered_sub.trans hmono) Finset.sdiff_subset
  · rcases hcov with rfl | rfl
    · exact h.disjoint
    · exact Finset.disjoint_union_left.mpr ⟨h.disjoint, Finset.sdiff_disjoint⟩
  · intro x hx
    obtain ⟨h1, h2⟩ := h.lost_sub x hx
    exact ⟨h.tracked.evicted_sub hne op h1, by simp only [hcon.acct]; exact h2⟩
  · intro x h1 hx
    simp only [hcon.acct] at hx
    exact (h.judged x h1 hx).imp_left (fun hx => hsub hx)
  · simp only [hcon.lost]
    exact h.total

/-- The offsets an observation judges lost are those between the watermarks and `lso`. -/
theorem judge_eq {op : LogOp}
    (hcon : Seen (t.sys.step op).log.lso (t.sys.log.con c) ((t.sys.step op).log.con c)) :
    t.lost ∪ ((t.sys.step op).evicted \
        (t.covered ∪ (LossSys.below (t.sys.step op).log c \ t.lost))) =
      t.lost ∪ Finset.Ico (max (max (t.sys.log.con c).acctNext
        ((t.sys.step op).log.con c).committed) ((t.sys.step op).log.con c).served)
        (t.sys.step op).log.lso := by
  have hne : t.sys.log.consumers ≠ [] := fun h0 => by have := h.c_lt; simp [h0] at this
  have htr := h.tracked.step hne op
  have he := (h.tracked.sound.step op).2
  have hc' : c < (t.sys.step op).log.consumers.length := by rw [he.length_eq]; exact h.c_lt
  have hone := ((h.tracked.sound.invariant hne).position c h.c_lt).one_le
  have hcom := hcon.committed_le
  have hser := hcon.served
  ext x
  simp only [Finset.mem_union, Finset.mem_sdiff, Finset.mem_Ico, mem_below, not_or]
  constructor
  · rintro (hx | ⟨hx, hncov, hnbelow⟩)
    · exact Or.inl hx
    by_cases hlost : x ∈ t.lost
    · exact Or.inl hlost
    · right
      have hbelow : ¬ (x < ((t.sys.step op).log.con c).committed ∨
          x < ((t.sys.step op).log.con c).served) := fun hb => hnbelow ⟨hb, hlost⟩
      obtain ⟨h1, h2⟩ := htr.evicted_lt x hx
      have hacct : (t.sys.log.con c).acctNext ≤ x := by
        by_contra hlt
        rcases h.judged x h1 (by omega) with hcov | hlost'
        · exact hncov hcov
        · exact hlost hlost'
      omega
  · rintro (hx | ⟨hlo, hhi⟩)
    · exact Or.inl hx
    · right
      have hpos : 1 ≤ x := by omega
      refine ⟨?_, ?_, fun hb => by omega⟩
      · rcases htr.trimmed x hpos hhi with hev' | hall
        · exact hev'
        · have := hall c hc'
          omega
      · intro hcov
        have := (mem_below).mp (h.covered_sub hcov)
        omega

theorem judge {op : LogOp} (hev : (t.sys.step op).evicted = t.sys.evicted)
    (hcon : Seen (t.sys.step op).log.lso (t.sys.log.con c) ((t.sys.step op).log.con c))
    (hread : (t.sys.log.con c).reading = 0) :
    Accounted c ⟨t.sys.step op, t.covered ∪ (LossSys.below (t.sys.step op).log c \ t.lost),
      t.lost ∪ ((t.sys.step op).evicted \
        (t.covered ∪ (LossSys.below (t.sys.step op).log c \ t.lost)))⟩ := by
  have hne : t.sys.log.consumers ≠ [] := fun h0 => by have := h.c_lt; simp [h0] at this
  have htr := h.tracked.step hne op
  have he := (h.tracked.sound.step op).2
  obtain ⟨hacct, hlost⟩ := hcon.charge hread
  have hjudge := h.judge_eq hcon
  have hcom := hcon.committed_le
  have hser := hcon.served
  refine ⟨htr, he.masked.trans h.unmasked, by rw [he.length_eq]; exact h.c_lt, ?_, ?_, ?_, ?_, ?_⟩
  · refine Finset.union_subset ?_ Finset.sdiff_subset
    intro x hx
    have := (mem_below).mp (h.covered_sub hx)
    simp only [mem_below]
    omega
  · refine Finset.disjoint_union_right.mpr ⟨?_, Finset.disjoint_sdiff⟩
    exact Finset.disjoint_union_left.mpr ⟨h.disjoint, Finset.sdiff_disjoint⟩
  · intro x hx
    rcases Finset.mem_union.mp hx with hx' | hx'
    · obtain ⟨h1, h2⟩ := h.lost_sub x hx'
      refine ⟨by simp only [hev]; exact h1, ?_⟩
      simp only [hacct]
      omega
    · have hmem := (Finset.mem_sdiff.mp hx').1
      refine ⟨hmem, ?_⟩
      have := (htr.evicted_lt x hmem).2
      simp only [hacct]
      omega
  · intro x h1 hx
    simp only [hacct] at hx
    by_cases hl : x ∈ t.lost
    · exact Or.inr (Finset.mem_union_left _ hl)
    by_cases hold : x < (t.sys.log.con c).acctNext
    · exact Or.inl (Finset.mem_union_left _ ((h.judged x h1 hold).resolve_right hl))
    by_cases hb : x ∈ LossSys.below (t.sys.step op).log c
    · exact Or.inl (Finset.mem_union_right _ (Finset.mem_sdiff.mpr ⟨hb, hl⟩))
    · right
      rw [hjudge]
      rw [mem_below] at hb
      exact Finset.mem_union_right _ (Finset.mem_Ico.mpr (by omega))
  · rw [hjudge]
    have hdis : Disjoint t.lost (Finset.Ico (max (max (t.sys.log.con c).acctNext
        ((t.sys.step op).log.con c).committed) ((t.sys.step op).log.con c).served)
        (t.sys.step op).log.lso) := by
      rw [Finset.disjoint_left]
      intro x hx hx'
      have h1 := (h.lost_sub x hx).2
      have h2 := Finset.mem_Ico.mp hx'
      omega
    simp only [Finset.card_union_of_disjoint hdis, Nat.card_Ico, hlost, h.total]

theorem step (op : LogOp) : Accounted c (t.step c op) := by
  have hne : t.sys.log.consumers ≠ [] := fun h0 => by have := h.c_lt; simp [h0] at this
  cases hobs : t.sys.observes c op with
  | false =>
    have hcon := unseen_step h.tracked.sound h.unmasked h.c_lt op hobs
    have heq : t.step c op = ⟨t.sys.step op, if t.sys.completes c op then
        t.covered ∪ (LossSys.below (t.sys.step op).log c \ t.lost) else t.covered, t.lost⟩ := by
      simp [LossSys.step, hobs]
    rw [heq]
    refine h.keep hcon ?_
    split
    · exact Or.inr rfl
    · exact Or.inl rfl
  | true =>
    have hcon := seen_step h.tracked.sound h.c_lt op hobs
    have hev : (t.sys.step op).evicted = t.sys.evicted := by
      refine (LogSys.moveView_step h.tracked.sound h.tracked.trimmed hne op ?_).evicted
      rintro frame kind mask rfl
      cases hobs
    by_cases hread : (t.sys.log.con c).reading = 0
    · have heq : t.step c op = ⟨t.sys.step op,
          t.covered ∪ (LossSys.below (t.sys.step op).log c \ t.lost),
          t.lost ∪ ((t.sys.step op).evicted \
            (t.covered ∪ (LossSys.below (t.sys.step op).log c \ t.lost)))⟩ := by
        simp [LossSys.step, hobs, hread]
      rw [heq]
      exact h.judge hev hcon hread
    · have heq : t.step c op = ⟨t.sys.step op,
          t.covered ∪ (LossSys.below (t.sys.step op).log c \ t.lost), t.lost⟩ := by
        simp [LossSys.step, hobs, hread]
      rw [heq]
      exact h.keep (hcon.unseen hread) (Or.inr rfl)

theorem lost_eq {op : LogOp} (hobs : t.sys.observes c op = true) (hread : (t.sys.log.con c).reading = 0) :
    (t.step c op).lost = (t.step c op).sys.evicted.filter
      (fun x => x < (t.step c op).sys.log.lso ∧ x ∉ (t.step c op).covered) := by
  have h' := h.step op
  have hlost : (t.step c op).lost =
      t.lost ∪ ((t.step c op).sys.evicted \ (t.step c op).covered) := by
    simp [LossSys.step, hobs, hread]
  ext x
  rw [Finset.mem_filter]
  constructor
  · intro hx
    have hev := (h'.lost_sub x hx).1
    exact ⟨hev, (h'.tracked.evicted_lt x hev).2, Finset.disjoint_right.mp h'.disjoint hx⟩
  · rintro ⟨hev, -, hncov⟩
    rw [hlost]
    exact Finset.mem_union_right _ (Finset.mem_sdiff.mpr ⟨hev, hncov⟩)

end

theorem run {epoch : ℕ} {cfg : LogConfig} {l : Log} (h : newLog epoch cfg = .ok l)
    (hm : cfg.masked = false) (hc : c < cfg.consumers.length) (ops : List LogOp) :
    Accounted c (LossSys.run c l ops) :=
  StateRuns.run_always (fun _ op ht => ht.step op) (Accounted.start h hm hc) ops

end Accounted

end MonsterMQ.PeerLink
