import MonsterMQ.PeerLinkLossMasked

/-!
# Evictions while a read is open

The remaining steps of the masked loss account: an append with the evictions it causes, and the three parts
of a read.
-/

namespace MonsterMQ.PeerLink

open LittleEndian List

namespace Ledger

variable {c : ℕ} {t : NeedSys}

private theorem chargeRange_open (marks : List Mask) (k x : ℕ) {con : LogConsumer} (hread : con.reading ≠ 0) :
    Log.chargeRange marks k x c con = con := by
  induction k generalizing x with
  | zero => rfl
  | succ k ih =>
    rw [Log.chargeRange, Log.accountEvict, if_pos (Or.inl (Nat.pos_of_ne_zero hread))]
    exact ih (x + 1)

/-- With no read open, evictions from `x` on charge the records for `c` from
`accounted` on and leave nothing owed. -/
theorem chargeRange_closed (marks : List Mask) (k x : ℕ) {con : LogConsumer}
    (hread : con.reading = 0) (hx : k = 0 ∨ x ≤ con.accounted) : (Log.chargeRange marks k x c con).accounted =
        (if k = 0 then con.accounted else max con.accounted (x + k)) ∧
      (Log.chargeRange marks k x c con).committed = con.committed ∧
      (Log.chargeRange marks k x c con).lostTotal = con.lostTotal +
        ((Finset.Ico (max con.accounted x) (x + k)).filter
          (fun y => hasBit (Log.markAt marks y) c = true)).card := by
  induction k generalizing x con with
  | zero =>
    refine ⟨rfl, rfl, ?_⟩
    rw [Finset.Ico_eq_empty (by omega)]
    rfl
  | succ k ih =>
    have hle : x ≤ con.accounted := hx.resolve_left (Nat.succ_ne_zero k)
    rw [Log.chargeRange]
    by_cases hlt : x < con.accounted
    · have hskip : Log.accountEvict x (Log.markAt marks x) c con = con := by
        unfold Log.accountEvict
        exact if_pos (Or.inr hlt)
      obtain ⟨h1, h2, h3⟩ := ih (x + 1) hread (Or.inr hlt)
      rw [hskip]
      refine ⟨?_, h2, ?_⟩
      · rw [h1]
        simp only [Nat.succ_ne_zero, if_false]
        split <;> omega
      · rw [h3, max_eq_left hlt, max_eq_left hlt.le, show x + 1 + k = x + (k + 1) by omega]
    · have heq : con.accounted = x := by omega
      have hone : Log.accountEvict x (Log.markAt marks x) c con = { con with
          lostTotal := if hasBit (Log.markAt marks x) c then con.lostTotal + 1 else con.lostTotal
          acctNext := x + 1 } := by
        rw [Log.accountEvict, if_neg]
        rintro (h | h)
        · omega
        · exact hlt h
      have hacc : (Log.accountEvict x (Log.markAt marks x) c con).accounted = x + 1 := by
        rw [hone]
        simp only [LogConsumer.accounted] at heq ⊢
        omega
      obtain ⟨h1, h2, h3⟩ := ih (x + 1)
        (show (Log.accountEvict x (Log.markAt marks x) c con).reading = 0 by rw [hone]; exact hread)
        (Or.inr hacc.ge)
      refine ⟨?_, ?_, ?_⟩
      · rw [h1, hacc]
        simp only [Nat.succ_ne_zero, if_false]
        split <;> omega
      · rw [h2, hone]
      · have hcons : insert x (Finset.Ico (x + 1) (x + 1 + k)) = Finset.Ico x (x + (k + 1)) := by
          ext y
          simp only [Finset.mem_insert, Finset.mem_Ico]
          omega
        rw [h3, hacc, max_self, heq, max_self, hone, ← hcons, Finset.filter_insert]
        split
        · rw [Finset.card_insert_of_notMem (by simp)]
          simp only
          omega
        · rfl

private theorem reach_le_leo (h : Ledger c t) : t.sys.reach c ≤ t.sys.log.leo := by
  have hp := (h.tracked.sound.invariant h.ne_nil).position c h.c_lt
  by_contra hlt
  rcases (LogSys.lt_reach_iff).mp (not_le.mp hlt) with hx | ⟨scan, ⟨r, hr, -, hs⟩, hx⟩
  · have h1 := hp.committed_le
    have h2 := hp.served_le
    have h3 := hp.acct_le
    simp only [LogConsumer.accounted] at hx
    omega
  · have hok := (h.tracked.sound.reads r hr).scan scan hs
    have h1 := hok.end_le
    have h2 := hok.i_le
    omega

/-- What an append does to `c` before it evicts: it may skip the new record. -/
theorem skipCaughtUp_view (off : ℕ) (mask : Mask) (con : LogConsumer) :
    (Log.skipCaughtUp off mask c con).reading = con.reading ∧
      (Log.skipCaughtUp off mask c con).lostTotal = con.lostTotal ∧
      con.committed ≤ (Log.skipCaughtUp off mask c con).committed ∧
      (Log.skipCaughtUp off mask c con).accounted =
        max con.accounted (Log.skipCaughtUp off mask c con).committed ∧
      ((Log.skipCaughtUp off mask c con).committed = con.committed ∨
        con.committed = off ∧ (Log.skipCaughtUp off mask c con).committed = off + 1 ∧
          hasBit mask c = false) := by
  unfold Log.skipCaughtUp
  split
  · rename_i hcon
    refine ⟨rfl, rfl, by simp only; omega, ?_, Or.inr ⟨hcon.1, rfl, hcon.2⟩⟩
    simp only [LogConsumer.accounted]
    omega
  · refine ⟨rfl, rfl, le_rfl, ?_, Or.inl rfl⟩
    simp only [LogConsumer.accounted]
    omega

/-- The offsets an append evicts, and those of them `c` had still to get. -/
theorem dropped_eq (h : Ledger c t) {op : LogOp} {mask : Mask} {lso₁ k : ℕ}
    (e : LogSys.AppendView t.sys (t.sys.step op) mask lso₁ k) :
    (t.sys.step op).evicted \ t.sys.evicted = Finset.Ico lso₁ (lso₁ + k) ∧
      ∀ x, x ∈ t.dropped c op ↔ lso₁ ≤ x ∧ x < lso₁ + k ∧
        hasBit (Log.markAt t.sys.marks x) c = true ∧ t.committed ≤ x ∧ x ∉ t.returned := by
  have hev : (t.sys.step op).evicted \ t.sys.evicted = Finset.Ico lso₁ (lso₁ + k) := by
    rw [e.evicted, Finset.union_sdiff_left]
    refine Finset.sdiff_eq_self_of_disjoint ?_
    rw [Finset.disjoint_left]
    intro x hx hx'
    have h1 := Finset.mem_Ico.mp hx
    have h2 := h.tracked.evicted_lt x hx'
    have h3 := e.lso_le
    omega
  refine ⟨hev, fun x => ?_⟩
  have hgeo := (h.tracked.sound.invariant h.ne_nil).stored.geometry.one_le_lso
  have hleo := (h.tracked.sound.invariant h.ne_nil).marked.leo_eq
  simp only [NeedSys.dropped, hev, Finset.mem_filter, Finset.mem_Ico]
  constructor
  · rintro ⟨⟨h1, h2⟩, hbit, h3⟩
    have h4 := e.kept
    have h5 := e.lso_le
    rw [e.marks, Log.markAt_append_of_lt _ (by omega) (by omega)] at hbit
    exact ⟨h1, h2, hbit, h3⟩
  · rintro ⟨h1, h2, hbit, h3⟩
    have h4 := e.kept
    have h5 := e.lso_le
    refine ⟨⟨h1, h2⟩, ?_, h3⟩
    rw [e.marks, Log.markAt_append_of_lt _ (by omega) (by omega)]
    exact hbit

section Append
variable {op : LogOp} {frame : Bytes} {kind : LogKind} {mask : Mask} {lso₁ k : ℕ}

section

variable (h : Ledger c t)
include h

theorem below_reach (e : LogSys.AppendView t.sys (t.sys.step op) mask lso₁ k) {x : ℕ}
    (hx : x < max (t.sys.reach c) (Log.skipCaughtUp t.sys.log.leo mask c (t.sys.log.con c)).committed)
    (h1 : 1 ≤ x) (hbit : hasBit (Log.markAt (t.sys.step op).marks x) c = true) :
    x < t.sys.reach c ∧ x < t.sys.log.leo ∧ hasBit (Log.markAt t.sys.marks x) c = true := by
  have hleo := (h.tracked.sound.invariant h.ne_nil).marked.leo_eq
  have hreach := h.reach_le_leo
  have hacc := LogSys.accounted_le_reach t.sys c
  have hcom := (t.sys.log.con c).committed_le_accounted
  by_cases hlt : x < t.sys.log.leo
  · rw [e.marks, Log.markAt_append_of_lt _ h1 (by omega)] at hbit
    refine ⟨?_, hlt, hbit⟩
    rcases (skipCaughtUp_view (c := c) t.sys.log.leo mask (t.sys.log.con c)).2.2.2.2 with
      heq | ⟨heq, -, -⟩
    · omega
    · omega
  · rcases (skipCaughtUp_view (c := c) t.sys.log.leo mask (t.sys.log.con c)).2.2.2.2 with
      heq | ⟨-, heq, hno⟩
    · omega
    · have hxeq : x = t.sys.marks.length + 1 := by omega
      rw [e.marks, hxeq, Log.markAt] at hbit
      simp [hno] at hbit

/-- An append while a read of `c` is open: everything it evicts stays undecided. -/
theorem append_open (e : LogSys.AppendView t.sys (t.sys.step op) mask lso₁ k)
    (hop : t.sys.commits c op = 0 ∧ t.sys.returns c op = ∅)
    (hread : (t.sys.log.con c).reading ≠ 0) (hclean : ∀ x, lso₁ ≤ x → x < lso₁ + k → t.sys.reach c ≤ x →
      hasBit (Log.markAt t.sys.marks x) c = true) :
    Ledger c (t.step c op) := by
  have hv := h.tracked.sound.invariant h.ne_nil
  have hkeep := h.tracked.sound.step op
  obtain ⟨hev, hdrop⟩ := h.dropped_eq e
  obtain ⟨v1, v2, v3, v4, -⟩ := skipCaughtUp_view (c := c) t.sys.log.leo mask (t.sys.log.con c)
  have hcon := e.con c h.c_lt
  simp only [h.masked, if_true, Log.evictCharges, chargeRange_open _ _ _ (v1.trans_ne hread)] at hcon
  have htrim := e.trimmed c h.c_lt
  simp only [h.masked, if_true] at htrim
  have hacc : ((t.sys.step op).log.con c).accounted = max (t.sys.log.con c).accounted
        (Log.skipCaughtUp t.sys.log.leo mask c (t.sys.log.con c)).committed := by rw [hcon, v4]
  have hreach : (t.sys.step op).reach c =
      max (t.sys.reach c) (Log.skipCaughtUp t.sys.log.leo mask c (t.sys.log.con c)).committed := by
    refine eq_of_forall_lt_iff (fun x => ?_)
    rw [lt_max_iff, LogSys.lt_reach_iff, LogSys.lt_reach_iff, hacc, lt_max_iff, e.reads]
    exact or_right_comm
  have hover : ∀ x, (t.sys.step op).overlapped c x = t.sys.overlapped c x := by
    intro x
    simp only [LogSys.overlapped, e.reads]
  have hread' : ((t.sys.step op).log.con c).reading ≠ 0 := by
    rw [hcon, v1]
    exact hread
  have hlso := e.lso_le
  have hlso' := e.lso
  have hone := hv.stored.geometry.one_le_lso
  have hle := LogSys.accounted_le_reach t.sys c
  have hcom := (t.sys.log.con c).committed_le_accounted
  have hK := h.committed_le
  have hmark : ∀ x ∈ t.pending ∪ t.dropped c op, 1 ≤ x ∧
      x < lso₁ + k ∧ hasBit (Log.markAt (t.sys.step op).marks x) c = true ∧
      t.sys.overlapped c x = true := by
    intro x hx
    rcases Finset.mem_union.mp hx with hx | hx
    · obtain ⟨h1, h2, h3, h4⟩ := h.pending_ok x hx
      have := hv.stored.geometry.lso_le_leo
      have := hv.marked.leo_eq
      refine ⟨h1, by omega, ?_, h4⟩
      rw [e.marks, Log.markAt_append_of_lt _ h1 (by omega)]
      exact h3
    · have hbit := (Finset.mem_filter.mp hx).2.1
      obtain ⟨h1, h2, -⟩ := (hdrop x).mp hx
      exact ⟨by omega, h2, hbit, h.tracked.sound.overlapped_of_le h.c_lt hread (Or.inr (by omega))⟩
  have hstep : t.step c op = ⟨t.sys.step op, t.committed,
      t.returned, t.pending ∪ t.dropped c op, t.lost⟩ := by
    have h1 : (t.pending ∪ t.dropped c op).filter
        (fun x => t.sys.overlapped c x = true) = t.pending ∪ t.dropped c op :=
      Finset.filter_true_of_mem (fun x hx => (hmark x hx).2.2.2)
    have h2 : (t.pending ∪ t.dropped c op).filter
        (fun x => t.sys.overlapped c x = false ∧ t.committed ≤ x ∧ x ∉ t.returned) = ∅ := by
      refine Finset.filter_false_of_mem (fun x hx hn => ?_)
      rw [(hmark x hx).2.2.2] at hn
      exact absurd hn.1 (by simp)
    simp only [NeedSys.step, hop.1, hop.2, Finset.union_empty, Nat.max_zero, hover,
      h1, h2]
  rw [hstep]
  refine ⟨h.tracked.step h.ne_nil _, hkeep.2.masked.trans h.masked,
    by rw [hkeep.2.length_eq]; exact h.c_lt, ?_, ?_, ?_, ?_, ?_, ?_, fun hn => absurd hn hread', ?_,
    ?_, ?_⟩
  · intro scan hs
    simp only [e.reads] at hs
    have hold := h.scans scan hs
    refine ⟨fun x h1 h2 hbit => hold.taken x h1 h2 ?_, hold.lt⟩
    have h3 := LogSys.scan_le_reach hs
    obtain ⟨-, -, h4⟩ := h.tracked.sound.scanOk hs
    exact (h.below_reach e (by omega) (by omega) hbit).2.2
  · simp only [hcon]
    omega
  · intro x hx
    have := h.returned_lt x hx
    simp only
    omega
  · intro x h1 hx hbit hwhere
    simp only at hx hbit
    rw [hreach] at hx
    obtain ⟨h2, h3, h4⟩ := h.below_reach e hx h1 hbit
    have hoff : (t.sys.step op).Offered c x ↔ t.sys.Offered c x := by
      simp only [LogSys.Offered, e.reads]
    simp only [hoff]
    refine h.spared x h1 h2 h4 ?_
    rcases hwhere with ⟨h5, -⟩ | hp
    · simp only at h5
      exact Or.inl ⟨by omega, h3⟩
    · rcases Finset.mem_union.mp hp with hp | hp
      · exact Or.inr hp
      · obtain ⟨h5, -⟩ := (hdrop x).mp hp
        exact Or.inl ⟨by omega, h3⟩
  · intro x hx
    obtain ⟨h1, h2, h3, h4⟩ := hmark x hx
    exact ⟨h1, by simp only; omega, h3, by rw [hover]; exact h4⟩
  · intro _ x hx hx'
    simp only at hx hx'
    rw [hreach] at hx
    by_cases hold : x < t.sys.log.lso
    · exact Finset.mem_union_left _ (h.owed_open hread x (by omega) hold)
    · -- a trimmed offset lies below `C[c]`, so `x` was evicted
      have hge : lso₁ ≤ x := by omega
      refine Finset.mem_union_right _ ((hdrop x).mpr ⟨hge, by omega, hclean x hge (by omega) (by omega),
        by omega, ?_⟩)
      intro hret
      have := h.returned_lt x hret
      omega
  · intro x hx
    have := h.lost_lt x hx
    simp only
    omega
  · intro _ x hx
    have := h.lost_open hread x hx
    simp only
    omega
  · simp only [hacc]
    rw [hcon, v2, h.total]
    congr 1
    refine Finset.filter_congr (fun x hx => ?_)
    have := h.lost_open hread x hx
    omega

private theorem pending_empty (hread : (t.sys.log.con c).reading = 0) : t.pending = ∅ := by
  refine Finset.eq_empty_of_forall_notMem (fun x hx => ?_)
  exact h.tracked.sound.reading_ne h.c_lt (h.pending_ok x hx).2.2.2 hread

/-- With no read open, what an append drops for `c` is what it charges to `c`. -/
theorem dropped_charged (e : LogSys.AppendView t.sys (t.sys.step op) mask lso₁ k)
    (hread : (t.sys.log.con c).reading = 0) : t.dropped c op = (Finset.Ico
      (max (Log.skipCaughtUp t.sys.log.leo mask c (t.sys.log.con c)).accounted lso₁) (lso₁ + k)).filter
        (fun y => hasBit (Log.markAt (t.sys.marks ++ [mask]) y) c = true) := by
  obtain ⟨-, hdrop⟩ := h.dropped_eq e
  obtain ⟨-, -, v3, v4, v5⟩ := skipCaughtUp_view (c := c) t.sys.log.leo mask (t.sys.log.con c)
  have hv := h.tracked.sound.invariant h.ne_nil
  have hone := hv.stored.geometry.one_le_lso
  have hleo := hv.marked.leo_eq
  have hlso := e.lso_le
  have hkept := e.kept
  have hK := h.committed_le
  have hreach := h.tracked.sound.reach_eq h.c_lt hread
  have hcom := (t.sys.log.con c).committed_le_accounted
  ext x
  rw [hdrop, Finset.mem_filter, Finset.mem_Ico]
  constructor
  · rintro ⟨h1, h2, hbit, h3, h4⟩
    refine ⟨⟨?_, h2⟩, ?_⟩
    · by_contra hlt
      have hacc : x < (t.sys.log.con c).accounted := by omega
      rcases h.spared x (by omega) (by omega) hbit (Or.inl ⟨by omega, by omega⟩) with
        h5 | h5 | ⟨scan, h5, -⟩
      · omega
      · exact h4 h5
      · exact (h.tracked.sound.openScan_iff h.c_lt).mpr ⟨scan, h5⟩ hread
    · rw [Log.markAt_append_of_lt _ (by omega) (by omega)]
      exact hbit
  · rintro ⟨⟨h1, h2⟩, hbit⟩
    rw [Log.markAt_append_of_lt _ (by omega) (by omega)] at hbit
    refine ⟨by omega, h2, hbit, by omega, ?_⟩
    intro hret
    have := h.returned_lt x hret
    omega

/-- An append with no read of `c` open charges at once. -/
theorem append_closed (e : LogSys.AppendView t.sys (t.sys.step op) mask lso₁ k)
    (hop : t.sys.commits c op = 0 ∧ t.sys.returns c op = ∅)
    (hread : (t.sys.log.con c).reading = 0) (hclean : k = 0 ∨ t.sys.log.lso ≤ t.sys.reach c) :
    Ledger c (t.step c op) := by
  have hv := h.tracked.sound.invariant h.ne_nil
  have hkeep := h.tracked.sound.step op
  have hc' : c < (t.sys.step op).log.consumers.length := by
    rw [hkeep.2.length_eq]
    exact h.c_lt
  have hcharged := h.dropped_charged e hread
  obtain ⟨-, hdrop⟩ := h.dropped_eq e
  obtain ⟨v1, v2, v3, v4, v5⟩ := skipCaughtUp_view (c := c) t.sys.log.leo mask (t.sys.log.con c)
  have hreach := h.tracked.sound.reach_eq h.c_lt hread
  have htrim := e.trimmed c h.c_lt
  simp only [h.masked, if_true] at htrim
  have hlso := e.lso_le
  have hlso' := e.lso
  have hfrom : k = 0 ∨ lso₁ ≤ (Log.skipCaughtUp t.sys.log.leo mask c (t.sys.log.con c)).accounted := by
    omega
  have hcon := e.con c h.c_lt
  simp only [h.masked, if_true, Log.evictCharges] at hcon
  obtain ⟨hacc, hcom', htotal⟩ := chargeRange_closed (c := c) (t.sys.marks ++ [mask]) k lso₁
    (v1.trans hread) hfrom
  rw [← hcon] at hacc hcom' htotal
  rw [← hcharged] at htotal
  have hread' : ((t.sys.step op).log.con c).reading = 0 := by
    rw [hcon, show Log.chargeRange (t.sys.marks ++ [mask]) k lso₁ c _ = Log.evictCharges true
      (t.sys.marks ++ [mask]) k lso₁ c _ from rfl, Log.evictCharges_reading, v1, hread]
  have hreach' := hkeep.1.reach_eq hc' hread'
  have hover : ∀ x, (t.sys.step op).overlapped c x = false := by
    intro x
    by_contra hn
    exact hkeep.1.reading_ne hc' (by simpa using hn) hread'
  have hcom := (t.sys.log.con c).committed_le_accounted
  have hK := h.committed_le
  have hstep : t.step c op = ⟨t.sys.step op, t.committed, t.returned, ∅, t.lost ∪ t.dropped c op⟩ := by
    have h1 : (t.dropped c op).filter (fun x => t.committed ≤ x ∧ x ∉ t.returned) = t.dropped c op :=
      Finset.filter_true_of_mem (fun x hx => ((hdrop x).mp hx).2.2.2)
    simp only [NeedSys.step, hop.1, hop.2, Finset.union_empty, Nat.max_zero, hover,
      h.pending_empty hread, Finset.empty_union, Bool.false_eq_true, Finset.filter_false, true_and,
      h1]
  have hlost : ∀ x ∈ t.lost ∪ t.dropped c op, x < lso₁ + k ∧
      (x ∈ t.lost ∧ x < t.sys.log.lso ∨ x ∉ t.lost ∧ lso₁ ≤ x) := by
    intro x hx
    by_cases hl : x ∈ t.lost
    · have := h.lost_lt x hl
      exact ⟨by omega, Or.inl ⟨hl, this⟩⟩
    · obtain ⟨h1, h2, -⟩ := (hdrop x).mp ((Finset.mem_union.mp hx).resolve_left hl)
      exact ⟨h2, Or.inr ⟨hl, h1⟩⟩
  rw [hstep]
  refine ⟨h.tracked.step h.ne_nil _, hkeep.2.masked.trans h.masked, hc', ?_, ?_, ?_, ?_, by simp,
    fun hn => absurd hread' hn, ?_, ?_, fun hn => absurd hread' hn, ?_⟩
  · intro scan hs
    exact absurd hread' ((hkeep.1.openScan_iff hc').mpr ⟨scan, hs⟩)
  · simp only [hcom']
    omega
  · intro x hx
    have := h.returned_lt x hx
    simp only [hacc]
    split <;> omega
  · intro x h1 hx hbit hwhere
    simp only [Finset.notMem_empty, or_false] at hwhere hx hbit
    have hbelow : x < max (t.sys.reach c)
        (Log.skipCaughtUp t.sys.log.leo mask c (t.sys.log.con c)).committed := by
      rw [hreach', hacc] at hx
      split at hx <;> omega
    obtain ⟨h2, h3, h4⟩ := h.below_reach e hbelow h1 hbit
    rcases h.spared x h1 h2 h4 (Or.inl ⟨by omega, h3⟩) with h5 | h5 | ⟨scan, h5, -⟩
    · exact Or.inl h5
    · exact Or.inr (Or.inl h5)
    · exact absurd hread ((h.tracked.sound.openScan_iff h.c_lt).mpr ⟨scan, h5⟩)
  · intro _ x hx hx'
    simp only at hx hx'
    rw [hreach', hacc] at hx
    split at hx
    · exact Finset.mem_union_left _ (h.owed_closed hread x (by omega) (by omega))
    · omega
  · intro x hx
    have := (hlost x hx).1
    simp only
    omega
  · have hfilter : (t.lost ∪ t.dropped c op).filter (fun x => x < ((t.sys.step op).log.con c).accounted) =
        t.lost.filter (fun x => x < (t.sys.log.con c).accounted) ∪ t.dropped c op := by
      ext x
      simp only [Finset.mem_filter, Finset.mem_union, hacc]
      constructor
      · rintro ⟨hx | hx, hlt⟩
        · have h1 := h.lost_lt x hx
          have h2 := hv.stored.geometry.lso_le_leo
          left
          refine ⟨hx, ?_⟩
          split at hlt <;> omega
        · exact Or.inr hx
      · rintro (⟨hx, hlt⟩ | hx)
        · refine ⟨Or.inl hx, ?_⟩
          split <;> omega
        · obtain ⟨h1, h2, -⟩ := (hdrop x).mp hx
          refine ⟨Or.inr hx, ?_⟩
          rw [if_neg (by omega)]
          omega
    have hdis : Disjoint (t.lost.filter (fun x => x < (t.sys.log.con c).accounted)) (t.dropped c op) := by
      rw [Finset.disjoint_left]
      intro x hx hx'
      have h1 := h.lost_lt x (Finset.mem_filter.mp hx).1
      obtain ⟨h2, -⟩ := (hdrop x).mp hx'
      omega
    simp only [htotal, hfilter, Finset.card_union_of_disjoint hdis, v2, h.total]

theorem append (hclean : t.sys.CleanLoss c (.append frame kind mask)) :
    Ledger c (t.step c (.append frame kind mask)) := by
  rcases h.tracked.sound.append_view h.ne_nil frame kind mask with e | ⟨lso₁, k, e⟩
  · refine h.quiet (by simp) (e.con c) e.lso e.leo e.marks e.evicted rfl (fun scan => ?_)
    rw [LogSys.reads_step t.sys (.append frame kind mask) (Or.inl rfl)]
  · change LogSys.AppendView t.sys (t.sys.step (.append frame kind mask)) mask lso₁ k at e
    have hev := (h.dropped_eq e).1
    simp only [LogSys.CleanLoss, hev] at hclean
    by_cases hread : (t.sys.log.con c).reading = 0
    · rw [if_pos hread, Finset.Ico_eq_empty_iff] at hclean
      exact h.append_closed e ⟨rfl, rfl⟩ hread (by omega)
    · rw [if_neg hread] at hclean
      exact h.append_open e ⟨rfl, rfl⟩ hread (fun x h1 h2 => hclean x (Finset.mem_Ico.mpr ⟨h1, h2⟩))

end

end Append

/-- One more read of `c` is open, and it starts within reach. -/
theorem opens (h : Ledger c t) {s : LogSys} (htr : s.Tracked)
    (hlen : s.log.consumers.length = t.sys.log.consumers.length)
    (hmasked : s.log.masked = t.sys.log.masked) (hlso : s.log.lso = t.sys.log.lso)
    (hleo : s.log.leo = t.sys.log.leo) (hmarks : s.marks = t.sys.marks) (scan : ReadScan)
    (hcon : s.log.con c = { t.sys.log.con c with reading := (t.sys.log.con c).reading + 1 })
    (hscans : ∀ x, OpenScan s.reads c x ↔ x = scan ∨ OpenScan t.sys.reads c x)
    (hi : scan.i = 0) (hds : scan.ds = []) (hbase : scan.base ≤ t.sys.reach c)
    (howed : t.sys.log.lso ≤ t.sys.reach c) :
    Ledger c ⟨s, t.committed, t.returned, t.pending, t.lost⟩ := by
  have hacc : (s.log.con c).accounted = (t.sys.log.con c).accounted := by
    rw [hcon]
    rfl
  have hreach : s.reach c = t.sys.reach c := by
    refine eq_of_forall_lt_iff (fun x => ?_)
    rw [LogSys.lt_reach_iff, hacc]
    constructor
    · rintro (hx | ⟨scan', hs, hx⟩)
      · exact (LogSys.lt_reach_iff).mpr (Or.inl hx)
      · rcases (hscans scan').mp hs with rfl | hs
        · omega
        · exact (LogSys.lt_reach_iff).mpr (Or.inr ⟨scan', hs, hx⟩)
    · intro hx
      rcases (LogSys.lt_reach_iff).mp hx with hx | ⟨scan', hs, hx⟩
      · exact Or.inl hx
      · exact Or.inr ⟨scan', (hscans scan').mpr (Or.inr hs), hx⟩
  have hoffsets : scan.offsets = [] := by simp [ReadScan.offsets, hds]
  have hread : (s.log.con c).reading ≠ 0 := by
    rw [hcon]
    simp
  refine ⟨htr, hmasked.trans h.masked, by rw [hlen]; exact h.c_lt, ?_, ?_, ?_, ?_, ?_, ?_,
    fun hn => absurd hn hread, ?_, ?_, ?_⟩
  · intro scan' hs
    rcases (hscans scan').mp hs with rfl | hs
    · refine ⟨fun x h1 h2 => absurd h2 (by omega), ?_⟩
      simp [hoffsets]
    · simp only [hmarks]
      exact h.scans scan' hs
  · simp only [hcon]
    exact h.committed_le
  · intro x hx
    simp only [hacc]
    exact h.returned_lt x hx
  · intro x h1 hx hbit hwhere
    simp only [hreach, hmarks, hlso, hleo] at hx hbit hwhere
    rcases h.spared x h1 hx hbit hwhere with h2 | h2 | ⟨scan', hs, h2⟩
    · exact Or.inl h2
    · exact Or.inr (Or.inl h2)
    · exact Or.inr (Or.inr ⟨scan', (hscans scan').mpr (Or.inr hs), h2⟩)
  · intro x hx
    obtain ⟨h1, h2, h3, h4⟩ := h.pending_ok x hx
    obtain ⟨scan', hs, h5⟩ := (LogSys.overlapped_iff).mp h4
    refine ⟨h1, by simp only [hlso]; exact h2, by simp only [hmarks]; exact h3, ?_⟩
    exact (LogSys.overlapped_iff).mpr ⟨scan', (hscans scan').mpr (Or.inr hs), h5⟩
  · intro _ x hx hx'
    simp only at hx hx'
    omega
  · intro x hx
    simp only [hlso]
    exact h.lost_lt x hx
  · intro _ x hx
    simp only [hacc]
    by_cases hr : (t.sys.log.con c).reading = 0
    · have h1 := h.lost_lt x hx
      have h2 := h.tracked.sound.reach_eq h.c_lt hr
      omega
    · exact h.lost_open hr x hx
  · simp only [hacc]
    rw [hcon]
    exact h.total

variable {call : ReadCall}

/-- The snapshot of a read of `c`: an observation, then one more open read. -/
theorem snapshotOwn (h : Ledger call.c t) {k attempt : ℕ} {r : Log × ReadScan}
    (hk : t.sys.reads[k]? = some ⟨call, attempt, .waiting⟩) (hr : t.sys.log.readSnapshot call = .ok r)
    (hclean : call.start ≤ max (t.sys.reach call.c) t.sys.log.lso ∧
      ((t.sys.log.con call.c).reading = 0 ∨ t.sys.log.lso ≤ t.sys.reach call.c)) :
    Ledger call.c (t.step call.c (.readSnapshot k)) := by
  have hstep : t.sys.step (.readSnapshot k) = { t.sys with
      log := r.1, reads := t.sys.reads.set k ⟨call, attempt, .scanning r.2⟩ } := by
    simp [LogSys.step, LogSys.stepOut, LogSys.stepReadSnapshot, hk, hr]
  obtain ⟨-, -, heq⟩ := Log.readSnapshot_eq hr
  obtain ⟨P, hP, hP'⟩ := openScan_split hk call.c
  have hfirst := h.observeConsumer call.c
  have hfirstlog : (t.sys.step (.observeConsumer call.c)).log = t.sys.log.observeLocked call.c := by
    change t.sys.log.observeConsumer call.c = _
    rw [Log.observeConsumer, if_neg (not_le.mpr h.c_lt)]
  have hfirststep : t.step call.c (.observeConsumer call.c) = ⟨t.sys.step (.observeConsumer call.c),
      t.committed, t.returned, t.pending, t.lost⟩ := by
    have hev : (t.sys.step (.observeConsumer call.c)).evicted = t.sys.evicted := rfl
    rw [h.step_eq hev rfl (fun x hx => hx)]
    simp [LogSys.commits]
  rw [hfirststep] at hfirst
  have hlso : (t.sys.step (.observeConsumer call.c)).log.lso = t.sys.log.lso := by
    rw [hfirstlog]
    rfl
  have hwithin : t.sys.log.lso ≤ (t.sys.step (.observeConsumer call.c)).reach call.c ∧
      t.sys.reach call.c ≤ (t.sys.step (.observeConsumer call.c)).reach call.c := by
    have hcon : (t.sys.step (.observeConsumer call.c)).log.con call.c =
        Log.observe t.sys.log.lso (t.sys.log.con call.c) := by
      rw [hfirstlog, Log.observeLocked, Log.con_updCon_self _ _ h.c_lt]
    by_cases hread : (t.sys.log.con call.c).reading = 0
    · have h1 := (h.observe hread).2.1
      have h2 := (observe_charge t.sys.log.lso _ hread).1
      have h3 := LogSys.accounted_le_reach (t.sys.step (.observeConsumer call.c)) call.c
      rw [hcon, h2] at h3
      rw [h.tracked.sound.reach_eq h.c_lt hread]
      omega
    · have hreach : (t.sys.step (.observeConsumer call.c)).reach call.c = t.sys.reach call.c := by
        rw [Log.observe, if_pos (Nat.pos_of_ne_zero hread)] at hcon
        unfold LogSys.reach
        rw [hcon]
        rfl
      rw [hreach]
      exact ⟨hclean.2.resolve_left hread, le_rfl⟩
  have hover : ∀ x, t.sys.overlapped call.c x = true →
      (t.sys.step (.readSnapshot k)).overlapped call.c x = true := by
    intro x hx
    obtain ⟨scan, hs, hle⟩ := (LogSys.overlapped_iff).mp hx
    refine (LogSys.overlapped_iff).mpr ⟨scan, ?_, hle⟩
    rw [hstep, hP']
    refine Or.inr (((hP scan).mp hs).resolve_left ?_)
    simp [ReadOp.holds, ReadPhase.scan?]
  have hgoal : t.step call.c (.readSnapshot k) = ⟨t.sys.step (.readSnapshot k), t.committed,
      t.returned, t.pending, t.lost⟩ := by
    rw [h.step_eq (by rw [hstep]) rfl hover]
    simp [LogSys.commits]
  have hkeep := h.tracked.sound.step (.readSnapshot k)
  have hbase := (snapshot_scan hr).2
  have hfields : r.2.i = 0 ∧ r.2.ds = [] := by
    unfold Log.readSnapshot at hr
    split at hr
    · cases hr
    · simp only [Except.ok.injEq] at hr
      subst hr
      exact ⟨rfl, rfl⟩
  rw [hgoal]
  refine hfirst.opens (h.tracked.step h.ne_nil _) ?_ ?_ ?_ ?_ ?_ r.2 ?_ ?_ hfields.1 hfields.2 ?_ ?_
  · simp only [hfirstlog, hkeep.2.length_eq]
    simp [Log.observeLocked]
  · simp only [hfirstlog, hkeep.2.masked]
    rfl
  · simp only [hlso]
    rw [hstep]
    simp only [heq]
    rfl
  · simp only [hfirstlog]
    rw [hstep]
    simp only [heq]
    rfl
  · simp only
    rw [hstep]
    rfl
  · simp only [hfirstlog]
    rw [hstep]
    simp only [heq, Log.observeLocked, Log.con_updCon_self _ _ h.c_lt]
  · intro x
    simp only
    rw [hstep, hP', show (t.sys.step (.observeConsumer call.c)).reads = t.sys.reads from rfl, hP]
    simp only [ReadOp.holds, ReadPhase.scan?, Option.mem_def, true_and, Option.some.injEq,
      reduceCtorEq, false_or]
    exact or_congr_left eq_comm
  · simp only
    omega
  · simp only [hlso]
    exact hwithin.1

theorem readSnapshot (h : Ledger c t) {k : ℕ} (hclean : t.sys.CleanLoss c (.readSnapshot k)) :
    Ledger c (t.step c (.readSnapshot k)) := by
  rcases t.sys.stepOut_readSnapshot k with hs | ⟨call, attempt, hk, ⟨e, -, hs⟩ | ⟨l, scan, hr, hs⟩⟩
  · exact h.idle (by simp) (congrArg Prod.fst hs) rfl
  · exact h.quietRead (by simp) hk (congrArg Prod.fst hs) rfl rfl rfl rfl (by simp [ReadOp.holds, ReadPhase.scan?])
  · obtain ⟨-, hstart, heq⟩ := Log.readSnapshot_eq hr
    simp only at heq
    by_cases hcc : call.c = c
    · subst hcc
      exact h.snapshotOwn hk hr (hclean _ (Option.mem_def.mpr hk) rfl hstart)
    · refine h.quietRead (by simp) hk (congrArg Prod.fst hs) ?_ ?_ ?_ rfl (by simp [ReadOp.holds, hcc])
      · rw [heq, Log.con_updCon_of_ne _ _ (Ne.symm hcc)]
      · rw [heq]
        rfl
      · rw [heq]
        rfl

variable {scan : ReadScan}

/-- One step of the loop of a read: it stops or waits, or it passes the offset
`base + i` and takes it if it is a record for the consumer. -/
theorem advance_taken {l : Log} {frames : List Bytes} {marks : List Mask}
    (hv : Log.LogInvariant l frames marks) (hm : l.masked = true) (hok : Log.ScanOk l call scan) :
    (scan.advance l call).base = scan.base ∧ (scan.advance l call).lso = scan.lso ∧
      ((scan.advance l call).i = scan.i ∧ (scan.advance l call).offsets = scan.offsets ∨
        (scan.advance l call).i = scan.i + 1 ∧
          ((scan.advance l call).offsets = scan.offsets ∧
              hasBit (Log.markAt marks (scan.base + scan.i)) call.c = false ∨
            (scan.advance l call).offsets = scan.offsets ++ [scan.base + scan.i])) := by
  rcases Log.advance_cases l call scan with
    heq | ⟨-, -, heq⟩ | ⟨hrun, p, -, heq | ⟨-, hbit, heq⟩ | ⟨-, done, heq⟩⟩
  · rw [heq]
    exact ⟨rfl, rfl, Or.inl ⟨rfl, rfl⟩⟩
  · rw [heq]
    rcases Log.loadSlot_cases l scan with heq | ⟨p, -, heq⟩
    · rw [heq]
      exact ⟨rfl, rfl, Or.inl ⟨rfl, rfl⟩⟩
    · rw [heq]
      exact ⟨rfl, rfl, Or.inl ⟨rfl, rfl⟩⟩
  · rw [heq]
    exact ⟨rfl, rfl, Or.inl ⟨rfl, rfl⟩⟩
  · rw [heq]
    simp only [ReadScan.running, Bool.and_eq_true, decide_eq_true_eq] at hrun
    rw [hok.mask_eq hv hm hrun.2] at hbit
    exact ⟨rfl, rfl, Or.inr ⟨rfl, Or.inl ⟨rfl, hbit⟩⟩⟩
  · rw [heq]
    refine ⟨rfl, rfl, Or.inr ⟨rfl, Or.inr ?_⟩⟩
    simp [ReadScan.take, ReadScan.offsets]

theorem scanTaken_advance {l : Log} {frames : List Bytes} {marks : List Mask}
    (hv : Log.LogInvariant l frames marks) (hm : l.masked = true)
    (hok : Log.ScanOk l call scan) (h : ScanTaken marks call.c scan) :
    ScanTaken marks call.c (scan.advance l call) := by
  obtain ⟨h1, -, h3 | ⟨h3, h4⟩⟩ := advance_taken hv hm hok
  · refine ⟨?_, ?_⟩
    · rw [h1, h3.1, h3.2]
      exact h.taken
    · rw [h1, h3.1, h3.2]
      exact h.lt
  · refine ⟨?_, ?_⟩
    · intro x hlo hhi hbit
      rw [h1] at hlo hhi
      rw [h3] at hhi
      by_cases hx : x < scan.base + scan.i
      · have hmem := h.taken x hlo hx hbit
        rcases h4 with ⟨h4, -⟩ | h4 <;> rw [h4]
        · exact hmem
        · exact mem_append_left _ hmem
      · have hxeq : x = scan.base + scan.i := by omega
        rcases h4 with ⟨-, hno⟩ | h4
        · rw [hxeq, hno] at hbit
          cases hbit
        · rw [h4, hxeq]
          simp
    · intro x hx
      rw [h1, h3]
      rcases h4 with ⟨h4, -⟩ | h4
      · rw [h4] at hx
        have := h.lt x hx
        omega
      · rw [h4, mem_append, mem_singleton] at hx
        rcases hx with hx | rfl
        · have := h.lt x hx
          omega
        · omega

/-- One step of the loop of a read of `c`. -/
theorem advanceOwn (h : Ledger call.c t) {k attempt : ℕ}
    (hk : t.sys.reads[k]? = some ⟨call, attempt, .scanning scan⟩) :
    Ledger call.c (t.step call.c (.readAdvance k)) := by
  have hv := h.tracked.sound.invariant h.ne_nil
  have hok : Log.ScanOk t.sys.log call scan :=
    (h.tracked.sound.reads _ (mem_of_getElem? hk)).scan scan rfl
  obtain ⟨P, hP, hP'⟩ := openScan_split hk call.c
  have hstep : t.sys.step (.readAdvance k) = { t.sys with
      reads := t.sys.reads.set k ⟨call, attempt, .scanning (scan.advance t.sys.log call)⟩ } := by
    simp [LogSys.step, LogSys.stepOut, LogSys.stepReadAdvance, hk]
  have hheld : ∀ x, OpenScan t.sys.reads call.c x ↔ x = scan ∨ P x := by
    intro x
    rw [hP]
    simp only [ReadOp.holds, ReadPhase.scan?, Option.mem_def, Option.some.injEq, true_and]
    exact or_congr_left eq_comm
  have hheld' : ∀ x, OpenScan (t.sys.step (.readAdvance k)).reads call.c x ↔
      x = scan.advance t.sys.log call ∨ P x := by
    intro x
    rw [hstep, hP']
    simp only [ReadOp.holds, ReadPhase.scan?, Option.mem_def, Option.some.injEq, true_and]
    exact or_congr_left eq_comm
  have hown : OpenScan t.sys.reads call.c scan := (hheld scan).mpr (Or.inl rfl)
  obtain ⟨h1, h2, h3⟩ := advance_taken hv h.masked hok
  have hread : (t.sys.log.con call.c).reading ≠ 0 :=
    (h.tracked.sound.openScan_iff h.c_lt).mpr ⟨scan, hown⟩
  have hlog : (t.sys.step (.readAdvance k)).log = t.sys.log := by rw [hstep]
  have hmarks : (t.sys.step (.readAdvance k)).marks = t.sys.marks := by rw [hstep]
  have hover : ∀ x, (t.sys.step (.readAdvance k)).overlapped call.c x = true ↔
      t.sys.overlapped call.c x = true := by
    intro x
    simp only [LogSys.overlapped_iff, hheld, hheld', or_and_right, exists_or, exists_eq_left, h2]
  have hreach : ∀ x, x < (t.sys.step (.readAdvance k)).reach call.c ↔
      x < t.sys.reach call.c ∨ x < scan.base + (scan.advance t.sys.log call).i := by
    intro x
    simp only [LogSys.lt_reach_iff, hheld, hheld', or_and_right, exists_or, exists_eq_left, h1, hlog]
    constructor
    · rintro (hx | hx | hx)
      · exact Or.inl (Or.inl hx)
      · exact Or.inr hx
      · exact Or.inl (Or.inr (Or.inr hx))
    · rintro ((hx | hx | hx) | hx)
      · exact Or.inl hx
      · exact Or.inr (Or.inl (by omega))
      · exact Or.inr (Or.inr hx)
      · exact Or.inr (Or.inl hx)
  have hle : t.sys.reach call.c ≤ (t.sys.step (.readAdvance k)).reach call.c := by
    by_contra hlt
    have := (hreach _).mpr (Or.inl (not_le.mp hlt))
    omega
  have hmem : ∀ x ∈ scan.offsets, x ∈ (scan.advance t.sys.log call).offsets := by
    intro x hx
    rcases h3 with ⟨-, h4⟩ | ⟨-, ⟨h4, -⟩ | h4⟩ <;> rw [h4]
    · exact hx
    · exact hx
    · exact mem_append_left _ hx
  have htaken := scanTaken_advance hv h.masked hok (h.scans scan hown)
  have hgoal : t.step call.c (.readAdvance k) = ⟨t.sys.step (.readAdvance k), t.committed,
      t.returned, t.pending, t.lost⟩ := by
    rw [h.step_eq (by rw [hstep]) rfl (fun x => (hover x).mpr)]
    simp [LogSys.commits]
  rw [hgoal]
  refine ⟨h.tracked.step h.ne_nil _, by rw [hlog]; exact h.masked, by rw [hlog]; exact h.c_lt, ?_,
    by rw [hlog]; exact h.committed_le, by simp only [hlog]; exact h.returned_lt, ?_, ?_, ?_,
    fun hn => absurd (hlog ▸ hn) hread, by simp only [hlog]; exact h.lost_lt,
    fun _ => by simp only [hlog]; exact h.lost_open hread, by simp only [hlog]; exact h.total⟩
  · intro scan' hs
    simp only [hmarks]
    rcases (hheld' scan').mp hs with rfl | hs
    · exact htaken
    · exact h.scans scan' ((hheld scan').mpr (Or.inr hs))
  · intro x hone hx hbit hwhere
    simp only [hmarks, hlog] at hbit hwhere
    by_cases hold : x < t.sys.reach call.c
    · rcases h.spared x hone hold hbit hwhere with h4 | h4 | ⟨scan', hs, h4⟩
      · exact Or.inl h4
      · exact Or.inr (Or.inl h4)
      · refine Or.inr (Or.inr ?_)
        rcases (hheld scan').mp hs with rfl | hs
        · exact ⟨_, (hheld' _).mpr (Or.inl rfl), hmem x h4⟩
        · exact ⟨scan', (hheld' _).mpr (Or.inr hs), h4⟩
    · have h4 := LogSys.scan_le_reach hown
      have h5 := ((hreach x).mp hx).resolve_left hold
      exact Or.inr (Or.inr ⟨_, (hheld' _).mpr (Or.inl rfl),
        htaken.taken x (by omega) (by omega) hbit⟩)
  · intro x hx
    obtain ⟨h4, h5, h6, h7⟩ := h.pending_ok x hx
    exact ⟨h4, by simp only [hlog]; exact h5, by simp only [hmarks]; exact h6, (hover x).mpr h7⟩
  · intro _ x hx hx'
    simp only [hlog] at hx hx'
    exact h.owed_open hread x (hle.trans hx) hx'

theorem readAdvance (h : Ledger c t) (k : ℕ) : Ledger c (t.step c (.readAdvance k)) := by
  rcases t.sys.stepOut_readAdvance k with hs | ⟨call, attempt, scan, hk, hs⟩
  · exact h.idle (by simp) (congrArg Prod.fst hs) rfl
  · by_cases hcc : call.c = c
    · subst hcc
      exact h.advanceOwn hk
    · exact h.quietRead (by simp) hk (congrArg Prod.fst hs) rfl rfl rfl rfl (by simp [ReadOp.holds, hcc])

/-- What the completion of a scan of `c` does to a system: its offsets are accounted for. -/
structure Completes (s s' : LogSys) (c : ℕ) (scan : ReadScan) : Prop where
  sound : s'.Sound
  c_lt : c < s'.log.consumers.length
  lso : s'.log.lso = s.log.lso
  leo : s'.log.leo = s.log.leo
  marks : s'.marks = s.marks
  committed : (s'.log.con c).committed = (s.log.con c).committed
  accounted : (s'.log.con c).accounted = max (s.log.con c).accounted (scan.base + scan.i)
  lostTotal : (s'.log.con c).lostTotal = (s.log.con c).lostTotal
  scans : ∀ x, OpenScan s.reads c x ↔ x = scan ∨ OpenScan s'.reads c x

theorem completes (h : Ledger call.c t) {k attempt : ℕ}
    (hk : t.sys.reads[k]? = some ⟨call, attempt, .scanning scan⟩) (hrun : scan.running = false) :
    Completes t.sys (t.sys.step (.readComplete k)) call.c scan := by
  have hok : Log.ScanOk t.sys.log call scan :=
    (h.tracked.sound.reads _ (mem_of_getElem? hk)).scan scan rfl
  have hkeep := h.tracked.sound.step (.readComplete k)
  obtain ⟨P, hP, hP'⟩ := openScan_split hk call.c
  have hstep : t.sys.step (.readComplete k) = { t.sys with
      log := t.sys.log.readComplete call scan
      reads := t.sys.reads.set k (if Log.retries attempt call scan then ⟨call, attempt + 1, .waiting⟩
        else ⟨call, attempt, .returned⟩) } := by
    simp only [LogSys.step, LogSys.stepOut_completed hk hrun]
  have hcon : (t.sys.step (.readComplete k)).log.con call.c = { t.sys.log.con call.c with
      served := max (t.sys.log.con call.c).served (scan.base + scan.span call)
      reportedLost := if call.sparse && (!scan.truncated || scan.span call > 0) then
        (t.sys.log.con call.c).reportedLost + scan.lost else (t.sys.log.con call.c).reportedLost
      reading := (t.sys.log.con call.c).reading - 1 } := by
    rw [hstep]
    exact Log.con_updCon_self _ _ h.c_lt
  refine ⟨hkeep.1, hkeep.2.length_eq ▸ h.c_lt, by rw [hstep]; rfl, by rw [hstep]; rfl, by rw [hstep],
    by rw [hcon], ?_, by rw [hcon], fun x => ?_⟩
  · rw [hcon, hok.span_eq]
    simp only [LogConsumer.accounted]
    omega
  · have hclosed : OpenScan (t.sys.step (.readComplete k)).reads call.c x ↔ P x := by
      rw [hstep, hP']
      split <;> simp [ReadOp.holds, ReadPhase.scan?]
    rw [hclosed, hP]
    simp only [ReadOp.holds, ReadPhase.scan?, Option.mem_def, Option.some.injEq, true_and]
    exact or_congr_left eq_comm

section Completion

variable {s : LogSys}

theorem Completes.reach (e : Completes t.sys s c scan) : s.reach c = t.sys.reach c := by
  refine eq_of_forall_lt_iff (fun x => ?_)
  simp only [LogSys.lt_reach_iff, e.scans, or_and_right, exists_or, exists_eq_left, e.accounted, lt_max_iff,
    or_assoc]

theorem Completes.own (e : Completes t.sys s c scan) : OpenScan t.sys.reads c scan :=
  (e.scans scan).mpr (Or.inl rfl)

/-- The undecided evictions that are lost once no open read overlaps them. -/
def settled (t : NeedSys) (s : LogSys) (c : ℕ) (returned : Finset ℕ) : Finset ℕ :=
  t.pending.filter fun x => s.overlapped c x = false ∧ t.committed ≤ x ∧ x ∉ returned

section

variable (h : Ledger c t)
include h

private theorem notMem_returned (e : Completes t.sys s c scan) {x : ℕ} (hx : t.sys.reach c ≤ x) :
    x ∉ t.returned ∪ scan.offsets.toFinset := by
  have hle := LogSys.accounted_le_reach t.sys c
  have hend := LogSys.scan_le_reach e.own
  intro hmem
  rcases Finset.mem_union.mp hmem with hmem | hmem
  · have := h.returned_lt x hmem
    omega
  · have := (h.scans scan e.own).lt x (mem_toFinset.mp hmem)
    omega

/-- A record below the reach is committed, returned or in the hands of another open read. -/
theorem spared_completed (e : Completes t.sys s c scan) {x : ℕ} (h1 : 1 ≤ x)
    (hx : x < t.sys.reach c) (hbit : hasBit (Log.markAt t.sys.marks x) c = true)
    (hwhere : (t.sys.log.lso ≤ x ∧ x < t.sys.log.leo) ∨ x ∈ t.pending) :
    x < t.committed ∨ x ∈ t.returned ∪ scan.offsets.toFinset ∨ s.Offered c x := by
  rcases h.spared x h1 hx hbit hwhere with h4 | h4 | ⟨scan', hs, h4⟩
  · exact Or.inl h4
  · exact Or.inr (Or.inl (Finset.mem_union_left _ h4))
  · rcases (e.scans scan').mp hs with rfl | hs
    · exact Or.inr (Or.inl (Finset.mem_union_right _ (mem_toFinset.mpr h4)))
    · exact Or.inr (Or.inr ⟨scan', hs, h4⟩)

/-- What is settled lies above the reach, and no read is open any more. -/
theorem settled_above (e : Completes t.sys s c scan) {x : ℕ}
    (hx : x ∈ settled t s c (t.returned ∪ scan.offsets.toFinset)) :
    t.sys.reach c ≤ x ∧ (s.log.con c).reading = 0 := by
  obtain ⟨hp, hover, h1, h2⟩ := Finset.mem_filter.mp hx
  have hge : t.sys.reach c ≤ x := by
    by_contra hlt
    obtain ⟨h3, -, h4, -⟩ := h.pending_ok x hp
    rcases h.spared_completed e h3 (not_le.mp hlt) h4 (Or.inr hp) with h5 | h5 | h5
    · omega
    · exact h2 h5
    · rw [e.sound.overlapped_of_offered h5] at hover
      cases hover
  refine ⟨hge, ?_⟩
  by_contra hn
  rw [e.sound.overlapped_of_le e.c_lt hn (Or.inl (by rw [e.reach]; exact hge))] at hover
  cases hover

/-- The losses that are settled have not been charged. -/
theorem charged_completed (e : Completes t.sys s c scan) :
    (t.lost ∪ settled t s c (t.returned ∪ scan.offsets.toFinset)).filter
        (fun x => x < (s.log.con c).accounted) =
      t.lost.filter (fun x => x < (t.sys.log.con c).accounted) := by
  have hread := (h.tracked.sound.openScan_iff h.c_lt).mpr ⟨scan, e.own⟩
  have hle := LogSys.accounted_le_reach t.sys c
  have hend := LogSys.scan_le_reach e.own
  ext x
  rw [Finset.mem_filter, Finset.mem_union, e.accounted]
  constructor
  · rintro ⟨hx | hx, hlt⟩
    · exact Finset.mem_filter.mpr ⟨hx, h.lost_open hread x hx⟩
    · have := (h.settled_above e hx).1
      omega
  · intro hx
    obtain ⟨h1, h2⟩ := Finset.mem_filter.mp hx
    exact ⟨Or.inl h1, by omega⟩

theorem complete (e : Completes t.sys s c scan) (htr : s.Tracked) (hmasked : s.log.masked = true) :
    Ledger c ⟨s, t.committed, t.returned ∪ scan.offsets.toFinset,
      t.pending.filter (fun x => s.overlapped c x = true),
      t.lost ∪ settled t s c (t.returned ∪ scan.offsets.toFinset)⟩ := by
  have hread := (h.tracked.sound.openScan_iff h.c_lt).mpr ⟨scan, e.own⟩
  have hacc := e.accounted
  have hcom := (t.sys.log.con c).committed_le_accounted
  have hle := LogSys.accounted_le_reach t.sys c
  have hK := h.committed_le
  refine ⟨htr, hmasked, e.c_lt, ?_, e.committed ▸ hK, ?_, ?_, ?_, ?_, ?_, ?_, ?_, ?_⟩
  · intro scan' hs
    simp only [e.marks]
    exact h.scans scan' ((e.scans scan').mpr (Or.inr hs))
  · intro x hx
    simp only [hacc]
    rcases Finset.mem_union.mp hx with hx | hx
    · have := h.returned_lt x hx
      omega
    · have := (h.scans scan e.own).lt x (mem_toFinset.mp hx)
      omega
  · intro x h1 hx hbit hwhere
    simp only [e.reach, e.marks, e.lso, e.leo] at hx hbit hwhere
    exact h.spared_completed e h1 hx hbit (hwhere.imp_right fun hp => (Finset.mem_filter.mp hp).1)
  · intro x hx
    obtain ⟨hp, hover⟩ := Finset.mem_filter.mp hx
    obtain ⟨h1, h2, h3, -⟩ := h.pending_ok x hp
    exact ⟨h1, by simp only [e.lso]; exact h2, by simp only [e.marks]; exact h3, hover⟩
  · intro hread' x hx hx'
    simp only [e.reach, e.lso] at hx hx'
    refine Finset.mem_filter.mpr ⟨h.owed_open hread x hx hx', ?_⟩
    exact e.sound.overlapped_of_le e.c_lt hread' (Or.inl (by rw [e.reach]; exact hx))
  · intro hread' x hx hx'
    simp only [e.reach, e.lso] at hx hx'
    refine Finset.mem_union_right _ (Finset.mem_filter.mpr ⟨h.owed_open hread x hx hx', ?_, by omega,
      h.notMem_returned e hx⟩)
    by_contra hn
    exact e.sound.reading_ne e.c_lt (by simpa using hn) hread'
  · intro x hx
    simp only [e.lso]
    rcases Finset.mem_union.mp hx with hx | hx
    · exact h.lost_lt x hx
    · exact (h.pending_ok x (Finset.mem_filter.mp hx).1).2.1
  · intro hread' x hx
    simp only [hacc]
    rcases Finset.mem_union.mp hx with hx | hx
    · have := h.lost_open hread x hx
      omega
    · exact absurd (h.settled_above e hx).2 hread'
  · simp only [h.charged_completed e, e.lostTotal]
    exact h.total

end

end Completion

/-- The completion of a read of `c`: what it took is returned, and the evictions that
no other open read overlaps are decided. -/
theorem completeOwn (h : Ledger call.c t) {k attempt : ℕ}
    (hk : t.sys.reads[k]? = some ⟨call, attempt, .scanning scan⟩) (hrun : scan.running = false) :
    Ledger call.c (t.step call.c (.readComplete k)) := by
  have hret : t.sys.returns call.c (.readComplete k) = scan.offsets.toFinset := by
    simp [LogSys.returns, hk, hrun]
  have hev : (t.sys.step (.readComplete k)).evicted = t.sys.evicted := by
    simp only [LogSys.step, LogSys.stepOut_completed hk hrun]
  have hdrop : t.dropped call.c (.readComplete k) = ∅ := by
    simp [NeedSys.dropped, hev]
  have hgoal : t.step call.c (.readComplete k) = ⟨t.sys.step (.readComplete k), t.committed,
      t.returned ∪ scan.offsets.toFinset,
      t.pending.filter (fun x => (t.sys.step (.readComplete k)).overlapped call.c x = true),
      t.lost ∪ settled t (t.sys.step (.readComplete k)) call.c (t.returned ∪ scan.offsets.toFinset)⟩ := by
    simp only [NeedSys.step, settled, hdrop, hret, LogSys.commits, Nat.max_zero, Finset.union_empty]
  rw [hgoal]
  exact h.complete (h.completes hk hrun) (h.tracked.step h.ne_nil _)
    ((h.tracked.sound.step (.readComplete k)).2.masked.trans h.masked)

theorem readComplete (h : Ledger c t) (k : ℕ) : Ledger c (t.step c (.readComplete k)) := by
  rcases t.sys.stepOut_readComplete k with ⟨hs, hidle⟩ | ⟨call, attempt, scan, hk, hrun⟩
  · refine h.idle (by simp) (congrArg Prod.fst hs) ?_
    simp only [LogSys.returns]
    split
    · rename_i call attempt scan hk
      simp [hidle call attempt scan hk]
    · rfl
  · by_cases hcc : call.c = c
    · subst hcc
      exact h.completeOwn hk hrun
    · refine h.quietRead (by simp) hk (congrArg Prod.fst (LogSys.stepOut_completed hk hrun))
        (Log.con_updCon_of_ne _ _ (Ne.symm hcc)) rfl rfl (by simp [LogSys.returns, hk, hcc]) (fun scan' => ?_)
      split <;> simp [ReadOp.holds, hcc]

theorem step (h : Ledger c t) {op : LogOp} (hclean : t.sys.CleanLoss c op) : Ledger c (t.step c op) := by
  cases op with
  | append frame kind mask => exact h.append hclean
  | commit d off => exact h.commit hclean
  | resume d lastEpoch off | clearConsumerBits d start drop | markServed d upTo => cases hclean
  | advanceSkipped => exact h.advanceSkipped hclean
  | setConsumerState d st => exact h.setConsumerState d st
  | observeConsumer d => exact h.observeConsumer d
  | sealLog => exact h.quiet (by simp) rfl rfl rfl rfl rfl rfl (fun _ => Iff.rfl)
  | clearSlot k => exact h.clearSlot k
  | readCall call => exact h.readCall call
  | readSnapshot k => exact h.readSnapshot hclean
  | readAdvance k => exact h.readAdvance k
  | readComplete k => exact h.readComplete k

end Ledger

/-- Loss accounting of a masked log. In a run whose steps are all clean, each
observation of `c` with no read of `c` open finds `lostTotal` equal to the number of
offsets `c` lost. -/
theorem NeedSys.run_losses_counted {epoch : ℕ} {cfg : LogConfig} {l : Log}
    (h : newLog epoch cfg = .ok l) (hm : cfg.masked = true) {c : ℕ}
    (hc : c < cfg.consumers.length) {ops : List LogOp}
    (hrun : StateRuns.Along (step c) (fun t op => t.sys.CleanLoss c op) (start l) ops)
    (hread : ((run c l ops).sys.log.con c).reading = 0) : let t := (run c l ops).step c (.observeConsumer c)
    (t.sys.log.con c).lostTotal = t.lost.card := by
  have hledger : Ledger c (run c l ops) :=
    StateRuns.run_invariant (fun _ _ ht hclean => ht.step hclean) (Ledger.start h hm hc) hrun
  exact (hledger.observe hread).2.2

/-- Two records for consumer 0: the read taken between them still returns the first,
which the second evicts. -/
theorem NeedSys.run_losses_counted_sample :
    let t := (run 0 LogSys.sampleLog [.append [0, 0, 0, 0] .client 1, .readCall ⟨0, 1, 8, 0, true⟩,
      .readSnapshot 0, .readAdvance 0, .append [0, 0, 0, 0] .client 1, .readAdvance 0,
      .readComplete 0]).step 0 (.observeConsumer 0)
    (t.sys.log.con 0).lostTotal = t.lost.card :=
  run_losses_counted LogSys.sampleLog_eq rfl (by decide) (by decide) (by decide)

/-- A read of consumer 0 is open while two records are evicted, the second of them
for consumer 1 only; both are charged to consumer 0. -/
theorem NeedSys.overlapping_eviction_overcharges :
    let t := (run 0 LogSys.sampleLog [.append [0, 0, 0, 0] .client 1, .readCall ⟨0, 1, 8, 0, true⟩,
      .readSnapshot 0, .append [0, 0, 0, 0] .client 2, .append [0, 0, 0, 0] .client 1,
      .readAdvance 0, .readComplete 0]).step 0 (.observeConsumer 0)
    ((t.sys.log.con 0).lostTotal = 2 ∧ t.lost = {1}) ∧ ¬ (t.sys.log.con 0).lostTotal = t.lost.card := by
  decide

end MonsterMQ.PeerLink
