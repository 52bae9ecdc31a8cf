import MonsterMQ.PeerLinkLogInvariant

/-!
# How consumer positions move

Every operation that moves a position is a change of `committed` fields followed
by one `updateLWMLocked`. `Shifts` says this once, with the reason for each move
as a parameter, and the operations are instances of it.
-/

namespace MonsterMQ.PeerLink
namespace Log

open LittleEndian List

/-- From `start` the position is moved over held records without bit `c`, or not at
all. -/
def SkipTo (l : Log) (c start y : ℕ) : Prop :=
  y = start ∨ (l.masked = true ∧ max start l.lso < y ∧ y ≤ l.leo ∧
    ∀ x, max start l.lso ≤ x → x < y → hasBit (l.maskAtLocked x) c = false)

theorem SkipTo.le {l : Log} {c start y : ℕ} (h : SkipTo l c start y) : start ≤ y := by
  rcases h with rfl | ⟨-, h, -⟩
  · exact le_rfl
  · omega

theorem SkipTo.le_leo {l : Log} {c start y : ℕ} (h : SkipTo l c start y) (hs : start ≤ l.leo) :
    y ≤ l.leo := by
  rcases h with rfl | ⟨-, -, h, -⟩
  · exact hs
  · exact h

/-- `l'` is `l` after each position `d` moved to a place that `P d` allows and the
log was trimmed. -/
def Shifts (P : ℕ → ℕ → Prop) (l l' : Log) : Prop :=
  ∃ cons : List LogConsumer, cons.length = l.consumers.length ∧
    (∀ d < l.consumers.length, ∃ y, con { l with consumers := cons } d =
      { l.con d with committed := y } ∧ P d y) ∧ Trims { l with consumers := cons } l'

section Shift
variable {l l' : Log} {frames : List Bytes} {marks : List Mask} {P : ℕ → ℕ → Prop}

theorem Shifts.length_eq (h : Shifts P l l') : l'.consumers.length = l.consumers.length := by
  obtain ⟨cons, hlen, -, ht⟩ := h
  rw [ht.consumers]
  exact hlen

/-- What a shift does to one consumer: `lso` rises only up to the new position. -/
theorem Shifts.con (h : Shifts P l l') {d : ℕ} (hd : d < l.consumers.length) :
    ∃ y, l'.con d = { l.con d with committed := y } ∧ P d y ∧ l.lso ≤ l'.lso ∧
      (l'.lso = l.lso ∨ l'.lso ≤ y) := by
  obtain ⟨cons, hlen, hcon, ht⟩ := h
  obtain ⟨y, hy, hP⟩ := hcon d hd
  have heq : l'.con d = Log.con { l with consumers := cons } d := by
    simp only [Log.con, ht.consumers]
  have hmin : minCommitted { l with consumers := cons } ≤ y := by
    have := minCommitted_le { l with consumers := cons } (c := d) (by simpa [hlen] using hd)
    rwa [hy] at this
  have hlso := ht.lso
  simp only at hlso
  refine ⟨y, heq.trans hy, hP, by omega, ?_⟩
  rcases le_total l.lso (minCommitted { l with consumers := cons }) with hle | hle
  · rw [max_eq_right hle] at hlso
    exact Or.inr (by omega)
  · rw [max_eq_left hle] at hlso
    exact Or.inl hlso

theorem Shifts.fields (h : Shifts P l l') : SameSetup l l' ∧ l'.leo = l.leo ∧ l'.heap = l.heap ∧
    l'.nextChunk = l.nextChunk ∧ l'.evictedByCount = l.evictedByCount ∧
    l'.evictedByBytes = l.evictedByBytes := by
  obtain ⟨cons, -, -, ht⟩ := h
  obtain ⟨h1, h2, h3, h4, h5, h6, h7, h8, h9⟩ := ht.setup
  exact ⟨⟨h1, h2, h3, h4, h5, h6, h7, h8, h9⟩, ht.leo, ht.heap, ht.nextChunk, ht.count⟩

section

variable (h : LogInvariant l frames marks)
include h

theorem LogInvariant.shifts_refl (hP : ∀ d < l.consumers.length, P d (l.con d).committed) : Shifts P l l := by
  refine ⟨l.consumers, rfl, fun d hd => ⟨_, rfl, hP d hd⟩, ?_⟩
  exact h.toLoose.trims_refl h.lwm_eq

/-- Move the positions to `cons`, then recompute the minimum. -/
theorem LogInvariant.shift {cons : List LogConsumer} (hlen : cons.length = l.consumers.length)
    (hcon : ∀ d < l.consumers.length, ∃ y, Log.con { l with consumers := cons } d =
      { l.con d with committed := y } ∧ P d y ∧ 1 ≤ y ∧ y ≤ l.leo) :
    let r := updateLWMLocked { l with consumers := cons }
    LogInvariant r.1 frames marks ∧ Shifts P l r.1 ∧ ∀ req ∈ r.2, ClearOk r.1 req := by
  have hl : Loose { l with consumers := cons } frames marks := by
    refine h.toLoose.withConsumers hlen ?_
    intro d hd
    obtain ⟨y, hy, -, h1, h2⟩ := hcon d hd
    have hp := h.position d hd
    rw [hy]
    exact ⟨h1, h2, hp.3, hp.4⟩
  obtain ⟨h1, h2, h3, h4⟩ := hl.updateLWM
  refine ⟨⟨h1, h3 h.bounded, h2⟩, ⟨cons, hlen, ?_, hl.trims⟩, h4⟩
  intro d hd
  obtain ⟨y, hy, hP, -⟩ := hcon d hd
  exact ⟨y, hy, hP⟩

/-- Changing one consumer outside of `committed` keeps the invariant. -/
theorem LogInvariant.updCon (c : ℕ)
    {f : LogConsumer → LogConsumer} (hcom : ∀ con, (f con).committed = con.committed)
    (hpos : c < l.consumers.length → Position l.leo (f (l.con c))) :
    LogInvariant (l.updCon c f) frames marks := by
  have hl : Loose (l.updCon c f) frames marks := by
    refine h.toLoose.withConsumers (by simp) ?_
    intro d hd
    by_cases hdc : d = c
    · subst hdc
      have := con_updCon_self l f hd
      rw [Log.updCon] at this
      rw [this]
      exact hpos hd
    · have := con_updCon_of_ne l f hdc
      rw [Log.updCon] at this
      rw [this]
      exact h.position d hd
  refine ⟨hl, ?_, ?_⟩
  · have e : SameStore l (l.updCon c f) := ⟨rfl, rfl, rfl, rfl, rfl, rfl, rfl, rfl, rfl, rfl, rfl⟩
    exact e.bounded h.bounded
  · refine h.lwm_eq.trans (minCommitted_congr ?_).symm
    refine ext_getElem (by simp) ?_
    intro d h1 h2
    simp only [Log.updCon, getElem_map, getElem_modify]
    split
    · exact hcom _
    · rfl

end

end Shift

section Skip
variable {l : Log} {frames : List Bytes} {marks : List Mask}

private theorem skipRun_spec (l : Log) (c n x : ℕ) : x ≤ l.skipRun c n x ∧ l.skipRun c n x ≤ x + n ∧
    ∀ z, x ≤ z → z < l.skipRun c n x → hasBit (l.maskAtLocked z) c = false := by
  induction n generalizing x with
  | zero => exact ⟨le_rfl, le_rfl, fun z h1 h2 => absurd h2 (by simp only [skipRun]; omega)⟩
  | succ n ih =>
    unfold skipRun
    split
    · exact ⟨le_rfl, by omega, fun z h1 h2 => absurd h2 (by omega)⟩
    · rename_i hbit
      obtain ⟨h1, h2, h3⟩ := ih (x + 1)
      refine ⟨by omega, by omega, fun z hz1 hz2 => ?_⟩
      rcases Nat.eq_or_lt_of_le hz1 with rfl | hlt
      · simpa using hbit
      · exact h3 z hlt hz2

theorem updCon_committed_self (l : Log) (c : ℕ) :
    l.updCon c (fun con => { con with committed := (l.con c).committed }) = l := by
  have hcons : l.consumers.modify c
      (fun con => { con with committed := (l.con c).committed }) = l.consumers := by
    refine ext_getElem (by simp) ?_
    intro d h1 h2
    rw [getElem_modify]
    split
    · rename_i hcd
      subst hcd
      simp only [con_eq_getElem l h2]
    · rfl
  rw [updCon, hcons]

/-- `skipLaggingLocked` moves one position, over records without the bit. -/
theorem skipLaggingLocked_spec (hm : l.masked = true) (c : ℕ) : ∃ y, SkipTo l c (l.con c).committed y ∧
      l.skipLaggingLocked c =
        (l.updCon c (fun con => { con with committed := y }), decide (y ≠ (l.con c).committed)) := by
  have hstay : ∃ y, SkipTo l c (l.con c).committed y ∧ (l, false) =
      (l.updCon c (fun con => { con with committed := y }), decide (y ≠ (l.con c).committed)) := by
    refine ⟨_, Or.inl rfl, ?_⟩
    rw [updCon_committed_self]
    simp
  unfold skipLaggingLocked
  simp only
  split
  · exact hstay
  · rename_i hlt
    obtain ⟨h1, h2, h3⟩ := skipRun_spec l c
      (min l.leo (max (l.con c).committed l.lso + l.maxScan) - max (l.con c).committed l.lso)
      (max (l.con c).committed l.lso)
    split
    · exact hstay
    · rename_i hmove
      rw [not_or] at hmove
      refine ⟨_, Or.inr ⟨hm, by omega, by omega, h3⟩, ?_⟩
      rw [decide_eq_true (by omega)]

/-- `SkipTo` reads nothing of the consumers. -/
theorem SkipTo.congr {l l' : Log} (hlso : l'.lso = l.lso) (hleo : l'.leo = l.leo)
    (hm : l'.masked = l.masked) (hmask : ∀ x, l'.maskAtLocked x = l.maskAtLocked x) {c start y : ℕ}
    (h : SkipTo l c start y) : SkipTo l' c start y := by
  unfold SkipTo
  rw [hlso, hleo, hm]
  simp only [hmask]
  exact h

/-- The loop of `AdvanceSkipped`: each listed consumer skips on its own. -/
theorem advanceLoop_spec (hm : l.masked = true) (cs : List ℕ) (hnd : cs.Nodup) :
    ∃ cons, (advanceLoop cs l).1 = { l with consumers := cons } ∧
      cons.length = l.consumers.length ∧ ((advanceLoop cs l).2 = false → cons = l.consumers) ∧
      ∀ d < l.consumers.length, (d ∉ cs → Log.con { l with consumers := cons } d = l.con d) ∧
        ∃ y, Log.con { l with consumers := cons } d = { l.con d with committed := y } ∧
          SkipTo l d (l.con d).committed y := by
  induction cs generalizing l with
  | nil => exact ⟨l.consumers, rfl, rfl, fun _ => rfl, fun d _ => ⟨fun _ => rfl, _, rfl, Or.inl rfl⟩⟩
  | cons c cs ih =>
    obtain ⟨hc, hnd⟩ := nodup_cons.mp hnd
    obtain ⟨y, hy, heq⟩ := skipLaggingLocked_spec hm c
    obtain ⟨cons, h1, h2, h3, h4⟩ :=
      ih (l := l.updCon c (fun con => { con with committed := y })) hm hnd
    have hlen : (l.updCon c (fun con => { con with committed := y })).consumers.length =
        l.consumers.length := by simp
    refine ⟨cons, ?_, h2.trans hlen, ?_, ?_⟩
    · simp only [advanceLoop, heq, h1]
      rfl
    · simp only [advanceLoop, heq, Bool.or_eq_false_iff, decide_eq_false_iff_not, not_not]
      rintro ⟨rfl, hrest⟩
      rw [h3 hrest, updCon_committed_self]
    · intro d hd
      obtain ⟨h5, z, h6, h7⟩ := h4 d (hlen ▸ hd)
      by_cases hdc : d = c
      · subst hdc
        refine ⟨fun hn => absurd mem_cons_self hn, y, ?_, hy⟩
        exact (h5 hc).trans (con_updCon_self l _ hd)
      · have hcon := con_updCon_of_ne l (fun con => { con with committed := y }) hdc
        rw [hcon] at h5 h6 h7
        refine ⟨fun hn => h5 (fun h => hn (mem_cons_of_mem _ h)), z, h6, ?_⟩
        exact SkipTo.congr rfl rfl rfl (fun _ => rfl) h7

theorem LogInvariant.advanceSkipped (h : LogInvariant l frames marks) :
    LogInvariant l.advanceSkipped.1 frames marks ∧
      Shifts (fun d y => SkipTo l d (l.con d).committed y) l l.advanceSkipped.1 ∧
      ∀ req ∈ l.advanceSkipped.2, ClearOk l.advanceSkipped.1 req := by
  have hstay : LogInvariant l frames marks ∧
      Shifts (fun d y => SkipTo l d (l.con d).committed y) l l ∧
      ∀ req ∈ (none : Option ClearReq), ClearOk l req :=
    ⟨h, h.shifts_refl (fun d _ => Or.inl rfl), by simp⟩
  unfold Log.advanceSkipped
  split
  · rename_i hm
    obtain ⟨cons, h1, h2, h3, h4⟩ := advanceLoop_spec hm _ (nodup_range (n := l.consumers.length))
    simp only [h1]
    split
    · apply h.shift h2
      intro d hd
      obtain ⟨-, y, h5, h6⟩ := h4 d hd
      have hp := h.position d hd
      exact ⟨y, h5, h6, hp.one_le.trans h6.le, h6.le_leo hp.committed_le⟩
    · rename_i hmoved
      rw [h3 (by simpa using hmoved)]
      exact hstay
  · exact hstay

end Skip

section Commit
variable {l : Log} {frames : List Bytes} {marks : List Mask}

@[grind =] def OnlyMoves (l : Log) (c : ℕ) (P : ℕ → Prop) (d y : ℕ) : Prop :=
  if d = c then P y else y = (l.con d).committed

variable {c off : ℕ}

theorem LogInvariant.shift_one (h : LogInvariant l frames marks) {y : ℕ}
    (hc : c < l.consumers.length) {P : ℕ → Prop} (hP : P y) (h1 : 1 ≤ y) (h2 : y ≤ l.leo) :
    let r := (l.updCon c (fun con => { con with committed := y })).updateLWMLocked
    LogInvariant r.1 frames marks ∧ Shifts (OnlyMoves l c P) l r.1 ∧ ∀ req ∈ r.2, ClearOk r.1 req := by
  have hlen : (l.consumers.modify c (fun con => { con with committed := y })).length =
      l.consumers.length := by simp
  apply h.shift hlen
  intro d hd
  by_cases hdc : d = c
  · subst hdc
    exact ⟨y, con_updCon_self l _ hd, by simp [OnlyMoves, hP], h1, h2⟩
  · have hp := h.position d hd
    exact ⟨(l.con d).committed, con_updCon_of_ne l _ hdc, by simp [OnlyMoves, hdc], hp.one_le,
      hp.committed_le⟩

/-- `Commit` that moves the position: to `off` and on over records without the bit. -/
theorem LogInvariant.commit (h : LogInvariant l frames marks)
    {r : Log × Option ClearReq} (hr : l.commit c off = .ok r) :
    c < l.consumers.length ∧ off ≤ l.leo ∧ LogInvariant r.1 frames marks ∧
      Shifts (OnlyMoves l c (fun y => if off ≤ (l.con c).committed then y = (l.con c).committed
        else SkipTo l c off y)) l r.1 ∧ ∀ req ∈ r.2, ClearOk r.1 req := by
  unfold Log.commit at hr
  split at hr
  · cases hr
  rename_i hc
  split at hr
  · cases hr
  rename_i hoff
  refine ⟨by omega, by omega, ?_⟩
  have hc : c < l.consumers.length := by omega
  split at hr
  · rename_i hle
    cases hr
    refine ⟨h, h.shifts_refl ?_, by simp⟩
    intro d _
    by_cases hdc : d = c
    · simp [OnlyMoves, hdc, hle]
    · simp [OnlyMoves, hdc]
  · rename_i hgt
    simp only [Except.ok.injEq] at hr
    subst hr
    have hp := h.position c hc
    cases hm : l.masked with
    | false =>
      rw [show (l.updCon c (fun con => { con with committed := off })).masked = false from hm]
      simp only [Bool.false_eq_true, if_false]
      refine h.shift_one hc ?_ (by have := hp.one_le; omega) (by omega)
      rw [if_neg hgt]
      exact Or.inl rfl
    | true =>
      rw [show (l.updCon c (fun con => { con with committed := off })).masked = true from hm]
      simp only [if_true]
      obtain ⟨y, hy, heq⟩ := skipLaggingLocked_spec
        (l := l.updCon c (fun con => { con with committed := off })) hm c
      rw [heq, con_updCon_self l _ hc] at *
      have hy' : SkipTo l c off y := SkipTo.congr rfl rfl rfl (fun _ => rfl) hy
      have htwice : (l.updCon c (fun con => { con with committed := off })).updCon c
          (fun con => { con with committed := y }) =
            l.updCon c (fun con => { con with committed := y }) := by
        simp only [Log.updCon, modify_modify_eq]
        rfl
      rw [htwice]
      refine h.shift_one hc ?_ (by have := hp.one_le; have := hy'.le; omega)
        (hy'.le_leo (by omega))
      rw [if_neg hgt]
      exact hy'

theorem observe_committed (lso : ℕ) (con : LogConsumer) : (observe lso con).committed = con.committed := by
  unfold observe
  split
  · rfl
  · simp only
    split <;> rfl

theorem Position.observe {leo lso : ℕ} {con : LogConsumer} (h : Position leo con) (hlso : lso ≤ leo) :
    Position leo (observe lso con) := by
  obtain ⟨h1, h2, h3, h4⟩ := h
  unfold Log.observe
  split
  · exact ⟨h1, h2, h3, h4⟩
  · simp only
    split
    · exact ⟨h1, h2, h3, hlso⟩
    · exact ⟨h1, h2, h3, by simp only; omega⟩

section

variable (h : LogInvariant l frames marks)
include h

theorem LogInvariant.observeLocked (c : ℕ) : LogInvariant (l.observeLocked c) frames marks :=
  h.updCon c (observe_committed l.lso)
    (fun hc => (h.position c hc).observe h.stored.geometry.lso_le_leo)

theorem LogInvariant.markReported (c : ℕ) : LogInvariant (l.markReported c) frames marks := by
  refine h.updCon c (fun _ => rfl) (fun hc => ?_)
  obtain ⟨h1, h2, h3, h4⟩ := h.position c hc
  exact ⟨h1, h2, h3, h4⟩

theorem LogInvariant.markServed (c upTo : ℕ) : LogInvariant (l.markServed c upTo) frames marks := by
  unfold Log.markServed
  split
  · exact h
  · refine h.updCon c (fun _ => rfl) (fun hc => ?_)
    obtain ⟨h1, h2, h3, h4⟩ := h.position c hc
    exact ⟨h1, h2, by simp only; omega, h4⟩

theorem LogInvariant.setConsumerState (c : ℕ)
    (st : LogConsumerState) : LogInvariant (l.setConsumerState c st) frames marks := by
  unfold Log.setConsumerState
  split
  · exact h
  · refine h.updCon c (fun _ => rfl) (fun hc => ?_)
    obtain ⟨h1, h2, h3, h4⟩ := h.position c hc
    exact ⟨h1, h2, h3, h4⟩

theorem LogInvariant.resumeCommit (hc : c < l.consumers.length) (hoff : off ≤ l.leo) :
    LogInvariant (l.resumeCommit c off).1 frames marks ∧
      Shifts (OnlyMoves l c (fun y => y = max (l.con c).committed off)) l (l.resumeCommit c off).1 ∧
      ∀ req ∈ (l.resumeCommit c off).2, ClearOk (l.resumeCommit c off).1 req := by
  unfold Log.resumeCommit
  split
  · have hp := h.position c hc
    exact h.shift_one hc (by omega) (by have := hp.one_le; omega) hoff
  · refine ⟨h, h.shifts_refl ?_, by simp⟩
    intro d _
    by_cases hdc : d = c
    · subst hdc
      simp only [OnlyMoves, if_true]
      omega
    · simp [OnlyMoves, hdc]

end

theorem updCon_clearOk {f : LogConsumer → LogConsumer} {req : ClearReq} :
    ClearOk (l.updCon c f) req ↔ ClearOk l req :=
  ⟨fun h => ⟨h.1, h.2⟩, fun h => ⟨h.1, h.2⟩⟩

section

variable (h : LogInvariant l frames marks)
include h

theorem LogInvariant.resumeSameEpoch (hc : c < l.consumers.length) (hoff : off ≤ l.leo) :
    LogInvariant (l.resumeSameEpoch c off).1 frames marks ∧
      ∀ req ∈ (l.resumeSameEpoch c off).2.2, ClearOk (l.resumeSameEpoch c off).1 req := by
  obtain ⟨h1, -, h3⟩ := h.resumeCommit hc hoff
  unfold Log.resumeSameEpoch
  simp only
  split
  · exact ⟨h1.observeLocked c, fun req hreq => (updCon_clearOk).mpr (h3 req hreq)⟩
  split
  · exact ⟨(h1.observeLocked c).markReported c,
      fun req hreq => (updCon_clearOk).mpr ((updCon_clearOk).mpr (h3 req hreq))⟩
  · exact ⟨h1.observeLocked c, fun req hreq => (updCon_clearOk).mpr (h3 req hreq)⟩

theorem LogInvariant.resumeOtherEpoch (c lastEpoch : ℕ) :
    LogInvariant (l.resumeOtherEpoch c lastEpoch).1 frames marks := by
  unfold Log.resumeOtherEpoch
  simp only
  split
  · exact (h.observeLocked c).markReported c
  split
  · exact h.observeLocked c
  · exact h.observeLocked c

theorem LogInvariant.resume {lastEpoch : ℕ}
    {r : Log × Resume × Option ClearReq} (hr : l.resume c lastEpoch off = .ok r) :
    LogInvariant r.1 frames marks ∧ ∀ req ∈ r.2.2, ClearOk r.1 req := by
  unfold Log.resume at hr
  split at hr
  · cases hr
  rename_i hc
  simp only at hr
  split at hr
  · generalize (if off = 0 then 1 else off) = off at hr
    split at hr
    · cases hr
    · cases hr
      exact h.resumeSameEpoch (by omega) (by omega)
  · cases hr
    exact ⟨h.resumeOtherEpoch c lastEpoch, by simp⟩

theorem LogInvariant.resume_con_of_ne {d lastEpoch : ℕ}
    (hcd : c ≠ d) (hc : c < l.consumers.length) {r : Log × Resume × Option ClearReq}
    (hr : l.resume d lastEpoch off = .ok r) : r.1.con c = l.con c := by
  unfold Log.resume at hr
  split at hr
  · cases hr
  rename_i hd
  simp only at hr
  split at hr
  · generalize (if off = 0 then 1 else off) = o at hr
    split at hr
    · cases hr
    rename_i hoff
    cases hr
    obtain ⟨-, hshift, -⟩ := h.resumeCommit (c := d) (by omega) (not_lt.mp hoff)
    obtain ⟨y, h1, hy, -⟩ := hshift.con hc
    rw [Log.OnlyMoves, if_neg hcd] at hy
    have h1 : (l.resumeCommit d o).1.con c = l.con c := by
      rw [h1, hy]
    have h2 : ((l.resumeCommit d o).1.observeLocked d).con c = (l.resumeCommit d o).1.con c :=
      Log.con_updCon_of_ne _ _ hcd
    have h3 : (((l.resumeCommit d o).1.observeLocked d).markReported d).con c =
        ((l.resumeCommit d o).1.observeLocked d).con c := Log.con_updCon_of_ne _ _ hcd
    unfold Log.resumeSameEpoch
    simp only
    split
    · exact h2.trans h1
    split
    · exact h3.trans (h2.trans h1)
    · exact h2.trans h1
  · cases hr
    have h2 : (l.observeLocked d).con c = l.con c := Log.con_updCon_of_ne _ _ hcd
    have h3 : ((l.observeLocked d).markReported d).con c = (l.observeLocked d).con c :=
      Log.con_updCon_of_ne _ _ hcd
    unfold Log.resumeOtherEpoch
    simp only
    split
    · exact h3.trans h2
    split
    · exact h2
    · exact h2

end

end Commit

/-- The masks after a change: read back where the record is still held. -/
@[grind =] def readMarks (l : Log) (marks : List Mask) : List Mask :=
  marks.mapIdx (fun i m => if l.masked = true ∧ l.lso ≤ i + 1 then l.maskAtLocked (i + 1) else m)

/-- `l'` is `l` with bit `c` taken from some records at or above `lso`. -/
structure Sweeps (c : ℕ) (l l' : Log) : Prop where
  rest : l' = { l with heap := l'.heap }
  chunk : ∀ id, (l'.heap id).base = (l.heap id).base ∧ (l'.heap id).slots = (l.heap id).slots ∧
    (l'.heap id).cum = (l.heap id).cum
  below : ∀ id < l.nextChunk, ∀ s < 1024, (l.heap id).base + s < l.lso →
    (l'.heap id).masks s = (l.heap id).masks s
  others : ∀ id s d, d ≠ c → hasBit ((l'.heap id).masks s) d = hasBit ((l.heap id).masks s) d
  cleared : ∀ id s d, hasBit ((l'.heap id).masks s) d = true → hasBit ((l.heap id).masks s) d = true

section Sweep
variable {l : Log} {frames : List Bytes} {marks : List Mask}

theorem Sweeps.refl (c : ℕ) (l : Log) : Sweeps c l l :=
  ⟨rfl, fun _ => ⟨rfl, rfl, rfl⟩, fun _ _ _ _ _ => rfl, fun _ _ _ _ => rfl, fun _ _ _ h => h⟩

theorem Sweeps.field {c : ℕ} {l' : Log} (e : Sweeps c l l') {β : Type} (f : Log → β)
    (hf : ∀ heap, f { l with heap := heap } = f l) : f l' = f l := by
  rw [e.rest]
  exact hf _

theorem Sweeps.trans {c : ℕ} {l₁ l₂ : Log} (e : Sweeps c l l₁) (e' : Sweeps c l₁ l₂) : Sweeps c l l₂ := by
  have hnext := e.field Log.nextChunk (fun _ => rfl)
  have hlso := e.field Log.lso (fun _ => rfl)
  refine ⟨?_, ?_, ?_, ?_, ?_⟩
  · have h1 := e.rest
    have h2 := e'.rest
    rw [h1] at h2
    exact h2
  · intro id
    obtain ⟨h1, h2, h3⟩ := e.chunk id
    obtain ⟨h4, h5, h6⟩ := e'.chunk id
    exact ⟨h4.trans h1, h5.trans h2, h6.trans h3⟩
  · intro id hid s hs hlt
    rw [e'.below id (hnext ▸ hid) s hs (by rw [(e.chunk id).1, hlso]; exact hlt)]
    exact e.below id hid s hs hlt
  · exact fun id s d hd => (e'.others id s d hd).trans (e.others id s d hd)
  · exact fun id s d hd => e.cleared id s d (e'.cleared id s d hd)

/-- `m &^ bit` clears bit `c` and no other. -/
theorem hasBit_andNot (m : Mask) {c d : ℕ} :
    hasBit (m &&& ~~~(1#64 <<< c)) d = (hasBit m d && decide (d ≠ c)) := by
  rw [hasBit_eq_getLsbD, hasBit_eq_getLsbD, BitVec.getLsbD_and, BitVec.getLsbD_not]
  have hpow : (1#64 <<< c) = BitVec.twoPow 64 c := rfl
  rw [hpow, BitVec.getLsbD_twoPow]
  cases hm : m.getLsbD d with
  | false => simp
  | true =>
    have hd : d < 64 := BitVec.lt_of_getLsbD hm
    by_cases hcd : c = d
    · subst hcd
      simp [hd]
    · have : d ≠ c := fun h => hcd h.symm
      simp [hd, hcd, this]

theorem clearBitAt_sweeps (g : Geometry l) (c : ℕ) (drop : Bytes → Bool) {x : ℕ} (hlo : l.lso ≤ x)
    (hhi : x < l.leo) : Sweeps c l (l.clearBitAt c drop x).1 := by
  obtain ⟨-, hid, hbase, hs⟩ := g.locate hlo hhi
  unfold clearBitAt
  split
  · split
    · exact Sweeps.refl c l
    · split
      · refine ⟨rfl, ?_, ?_, ?_, ?_⟩
        · intro id
          by_cases hi : id = l.chunkAt x
          · simp [updChunk, hi]
          · simp [updChunk, Function.update_of_ne hi]
        · intro id _ s _ hlt
          by_cases hi : id = l.chunkAt x
          · have hne : s ≠ l.slotOf x := fun h => by rw [hi, h] at hlt; omega
            simp [updChunk, hi, Function.update_of_ne hne]
          · simp [updChunk, Function.update_of_ne hi]
        · intro id s d hd
          by_cases hi : id = l.chunkAt x
          · by_cases hne : s = l.slotOf x
            · simp [updChunk, hi, hne, maskAtLocked, hasBit_andNot, hd]
            · simp [updChunk, hi, Function.update_of_ne hne]
          · simp [updChunk, Function.update_of_ne hi]
        · intro id s d
          by_cases hi : id = l.chunkAt x
          · by_cases hne : s = l.slotOf x
            · simp only [updChunk, hi, hne, maskAtLocked, Function.update_self, hasBit_andNot,
                Bool.and_eq_true]
              exact fun h => h.1
            · simp [updChunk, hi, Function.update_of_ne hne]
          · simp [updChunk, Function.update_of_ne hi]
      · exact Sweeps.refl c l
  · exact Sweeps.refl c l

theorem Sweeps.geometry {c : ℕ} {l' : Log} (e : Sweeps c l l') (g : Geometry l) : Geometry l' := by
  rw [e.rest]
  refine ⟨g.1, g.2, g.3, g.4, g.5, g.6, g.7, ?_, ?_⟩
  · intro k id hk
    simp only [(e.chunk id).1]
    exact g.attached k id hk
  · intro id hid
    simp only [(e.chunk id).1]
    exact g.full id hid

private theorem clearBitsLoop_sweeps (g : Geometry l) (c : ℕ) (drop : Bytes → Bool) {n x : ℕ}
    (hlo : l.lso ≤ x) (hhi : x + n ≤ l.leo) : Sweeps c l (clearBitsLoop c drop n x l).1 := by
  induction n generalizing l x with
  | zero => exact Sweeps.refl c l
  | succ n ih =>
    have e := clearBitAt_sweeps g c drop hlo (by omega)
    have hlso := e.field Log.lso (fun _ => rfl)
    have hleo := e.field Log.leo (fun _ => rfl)
    exact e.trans (ih (e.geometry g) (by omega) (by omega))

private theorem sweepBits_sweeps (g : Geometry l) (c start : ℕ) (drop : Bytes → Bool) :
    Sweeps c l (l.sweepBits c start drop).1 := by
  unfold sweepBits sweepRange
  simp only
  rcases le_total (max (max start (l.con c).committed) l.lso)
      (min l.leo (max (max start (l.con c).committed) l.lso + l.maxScan)) with h | h
  · exact clearBitsLoop_sweeps g c drop (le_max_right _ _) (by omega)
  · rw [Nat.sub_eq_zero_of_le h]
    exact Sweeps.refl c l

theorem Marked.slot_unique (h : Marked l marks) {id id' s s' : ℕ} (hid : id < l.nextChunk)
    (hid' : id' < l.nextChunk) (hs : s < 1024) (hs' : s' < 1024)
    (heq : (l.heap id).base + s = (l.heap id').base + s') : id = id' ∧ s = s' := by
  rcases Nat.lt_trichotomy id id' with hlt | rfl | hlt
  · have := h.ordered id id' hlt hid'
    omega
  · exact ⟨rfl, by omega⟩
  · have := h.ordered id' id hlt hid
    omega

theorem markAt_readMarks {x : ℕ} (h1 : 1 ≤ x) (hx : x ≤ marks.length) : markAt (readMarks l marks) x =
      if l.masked = true ∧ l.lso ≤ x then l.maskAtLocked x else markAt marks x := by
  obtain ⟨k, rfl⟩ : ∃ k, x = k + 1 := ⟨x - 1, by omega⟩
  have hk : k < marks.length := hx
  simp [markAt, readMarks, getD_eq_getElem?_getD, hk]

theorem Sweeps.marked {c : ℕ} {l' : Log} (e : Sweeps c l l') (h : Marked l marks) (g : Geometry l) :
    Marked l' (readMarks l' marks) := by
  have hleo := e.field Log.leo (fun _ => rfl)
  have hlso := e.field Log.lso (fun _ => rfl)
  have hnext := e.field Log.nextChunk (fun _ => rfl)
  have hmasked := e.field Log.masked (fun _ => rfl)
  have hleo' := h.leo_eq
  refine ⟨by rw [hleo, hleo']; simp [readMarks], ?_, ?_, ?_⟩
  · intro id hid
    rw [(e.chunk id).1]
    exact h.one_le_base id (hnext ▸ hid)
  · intro i j hij hj
    rw [(e.chunk i).1, (e.chunk j).1]
    exact h.ordered i j hij (hnext ▸ hj)
  · intro hm id hid s hs hlt
    have h1 := h.one_le_base id (hnext ▸ hid)
    rw [(e.chunk id).1] at hlt ⊢
    rw [hleo] at hlt
    rw [markAt_readMarks (by omega) (by omega), hlso]
    split
    · rename_i hheld
      obtain ⟨-, hck, hbase, hslot⟩ := (e.geometry g).locate (hlso ▸ hheld.2) (hleo ▸ hlt)
      rw [(e.chunk _).1] at hbase
      obtain ⟨hid_eq, hs_eq⟩ :=
        h.slot_unique (hnext ▸ hck) (hnext ▸ hid) hslot hs hbase
      rw [maskAtLocked, hid_eq, hs_eq]
    · rename_i hgone
      rw [hm] at hgone
      rw [e.below id (hnext ▸ hid) s hs (by simp only [true_and] at hgone; omega)]
      exact h.mask_eq (hmasked ▸ hm) id (hnext ▸ hid) s hs hlt

theorem Sweeps.invariant {c : ℕ} {l' : Log} (e : Sweeps c l l') (h : LogInvariant l frames marks) :
    LogInvariant l' frames (readMarks l' marks) := by
  have hmarked := e.marked h.marked h.stored.geometry
  have hst := h.stored.withHeap e.chunk
  have heq := e.rest
  generalize hmk : readMarks l' marks = marks' at hmarked ⊢
  rw [heq] at hmarked ⊢
  exact ⟨⟨hst, hmarked, h.counted, h.position, h.one_le_lwm, h.lwm_le_lso, h.peers, h.everyone⟩,
    h.bounded, h.lwm_eq⟩

/-- `ClearConsumerBits` is a sweep followed by a shift of consumer `c`. -/
theorem LogInvariant.clearConsumerBits (h : LogInvariant l frames marks) {c : ℕ} (start : ℕ)
    (drop : Bytes → Bool) (hm : l.masked = true) (hc : c < l.consumers.length) :
    let l₁ := (l.sweepBits c start drop).1
    let r := l.clearConsumerBits c start drop
    Sweeps c l l₁ ∧ LogInvariant l₁ frames (readMarks l₁ marks) ∧
      LogInvariant r.1 frames (readMarks l₁ marks) ∧
      Shifts (OnlyMoves l₁ c (SkipTo l₁ c (l₁.con c).committed)) l₁ r.1 ∧
      ∀ req ∈ r.2.2, ClearOk r.1 req := by
  intro l₁ r
  have e : Sweeps c l l₁ := sweepBits_sweeps h.stored.geometry c start drop
  have h₁ := e.invariant h
  have hc₁ : c < l₁.consumers.length := by rw [e.field Log.consumers (fun _ => rfl)]; exact hc
  have hm₁ : l₁.masked = true := (e.field Log.masked (fun _ => rfl)).trans hm
  have hstay : LogInvariant l₁ frames (readMarks l₁ marks) ∧
      Shifts (OnlyMoves l₁ c (SkipTo l₁ c (l₁.con c).committed)) l₁ l₁ ∧
      ∀ req ∈ (none : Option ClearReq), ClearOk l₁ req := by
    refine ⟨h₁, h₁.shifts_refl ?_, by simp⟩
    intro d _
    by_cases hdc : d = c
    · subst hdc
      simp only [OnlyMoves, if_true]
      exact Or.inl rfl
    · simp [OnlyMoves, hdc]
  refine ⟨e, h₁, ?_⟩
  have hguard : (!l.masked || decide (c ≥ l.consumers.length)) = false := by
    simp [hm, hc]
  have hr : r = l.clearConsumerBits c start drop := rfl
  simp only [Log.clearConsumerBits, hguard, Bool.false_eq_true, if_false] at hr
  rw [hr]
  simp only
  split
  · obtain ⟨y, hy, heq⟩ := skipLaggingLocked_spec hm₁ c
    have hp := h₁.position c hc₁
    rw [show (l.sweepBits c start drop).1 = l₁ from rfl, heq]
    simp only
    split
    · exact h₁.shift_one hc₁ hy (hp.one_le.trans hy.le) (hy.le_leo hp.committed_le)
    · rename_i hmoved
      simp only [decide_eq_true_eq, not_not] at hmoved
      subst hmoved
      rw [updCon_committed_self]
      exact hstay
  · exact hstay

end Sweep

end Log
end MonsterMQ.PeerLink
