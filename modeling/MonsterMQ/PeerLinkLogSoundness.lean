import MonsterMQ.PeerLinkLogRuns

/-!
# Every run keeps the log sound

`Sound` adds the calls in progress to the representation invariant: deferred clears stay below `lso`, the
window copied by an open read still names the chunks of its offsets, and `reading` counts the open reads.
-/

namespace MonsterMQ.PeerLink

open LittleEndian List

namespace Log

/-- What all operations have in common: bounds and chunks only grow. -/
structure Extends (l l' : Log) : Prop where
  grows : Grows l l'
  lso_le : l.lso ≤ l'.lso
  leo_le : l.leo ≤ l'.leo
  length_eq : l'.consumers.length = l.consumers.length
  epoch : l'.epoch = l.epoch
  masked : l'.masked = l.masked

theorem Extends.refl (l : Log) : Extends l l :=
  ⟨⟨le_rfl, fun _ _ => rfl⟩, le_rfl, le_rfl, rfl, rfl, rfl⟩

theorem Extends.trans {l l₁ l₂ : Log} (e : Extends l l₁) (e' : Extends l₁ l₂) : Extends l l₂ :=
  ⟨e.1.trans e'.1, e.2.trans e'.2, e.3.trans e'.3, e'.4.trans e.4, e'.5.trans e.5, e'.6.trans e.6⟩

structure Quiet (l l' : Log) : Prop extends Extends l l' where
  reading : ∀ c < l.consumers.length, (l'.con c).reading = (l.con c).reading

theorem Quiet.refl (l : Log) : Quiet l l := ⟨Extends.refl l, fun _ _ => rfl⟩

theorem Quiet.trans {l l₁ l₂ : Log} (e : Quiet l l₁) (e' : Quiet l₁ l₂) : Quiet l l₂ :=
  ⟨e.toExtends.trans e'.toExtends,
    fun c hc => (e'.reading c (e.length_eq ▸ hc)).trans (e.reading c hc)⟩

section Effects
variable {l l' : Log} {frames : List Bytes} {marks : List Mask}

theorem extends_updCon (l : Log) (c : ℕ) (f : LogConsumer → LogConsumer) : Extends l (l.updCon c f) :=
  ⟨⟨le_rfl, fun _ _ => rfl⟩, le_rfl, le_rfl, by simp, rfl, rfl⟩

theorem quiet_updCon (l : Log) (c : ℕ) {f : LogConsumer → LogConsumer}
    (hf : ∀ con, (f con).reading = con.reading) : Quiet l (l.updCon c f) := by
  refine ⟨extends_updCon l c f, fun d hd => ?_⟩
  by_cases hdc : d = c
  · subst hdc
    rw [con_updCon_self l f hd, hf]
  · rw [con_updCon_of_ne l f hdc]

theorem observe_reading (lso : ℕ) (con : LogConsumer) : (observe lso con).reading = con.reading := by
  unfold observe
  split
  · rfl
  · simp only
    split <;> rfl

theorem quiet_observeLocked (l : Log) (c : ℕ) : Quiet l (l.observeLocked c) :=
  quiet_updCon l c (observe_reading l.lso)

theorem Shifts.quiet {P : ℕ → ℕ → Prop} (h : Shifts P l l') : Quiet l l' := by
  obtain ⟨e, hleo, hheap, hnext, -, -⟩ := h.fields
  have hlen := h.length_eq
  have hlso : l.lso ≤ l'.lso := by
    obtain ⟨cons, -, -, ht⟩ := h
    rw [ht.lso]
    exact le_max_left _ _
  refine ⟨⟨⟨hnext.ge, fun id _ => by rw [hheap]⟩, hlso, hleo.ge, hlen, e.epoch, e.masked⟩, ?_⟩
  intro c hc
  obtain ⟨y, hy, -⟩ := h.con hc
  rw [hy]

theorem evictCharges_reading (masked : Bool) (marks : List Mask) (k x c : ℕ) (con : LogConsumer) :
    (evictCharges masked marks k x c con).reading = con.reading := by
  have hone : ∀ x mask con, (accountEvict x mask c con).reading = con.reading := by
    intro x mask con
    unfold accountEvict
    split <;> rfl
  have hrange : ∀ k x con, (chargeRange marks k x c con).reading = con.reading := by
    intro k
    induction k with
    | zero => exact fun _ _ => rfl
    | succ k ih =>
      intro x con
      rw [chargeRange, ih, hone]
  unfold evictCharges
  split
  · exact hrange k x con
  · rfl

variable {mask : Mask}

theorem Appends.con {k : ℕ} (e : Appends marks mask k l l') {c : ℕ} (hc : c < l.consumers.length) :
    l'.con c = evictCharges l.masked (marks ++ [mask]) k
      (max l.lso (l.skipAll l.leo mask).minCommitted) c
      (if l.masked then skipCaughtUp l.leo mask c (l.con c) else l.con c) := by
  have hlen : (l.skipAll l.leo mask).consumers.length = l.consumers.length := by
    rw [skipAll_consumers]
    split <;> simp
  have hlen' : c < l'.consumers.length := by
    rw [e.consumers, length_mapIdx, hlen]
    exact hc
  rw [con_eq_getElem l' hlen', con_eq_getElem l hc]
  simp only [e.consumers, getElem_mapIdx, skipAll_consumers]
  congr 1
  split <;> simp

theorem Appends.quiet {k : ℕ} (e : Appends marks mask k l l') : Quiet l l' := by
  have hlen : l'.consumers.length = l.consumers.length := by
    rw [e.consumers, length_mapIdx, skipAll_consumers]
    split <;> simp
  refine ⟨⟨e.grows, ?_, by rw [e.leo]; omega, hlen, e.setup.epoch, e.setup.masked⟩, ?_⟩
  · rw [e.lso]
    omega
  · intro c hc
    rw [e.con hc, evictCharges_reading]
    unfold skipCaughtUp
    split
    · split <;> rfl
    · rfl

theorem Sweeps.quiet {c : ℕ} (e : Sweeps c l l') : Quiet l l' := by
  have hcons := e.field Log.consumers (fun _ => rfl)
  refine ⟨⟨⟨(e.field Log.nextChunk (fun _ => rfl)).ge, fun id _ => (e.chunk id).1⟩,
    (e.field Log.lso (fun _ => rfl)).ge, (e.field Log.leo (fun _ => rfl)).ge, by rw [hcons],
    e.field Log.epoch (fun _ => rfl), e.field Log.masked (fun _ => rfl)⟩, ?_⟩
  intro d _
  simp only [Log.con, hcons]

private theorem quiet_clearSlot (l : Log) (id i : ℕ) : Quiet l (l.clearSlot id i) := by
  refine ⟨⟨⟨le_rfl, fun j _ => ?_⟩, le_rfl, le_rfl, rfl, rfl, rfl⟩, fun _ _ => rfl⟩
  by_cases hj : j = id
  · simp [Log.clearSlot, updChunk, hj]
  · simp [Log.clearSlot, updChunk, Function.update_of_ne hj]

/-- Clearing slots below `lso` keeps the invariant. -/
theorem LogInvariant.clearSlot (h : LogInvariant l frames marks) {id i : ℕ}
    (hi : (l.heap id).base + i < l.lso) : LogInvariant (l.clearSlot id i) frames marks := by
  refine ⟨⟨h.stored.clearSlot hi, ?_, h.counted, h.position, h.one_le_lwm, h.lwm_le_lso, h.peers,
    h.everyone⟩, h.bounded, h.lwm_eq⟩
  refine h.marked.congr rfl rfl rfl ?_
  intro j
  by_cases hj : j = id
  · simp [Log.clearSlot, updChunk, hj]
  · simp [Log.clearSlot, updChunk, Function.update_of_ne hj]

theorem quiet_markReported (l : Log) (c : ℕ) : Quiet l (l.markReported c) :=
  quiet_updCon l c (fun _ => rfl)

variable {off : ℕ}

theorem LogInvariant.quiet_resume (h : LogInvariant l frames marks) {c lastEpoch : ℕ}
    {r : Log × Resume × Option ClearReq} (hr : l.resume c lastEpoch off = .ok r) : Quiet l r.1 := by
  unfold Log.resume at hr
  split at hr
  · cases hr
  rename_i hc
  simp only at hr
  split at hr
  · generalize (if off = 0 then 1 else off) = off at hr
    split at hr
    · cases hr
    · rename_i hoff
      cases hr
      have hq := (h.resumeCommit (c := c) (by omega) (by omega : off ≤ l.leo)).2.1.quiet
      have hobs := hq.trans (quiet_observeLocked _ c)
      unfold Log.resumeSameEpoch
      simp only
      split
      · exact hobs
      split
      · exact hobs.trans (quiet_markReported _ c)
      · exact hobs
  · cases hr
    have hobs := quiet_observeLocked l c
    unfold Log.resumeOtherEpoch
    simp only
    split
    · exact hobs.trans (quiet_markReported _ c)
    split
    · exact hobs
    · exact hobs

private theorem quiet_markServed (l : Log) (c upTo : ℕ) : Quiet l (l.markServed c upTo) := by
  unfold Log.markServed
  split
  · exact Quiet.refl l
  · exact quiet_updCon l c (fun _ => rfl)

private theorem quiet_setConsumerState (l : Log) (c : ℕ) (st : LogConsumerState) :
    Quiet l (l.setConsumerState c st) := by
  unfold Log.setConsumerState
  split
  · exact Quiet.refl l
  · exact quiet_updCon l c (fun _ => rfl)

private theorem quiet_observeConsumer (l : Log) (c : ℕ) : Quiet l (l.observeConsumer c) := by
  unfold Log.observeConsumer
  split
  · exact Quiet.refl l
  · exact quiet_observeLocked l c

theorem LogInvariant.withCounters (h : LogInvariant l frames marks) (a b d : ℕ)
    (f : LogKind → ℕ) : LogInvariant { l with
      droppedSize := a, droppedInv := b, uncaptured := d, appended := f } frames marks := by
  have e : SameStore l { l with droppedSize := a, droppedInv := b, uncaptured := d, appended := f } :=
    ⟨rfl, rfl, rfl, rfl, rfl, rfl, rfl, rfl, rfl, rfl, rfl⟩
  exact ⟨⟨e.stored h.stored, h.marked.congr rfl rfl rfl (fun _ => ⟨rfl, rfl⟩), h.counted, h.position,
    h.one_le_lwm, h.lwm_le_lso, h.peers, h.everyone⟩, e.bounded h.bounded, h.lwm_eq⟩

variable {frame : Bytes} {kind : LogKind}

theorem appendMask_rejected (hr : (l.appendMask frame kind mask).2.1 = none) :
    ∃ a b d, (l.appendMask frame kind mask).1 =
      { l with droppedSize := a, droppedInv := b, uncaptured := d } ∧
        (l.appendMask frame kind mask).2.2 = none := by
  unfold Log.appendMask at hr ⊢
  split
  · exact ⟨_, _, _, rfl, rfl⟩
  split
  · exact ⟨_, _, _, rfl, rfl⟩
  split
  · exact ⟨_, _, _, rfl, rfl⟩
  · rename_i h1 h2 h3
    rw [if_neg h1, if_neg h2, if_neg h3] at hr
    simp only at hr
    split at hr <;> cases hr

theorem appendMask_accepted (hr : (l.appendMask frame kind mask).2.1 = some off) :
    off = l.leo ∧ frame.length ≤ l.maxRecordBytes ∧ wholeFrame frame = true ∧ ∃ f,
      (l.consumers = [] ∧ l.appendMask frame kind mask = ({ l with
        appended := f, leo := l.leo + 1, lso := l.leo + 1, lwm := l.leo + 1
        trimmed := l.trimmed + 1 }, some l.leo, none)) ∨
      (l.consumers ≠ [] ∧ l.appendMask frame kind mask =
        ((((openChunk { l with appended := f }).writeRecord frame mask).settleAppend l.leo mask).1,
          some l.leo,
          (((openChunk { l with appended := f }).writeRecord frame mask).settleAppend l.leo mask).2)) := by
  unfold Log.appendMask at hr ⊢
  split at hr
  · cases hr
  rename_i h1
  split at hr
  · cases hr
  rename_i h2
  split at hr
  · cases hr
  rename_i h3
  rw [if_neg h1, if_neg h2, if_neg h3]
  simp only at hr ⊢
  by_cases h0 : l.consumers = []
  · have hemp : l.consumers.isEmpty = true := by simp [h0]
    simp only [hemp, if_true, Option.some.injEq] at hr ⊢
    exact ⟨hr.symm, by omega, by simpa using h1, _, Or.inl ⟨h0, rfl⟩⟩
  · have hemp : l.consumers.isEmpty = false := by simpa using h0
    simp only [hemp, Bool.false_eq_true, if_false, Option.some.injEq] at hr ⊢
    exact ⟨hr.symm, by omega, by simpa using h1, _, Or.inr ⟨h0, rfl⟩⟩

theorem LogInvariant.appendMask (h : LogInvariant l frames marks)
    (hr : (l.appendMask frame kind mask).2.1 = some off) :
    LogInvariant (l.appendMask frame kind mask).1 (frames ++ [frame]) (marks ++ [mask]) ∧
      (∃ k, Appends marks mask k l (l.appendMask frame kind mask).1) ∧
      ∀ req ∈ (l.appendMask frame kind mask).2.2,
        ClearOk (l.appendMask frame kind mask).1 req := by
  obtain ⟨-, hsize, -, f, ⟨h0, -⟩ | ⟨-, heq⟩⟩ := appendMask_accepted hr
  · exact absurd h0 h.peers
  · rw [heq]
    have h' : LogInvariant { l with appended := f } frames marks :=
      h.withCounters l.droppedSize l.droppedInv l.uncaptured f
    obtain ⟨h1, ⟨k, e⟩, h3⟩ := h'.storeAndSettle mask hsize
    refine ⟨h1, ⟨k, ?_⟩, h3⟩
    have hcons : (skipAll { l with appended := f } l.leo mask).consumers =
        (l.skipAll l.leo mask).consumers := by
      rw [skipAll_consumers, skipAll_consumers]
    have hmin : (skipAll { l with appended := f } l.leo mask).minCommitted =
        (l.skipAll l.leo mask).minCommitted := minCommitted_congr (by rw [hcons])
    obtain ⟨e1, e2, e3, e4, e5, e6, e7⟩ := e
    simp only [hmin, hcons] at e2 e4
    obtain ⟨s1, s2, s3, s4, s5, s6, s7, s8, s9⟩ := e5
    exact ⟨e1, e2, e3, e4, ⟨s1, s2, s3, s4, s5, s6, s7, s8, s9⟩, ⟨e6.1, e6.2⟩, e7⟩

theorem Idle.appendMask (h : Idle l frames marks) (hr : (l.appendMask frame kind mask).2.1 = some off) :
    Idle (l.appendMask frame kind mask).1 (frames ++ [frame]) (marks ++ [mask]) ∧
      Quiet l (l.appendMask frame kind mask).1 ∧ (l.appendMask frame kind mask).2.2 = none := by
  obtain ⟨-, -, -, f, ⟨-, heq⟩ | ⟨h0, -⟩⟩ := appendMask_accepted hr
  · rw [heq]
    obtain ⟨h1, h2, h3, h4, h5, h6, h7, h8, h9, h10⟩ := h
    refine ⟨⟨h1, by simp [h2], by simp [h3], rfl, rfl, h6, h7, h8, by simp only; omega, h10⟩, ?_, rfl⟩
    exact ⟨⟨⟨le_rfl, fun _ _ => rfl⟩, by simp only; omega, Nat.le_succ _, rfl, rfl, rfl⟩,
      fun _ _ => rfl⟩
  · exact absurd h.consumers_eq h0

end Effects

structure ScanOk (l : Log) (call : ReadCall) (s : ReadScan) : Prop where
  one_le_start : 1 ≤ call.start
  base_eq : s.base = max call.start s.lso
  lso_le : s.lso ≤ l.lso
  end_le : s.base + s.n ≤ l.leo
  i_le : s.i ≤ s.n
  ptr_lt : s.ptr ≠ none → s.i < s.n
  dense : call.sparse = false → s.ds = List.range s.i
  taken : s.dst.length = s.ds.length
  place : ∀ x, s.base ≤ x → x < s.base + s.n → ∃ id,
    s.cks[(x - s.fb) / logChunkSlots - s.c0]? = some id ∧ id < l.nextChunk ∧
      (l.heap id).base + (x - s.fb) % logChunkSlots = x

section Scan
variable {l l' : Log} {frames : List Bytes} {marks : List Mask} {call : ReadCall} {s : ReadScan}

theorem ScanOk.extends (h : ScanOk l call s) (e : Extends l l') : ScanOk l' call s := by
  refine ⟨h.one_le_start, h.base_eq, h.lso_le.trans e.lso_le, h.end_le.trans e.leo_le, h.i_le, h.ptr_lt,
    h.dense, h.taken, ?_⟩
  intro x hlo hhi
  obtain ⟨id, h1, h2, h3⟩ := h.place x hlo hhi
  exact ⟨id, h1, h2.trans_le e.grows.nextChunk, by rw [e.grows.base id h2]; exact h3⟩

theorem scanLimit_le (l : Log) (call : ReadCall) (base : ℕ) : l.scanLimit call base ≤ l.leo - base := by
  unfold scanLimit
  split
  · omega
  split
  · exact min_le_left _ _
  · exact min_le_left _ _

theorem scanWindow_spec (g : Geometry l) {base n : ℕ} (hlo : l.lso ≤ base) (hhi : base + n ≤ l.leo)
    {w : ℕ × ℕ × List ℕ} (hw : l.scanWindow base n = w) :
    w.1 ≤ n ∧ (0 < n → 0 < w.1) ∧ ∀ x, base ≤ x → x < base + w.1 → ∃ id,
      w.2.2[(x - l.firstBase) / logChunkSlots - w.2.1]? = some id ∧ id < l.nextChunk ∧
        (l.heap id).base + (x - l.firstBase) % logChunkSlots = x := by
  unfold scanWindow at hw
  by_cases hn : n > 0
  · rw [if_pos hn] at hw
    have hne : l.chunks ≠ [] := fun h => by have := g.empty h; omega
    have hfirst := g.first_le hne
    simp only at hw
    have hplace : ∀ m x, base ≤ x → x < base + n →
        (x - l.firstBase) / 1024 < (base - l.firstBase) / 1024 + m → ∃ id,
        ((l.chunks.drop ((base - l.firstBase) / 1024)).take m)[(x - l.firstBase) / 1024 -
          (base - l.firstBase) / 1024]? = some id ∧ id < l.nextChunk ∧
          (l.heap id).base + (x - l.firstBase) % 1024 = x := by
      intro m x h1 h2 h3
      obtain ⟨hget, hid, hbase, -⟩ := g.locate (x := x) (by omega) (by omega)
      have hq : (base - l.firstBase) / 1024 ≤ (x - l.firstBase) / 1024 :=
        Nat.div_le_div_right (by omega)
      refine ⟨l.chunkAt x, ?_, hid, hbase⟩
      rw [List.getElem?_take, if_pos (by omega), List.getElem?_drop,
        Nat.add_sub_cancel' hq]
      exact hget
    split at hw
    · rename_i hcut
      simp only [logChunkSlots, logReadMaxChunks] at hw hcut ⊢
      subst hw
      refine ⟨by simp only; omega, by simp only; omega, ?_⟩
      intro x h1 h2
      simp only at h2 ⊢
      exact hplace _ x h1 (by omega) (by omega)
    · simp only [logChunkSlots] at hw ⊢
      subst hw
      refine ⟨le_rfl, fun h => h, ?_⟩
      intro x h1 h2
      simp only at h2 ⊢
      refine hplace _ x h1 h2 ?_
      have : (x - l.firstBase) / 1024 ≤ (base + n - 1 - l.firstBase) / 1024 :=
        Nat.div_le_div_right (by omega)
      omega
  · rw [if_neg hn] at hw
    subst hw
    have : n = 0 := by omega
    subst this
    exact ⟨le_rfl, fun h => h, fun x h1 h2 => absurd h2 (by simp only; omega)⟩

theorem readSnapshot_eq {r : Log × ReadScan} (hr : l.readSnapshot call = .ok r) :
    1 ≤ call.start ∧ call.start ≤ l.leo ∧
      r.1 = l.updCon call.c (fun con =>
        { observe l.lso con with reading := (observe l.lso con).reading + 1 }) := by
  unfold Log.readSnapshot at hr
  split at hr
  · cases hr
  · rename_i hstart
    simp only [Except.ok.injEq] at hr
    subst hr
    refine ⟨by omega, by omega, ?_⟩
    simp only [Log.observeLocked, Log.updCon, modify_modify_eq]
    rfl

theorem LogInvariant.readSnapshot (h : LogInvariant l frames marks) {r : Log × ReadScan}
    (hr : l.readSnapshot call = .ok r) :
    LogInvariant r.1 frames marks ∧ Extends l r.1 ∧ ScanOk l call r.2 := by
  obtain ⟨h1, h2, heq⟩ := readSnapshot_eq hr
  refine ⟨?_, ?_, ?_⟩
  · rw [heq]
    refine h.updCon call.c (observe_committed l.lso) (fun hc => ?_)
    obtain ⟨p1, p2, p3, p4⟩ := (h.position call.c hc).observe h.stored.geometry.lso_le_leo
    exact ⟨p1, p2, p3, p4⟩
  · rw [heq]
    exact extends_updCon l call.c _
  · unfold Log.readSnapshot at hr
    rw [if_neg (by omega)] at hr
    simp only [Except.ok.injEq] at hr
    subst hr
    have hle := h.stored.geometry.lso_le_leo
    have hlim := scanLimit_le l call (max call.start l.lso)
    obtain ⟨w1, -, w2⟩ := scanWindow_spec (n := l.scanLimit call (max call.start l.lso))
      h.stored.geometry (le_max_right call.start l.lso) (by omega) rfl
    exact ⟨h1, rfl, le_rfl, by simp only; omega, Nat.zero_le _, fun hp => absurd rfl hp,
      fun _ => rfl, rfl, w2⟩

theorem advance_cases (l : Log) (call : ReadCall) (s : ReadScan) : s.advance l call = s ∨
      (s.running = true ∧ s.ptr = none ∧ s.advance l call = s.loadSlot l) ∨
      (s.running = true ∧ ∃ p, s.ptr = some p ∧
        (s.advance l call = { s with done := true, ptr := none } ∨
          (call.sparse = true ∧ hasBit ((l.heap s.slotRef.1).masks s.slotRef.2) call.c = false ∧
            s.advance l call = { s with skipped := true, i := s.i + 1, ptr := none }) ∨
          ((call.sparse = true → hasBit ((l.heap s.slotRef.1).masks s.slotRef.2) call.c = true) ∧
            ∃ done, s.advance l call = { s.take p with done := done }))) := by
  unfold ReadScan.advance
  split
  · rename_i hrun
    cases hp : s.ptr with
    | none => exact Or.inr (Or.inl ⟨hrun, rfl, rfl⟩)
    | some p =>
      refine Or.inr (Or.inr ⟨hrun, p, rfl, ?_⟩)
      cases hsp : call.sparse with
      | false =>
        simp only [Bool.false_eq_true, if_false, ReadScan.takeDense]
        split
        · exact Or.inl rfl
        · exact Or.inr (Or.inr ⟨by simp, s.done, rfl⟩)
      | true =>
        simp only [if_true, ReadScan.takeSparse]
        by_cases hbit : hasBit ((l.heap s.slotRef.1).masks s.slotRef.2) call.c = false
        · rw [if_pos hbit]
          split
          · exact Or.inl rfl
          · exact Or.inr (Or.inl ⟨trivial, hbit, rfl⟩)
        · rw [if_neg hbit]
          generalize (if s.skipped = true then frameSize p + 4 else frameSize p) = cost
          split
          · exact Or.inl rfl
          · refine Or.inr (Or.inr ⟨fun _ => by simpa using hbit, ?_⟩)
            split
            · exact ⟨true, rfl⟩
            · exact ⟨s.done, rfl⟩
  · exact Or.inl rfl

theorem loadSlot_cases (l : Log) (s : ReadScan) : s.loadSlot l = { s with truncated := true, done := true } ∨
      ∃ p, (l.heap s.slotRef.1).slots s.slotRef.2 = some p ∧ s.loadSlot l = { s with ptr := some p } := by
  unfold ReadScan.loadSlot
  split
  · exact Or.inl rfl
  · rename_i p hp
    exact Or.inr ⟨p, hp, rfl⟩

section

variable (h : ScanOk l call s)
include h

theorem ScanOk.advance : ScanOk l call (s.advance l call) := by
  obtain ⟨h1, h2, h3, h4, h5, h6, h7, h8, h9⟩ := h
  rcases advance_cases l call s with heq | ⟨hrun, -, heq⟩ | ⟨hrun, p, hp, heq | ⟨hsp, -, heq⟩ | ⟨-, done, heq⟩⟩
  · rw [heq]
    exact ⟨h1, h2, h3, h4, h5, h6, h7, h8, h9⟩
  · have hlt : s.i < s.n := by
      simp only [ReadScan.running, Bool.and_eq_true, decide_eq_true_eq] at hrun
      exact hrun.2
    rw [heq]
    rcases loadSlot_cases l s with heq' | ⟨p, -, heq'⟩ <;> rw [heq']
    · exact ⟨h1, h2, h3, h4, h5, h6, h7, h8, h9⟩
    · exact ⟨h1, h2, h3, h4, h5, fun _ => hlt, h7, h8, h9⟩
  · rw [heq]
    exact ⟨h1, h2, h3, h4, h5, fun hn => absurd rfl hn, h7, h8, h9⟩
  · rw [heq]
    have hlt := h6 (by simp [hp])
    exact ⟨h1, h2, h3, h4, hlt, fun hn => absurd rfl hn, fun hd => by simp [hsp] at hd, h8, h9⟩
  · rw [heq]
    have hlt := h6 (by simp [hp])
    refine ⟨h1, h2, h3, h4, hlt, fun hn => absurd rfl hn, ?_, ?_, h9⟩
    · intro hd
      simp only [ReadScan.take, h7 hd, range_succ]
    · simp [ReadScan.take, h8]

theorem ScanOk.span_le : s.span call ≤ s.n := by
  unfold ReadScan.span
  split
  · exact h.i_le
  · rename_i hd
    rw [h.taken, h.dense (by simpa using hd), length_range]
    exact h.i_le

theorem ScanOk.span_eq : s.span call = s.i := by
  unfold ReadScan.span
  split
  · rfl
  · rename_i hd
    rw [h.taken, h.dense (by simpa using hd), length_range]

/-- The mask loaded for offset `base + i` is the one last stored for that record. -/
theorem ScanOk.mask_eq (hv : LogInvariant l frames marks) (hm : l.masked = true)
    (hi : s.i < s.n) : (l.heap s.slotRef.1).masks s.slotRef.2 = markAt marks (s.base + s.i) := by
  obtain ⟨id, h1, h2, h3⟩ := h.place (s.base + s.i) (by omega) (by omega)
  have hid : s.slotRef.1 = id := by
    simp only [ReadScan.slotRef, getD_eq_getElem?_getD, h1, Option.getD_some]
  have hlt : (s.base + s.i - s.fb) % logChunkSlots < 1024 := Nat.mod_lt _ (by decide)
  have hend := h.end_le
  rw [hid, show s.slotRef.2 = (s.base + s.i - s.fb) % logChunkSlots from rfl,
    hv.marked.mask_eq hm id h2 _ hlt (by omega), h3]

end

theorem LogInvariant.readComplete (h : LogInvariant l frames marks) (hs : ScanOk l call s) :
    LogInvariant (l.readComplete call s) frames marks := by
  refine h.updCon call.c (fun _ => rfl) (fun hc => ?_)
  obtain ⟨h1, h2, h3, h4⟩ := h.position call.c hc
  have := hs.span_le
  have := hs.end_le
  exact ⟨h1, h2, by simp only; omega, h4⟩

end Scan

end Log

@[grind =] def ReadPhase.isScanning : ReadPhase → Bool
  | .scanning _ => true
  | _ => false

def ReadPhase.scan? : ReadPhase → Option ReadScan
  | .scanning s => some s
  | _ => none

/-- A read of consumer `c` between its two locked steps. -/
@[grind =] def ReadOp.isOpen (c : ℕ) (r : ReadOp) : Bool := r.call.c = c && r.phase.isScanning

structure ReadOp.Ok (l : Log) (r : ReadOp) : Prop where
  c_lt : r.call.c < l.consumers.length
  sparse : r.call.sparse = true → l.masked = true
  scan : ∀ s ∈ r.phase.scan?, Log.ScanOk l r.call s

theorem ReadOp.Ok.extends {l l' : Log} {r : ReadOp} (h : r.Ok l) (e : Log.Extends l l') : r.Ok l' :=
  ⟨by rw [e.length_eq]; exact h.c_lt, fun hs => e.masked.trans (h.sparse hs),
    fun s hs => (h.scan s hs).extends e⟩

theorem Log.ClearOk.extends {l l' : Log} {req : ClearReq} (h : Log.ClearOk l req)
    (e : Log.Extends l l') : Log.ClearOk l' req := by
  refine ⟨h.chunk_lt.trans_le e.grows.nextChunk, ?_⟩
  rw [e.grows.base _ h.chunk_lt]
  exact h.below.trans e.lso_le

namespace LogSys

def Valid (l : Log) (frames : List Bytes) (marks : List Mask) : Prop :=
  Log.LogInvariant l frames marks ∨ Log.Idle l frames marks

structure Sound (s : LogSys) : Prop where
  valid : Valid s.log s.frames s.marks
  clears : ∀ req ∈ s.clears, Log.ClearOk s.log req
  reads : ∀ r ∈ s.reads, r.Ok s.log
  reading : ∀ c < s.log.consumers.length, (s.log.con c).reading = s.reads.countP (ReadOp.isOpen c)

variable {s : LogSys}

/-- What a step keeps: the invariant of the new state, and the log has only grown. -/
def Keeps (s s' : LogSys) : Prop := Sound s' ∧ Log.Extends s.log s'.log

theorem Sound.keeps (h : Sound s) : Keeps s s := ⟨h, Log.Extends.refl s.log⟩

theorem sound_start {epoch : ℕ} {cfg : LogConfig} {l : Log} (h : newLog epoch cfg = .ok l) :
    Sound (start l) := by
  refine ⟨Log.newLog_valid h, by simp [start], by simp [start], ?_⟩
  intro c hc
  obtain ⟨hlen, hcon⟩ := Log.newLog_con h
  rw [show (start l).log.con c = l.con c from rfl, hcon c (hlen ▸ hc)]
  rfl

section

variable (h : Sound s)
include h

theorem Sound.after {l : Log} {clear : Option ClearReq} {frames : List Bytes}
    {marks : List Mask} (hv : Valid l frames marks) (e : Log.Quiet s.log l)
    (hclear : ∀ req ∈ clear, Log.ClearOk l req) (evicted : Finset ℕ) :
    Keeps s { s.after l clear with frames := frames, marks := marks, evicted := evicted } := by
  refine ⟨⟨hv, ?_, ?_, ?_⟩, e.toExtends⟩
  · intro req hreq
    rcases mem_append.mp hreq with hreq | hreq
    · exact (h.clears req hreq).extends e.toExtends
    · exact hclear req (by simpa using hreq)
  · exact fun r hr => (h.reads r hr).extends e.toExtends
  · intro c hc
    have hc' : c < s.log.consumers.length := e.length_eq ▸ hc
    exact (e.reading c hc').trans (h.reading c hc')

theorem Sound.append (frame : Bytes) (kind : LogKind) (mask : Mask) :
    Keeps s (s.stepAppend frame kind mask).1 := by
  unfold stepAppend
  generalize hr : s.log.appendMask frame kind mask = r
  obtain ⟨l, off, clear⟩ := r
  cases off with
  | none =>
    have hoff : (s.log.appendMask frame kind mask).2.1 = none := by rw [hr]
    obtain ⟨a, b, d, h1, h2⟩ := Log.appendMask_rejected hoff
    rw [hr] at h1 h2
    simp only at h1 h2
    subst h1 h2
    have hv : Valid { s.log with droppedSize := a, droppedInv := b, uncaptured := d } s.frames
        s.marks := by
      rcases h.valid with hv | hv
      · exact Or.inl (hv.withCounters a b d s.log.appended)
      · obtain ⟨v1, v2, v3, v4, v5, v6, v7, v8, v9, v10⟩ := hv
        exact Or.inr ⟨v1, v2, v3, v4, v5, v6, v7, v8, v9, v10⟩
    refine h.after hv ?_ (fun req hreq => absurd hreq (Option.not_mem_none req)) s.evicted
    exact ⟨⟨⟨le_rfl, fun _ _ => rfl⟩, le_rfl, le_rfl, rfl, rfl, rfl⟩, fun _ _ => rfl⟩
  | some off =>
    have hoff : (s.log.appendMask frame kind mask).2.1 = some off := by rw [hr]
    rcases h.valid with hv | hv
    · obtain ⟨h1, ⟨k, e⟩, h3⟩ := hv.appendMask hoff
      rw [hr] at h1 e h3
      exact h.after (Or.inl h1) e.quiet h3 _
    · obtain ⟨h1, e, h3⟩ := hv.appendMask hoff
      rw [hr] at h1 e h3
      simp only at h3
      subst h3
      exact h.after (Or.inr h1) e (by simp) _

theorem Sound.commit (c off : ℕ) : Keeps s (s.stepCommit c off).1 := by
  unfold stepCommit
  generalize hr : s.log.commit c off = r
  cases r with
  | error e => exact h.keeps
  | ok r =>
    obtain ⟨l, clear⟩ := r
    rcases h.valid with hv | hv
    · obtain ⟨-, -, h1, h2, h3⟩ := hv.commit hr
      exact h.after (Or.inl h1) h2.quiet h3 s.evicted
    · simp [Log.commit, hv.consumers_eq] at hr

theorem Sound.resume (c lastEpoch off : ℕ) : Keeps s (s.stepResume c lastEpoch off).1 := by
  unfold stepResume
  generalize hr : s.log.resume c lastEpoch off = r
  cases r with
  | error e => exact h.keeps
  | ok r =>
    obtain ⟨l, res, clear⟩ := r
    rcases h.valid with hv | hv
    · obtain ⟨h1, h2⟩ := hv.resume hr
      exact h.after (Or.inl h1) (hv.quiet_resume hr) h2 s.evicted
    · simp [Log.resume, hv.consumers_eq] at hr

theorem Sound.advanceSkipped : Keeps s (s.step .advanceSkipped) := by
  change Keeps s (s.after s.log.advanceSkipped.1 s.log.advanceSkipped.2)
  rcases h.valid with hv | hv
  · obtain ⟨h1, h2, h3⟩ := hv.advanceSkipped
    exact h.after (Or.inl h1) h2.quiet h3 s.evicted
  · have heq : s.log.advanceSkipped = (s.log, none) := by
      unfold Log.advanceSkipped
      simp [hv.consumers_eq, Log.advanceLoop]
    rw [heq]
    exact h.after (Or.inr hv) (Log.Quiet.refl _) (by simp) s.evicted

theorem Sound.clearBits (c start : ℕ) (drop : Bytes → Bool) : Keeps s (s.stepClearBits c start drop) := by
  unfold stepClearBits
  simp only
  by_cases hg : s.log.masked = true ∧ c < s.log.consumers.length
  · have hmarks : (s.log.masked && decide (c < s.log.consumers.length)) = true := by simp [hg]
    rw [if_pos hmarks]
    rcases h.valid with hv | hv
    · obtain ⟨e, -, h1, h2, h3⟩ := hv.clearConsumerBits start drop hg.1 hg.2
      exact h.after (Or.inl h1) (e.quiet.trans h2.quiet) h3 s.evicted
    · exact absurd hg.2 (by simp [hv.consumers_eq])
  · have hmarks : (s.log.masked && decide (c < s.log.consumers.length)) = false := by
      simpa using hg
    have hguard : (!s.log.masked || decide (c ≥ s.log.consumers.length)) = true := by
      simpa [imp_iff_not_or] using hg
    simp only [hmarks, Bool.false_eq_true, if_false, Log.clearConsumerBits, hguard, if_true]
    exact h.after h.valid (Log.Quiet.refl _) (by simp) s.evicted

theorem Sound.withLog {l : Log} (hv : Valid l s.frames s.marks)
    (e : Log.Quiet s.log l) : Keeps s { s with log := l } := by
  have := h.after hv e (fun req hreq => absurd hreq (Option.not_mem_none req)) s.evicted
  simpa [LogSys.after] using this

theorem Sound.clearSlot (k : ℕ) : Keeps s (s.stepClearSlot k) := by
  unfold stepClearSlot
  cases hk : s.clears[k]? with
  | none => exact h.keeps
  | some req =>
    simp only
    split
    · rename_i hab
      have hreq := h.clears req (mem_of_getElem? hk)
      rcases h.valid with hv | hv
      · have hbelow := hreq.below
        have hslot : (s.log.heap req.chunk).base + req.a < s.log.lso := by omega
        obtain ⟨hlog, e⟩ := h.withLog (Or.inl (hv.clearSlot hslot))
          (Log.quiet_clearSlot s.log req.chunk req.a)
        refine ⟨⟨hlog.valid, ?_, hlog.reads, hlog.reading⟩, e⟩
        intro r hr
        rcases mem_or_eq_of_mem_set hr with hr | rfl
        · exact hlog.clears r hr
        · have := hlog.clears req (mem_of_getElem? hk)
          exact ⟨this.chunk_lt, this.below⟩
      · exact absurd hreq.chunk_lt (by simp [hv.nextChunk_eq])
    · exact h.keeps

end

/-- Replacing the `k`-th call changes the number of calls with `p` by that call alone. -/
theorem countP_setRead {reads : List ReadOp} {k : ℕ} {r : ReadOp} (hk : reads[k]? = some r)
    (p : ReadOp → Bool) (r' : ReadOp) : (reads.set k r').countP p + (if p r then 1 else 0) =
      reads.countP p + (if p r' then 1 else 0) := by
  obtain ⟨hlt, hget⟩ := List.getElem?_eq_some_iff.mp hk
  rw [countP_set hlt, hget]
  have hpos : p r = true → 1 ≤ reads.countP p := by
    intro hr
    exact countP_pos_iff.mpr ⟨r, mem_of_getElem? hk, hr⟩
  cases hr : p r with
  | false => simp
  | true =>
    have := hpos hr
    simp only [if_true]
    omega

section

variable (h : Sound s)
include h

theorem Sound.setRead {k : ℕ} {r r' : ReadOp} (hk : s.reads[k]? = some r)
    (hok : r'.Ok s.log) (hopen : ∀ c, r'.isOpen c = r.isOpen c) :
    Keeps s { s with reads := s.reads.set k r' } := by
  refine ⟨⟨h.valid, h.clears, ?_, ?_⟩, Log.Extends.refl s.log⟩
  · intro x hx
    rcases mem_or_eq_of_mem_set hx with hx | rfl
    · exact h.reads x hx
    · exact hok
  · intro c hc
    have hcount := countP_setRead hk (ReadOp.isOpen c) r'
    rw [hopen c] at hcount
    have := h.reading c hc
    simp only
    omega

theorem Sound.readCall (call : ReadCall) : Keeps s (s.stepReadCall call).1 := by
  unfold stepReadCall
  split
  · exact h.keeps
  · rename_i hc
    refine ⟨⟨h.valid, h.clears, ?_, ?_⟩, Log.Extends.refl s.log⟩
    · intro r hr
      rcases mem_append.mp hr with hr | hr
      · exact h.reads r hr
      · rw [mem_singleton.mp hr]
        exact ⟨by simpa using hc, fun hs => (Bool.and_eq_true_iff.mp hs).2, by simp [ReadPhase.scan?]⟩
    · intro c hc
      rw [countP_append]
      simpa [ReadOp.isOpen, ReadPhase.isScanning] using h.reading c hc

theorem Sound.readSnapshot (k : ℕ) : Keeps s (s.stepReadSnapshot k).1 := by
  unfold stepReadSnapshot
  split
  · rename_i call attempt hk
    have hok := h.reads _ (mem_of_getElem? hk)
    split
    · refine h.setRead hk ⟨hok.c_lt, hok.sparse, by simp [ReadPhase.scan?]⟩ ?_
      intro c
      simp [ReadOp.isOpen, ReadPhase.isScanning]
    · rename_i l scan hr
      rcases h.valid with hv | hv
      · obtain ⟨h1, h2, h3⟩ := hv.readSnapshot hr
        obtain ⟨-, -, heq⟩ := Log.readSnapshot_eq hr
        simp only at heq h1 h2 h3
        refine ⟨⟨Or.inl h1, fun req hreq => (h.clears req hreq).extends h2, ?_, ?_⟩, h2⟩
        · intro r hr
          rcases mem_or_eq_of_mem_set hr with hr | rfl
          · exact (h.reads r hr).extends h2
          · refine ⟨by rw [h2.length_eq]; exact hok.c_lt, fun hs => h2.masked.trans (hok.sparse hs), ?_⟩
            intro s' hs'
            simp only [ReadPhase.scan?, Option.mem_def, Option.some.injEq] at hs'
            subst hs'
            exact h3.extends h2
        · intro c hc
          have hc' : c < s.log.consumers.length := h2.length_eq ▸ hc
          have hcount := countP_setRead hk (ReadOp.isOpen c) ⟨call, attempt, .scanning scan⟩
          have hread := h.reading c hc'
          simp only [ReadOp.isOpen, ReadPhase.isScanning, Bool.and_false, Bool.and_true,
            Bool.false_eq_true, if_false, decide_eq_true_eq, Nat.add_zero] at hcount
          simp only
          rw [heq]
          by_cases hcc : c = call.c
          · subst hcc
            rw [Log.con_updCon_self _ _ hc']
            simp only [if_true, Log.observe_reading] at hcount ⊢
            rw [hread]
            exact hcount.symm
          · rw [Log.con_updCon_of_ne _ _ hcc]
            rw [if_neg (fun e => hcc e.symm)] at hcount
            rw [hread]
            exact hcount.symm
      · exact absurd hok.c_lt (by simp [hv.consumers_eq])
  · exact h.keeps

theorem Sound.readAdvance (k : ℕ) : Keeps s (s.stepReadAdvance k) := by
  unfold stepReadAdvance
  split
  · rename_i call attempt scan hk
    have hok := h.reads _ (mem_of_getElem? hk)
    refine h.setRead hk ⟨hok.c_lt, hok.sparse, ?_⟩ (fun c => rfl)
    intro s' hs'
    simp only [ReadPhase.scan?, Option.mem_def, Option.some.injEq] at hs'
    subst hs'
    exact (hok.scan scan rfl).advance
  · exact h.keeps

theorem Sound.readComplete (k : ℕ) : Keeps s (s.stepReadComplete k).1 := by
  unfold stepReadComplete
  split
  · rename_i call attempt scan hk
    split
    · exact h.keeps
    have hok := h.reads _ (mem_of_getElem? hk)
    have hscan := hok.scan scan rfl
    have e : Log.Extends s.log (s.log.readComplete call scan) := Log.extends_updCon _ _ _
    have key : ∀ r' : ReadOp, r'.call = call → r'.phase.scan? = none →
        Keeps s { s with log := s.log.readComplete call scan, reads := s.reads.set k r' } := by
      intro r' hcall hphase
      have hclosed : ∀ c, r'.isOpen c = false := by
        intro c
        cases hp : r'.phase with
        | scanning _ => simp [hp, ReadPhase.scan?] at hphase
        | _ => simp [ReadOp.isOpen, hp, ReadPhase.isScanning]
      rcases h.valid with hv | hv
      · refine ⟨⟨Or.inl (hv.readComplete hscan), fun req hreq => (h.clears req hreq).extends e,
          ?_, ?_⟩, e⟩
        · intro r hr
          rcases mem_or_eq_of_mem_set hr with hr | rfl
          · exact (h.reads r hr).extends e
          · refine ⟨by rw [e.length_eq, hcall]; exact hok.c_lt, ?_, by simp [hphase]⟩
            rw [hcall]
            exact fun hs => e.masked.trans (hok.sparse hs)
        · intro c hc
          have hc' : c < s.log.consumers.length := e.length_eq ▸ hc
          have hcount := countP_setRead hk (ReadOp.isOpen c) r'
          have hread := h.reading c hc'
          have hopen : ReadOp.isOpen c ⟨call, attempt, .scanning scan⟩ = decide (call.c = c) := by
            simp [ReadOp.isOpen, ReadPhase.isScanning]
          rw [hclosed c, hopen] at hcount
          simp only [Bool.false_eq_true, if_false, decide_eq_true_eq, Nat.add_zero] at hcount
          simp only [Log.readComplete]
          by_cases hcc : c = call.c
          · subst hcc
            rw [Log.con_updCon_self _ _ hc']
            simp only [if_true] at hcount ⊢
            omega
          · rw [Log.con_updCon_of_ne _ _ hcc]
            rw [if_neg (fun e => hcc e.symm)] at hcount
            omega
      · exact absurd hok.c_lt (by simp [hv.consumers_eq])
    simp only
    split
    · exact key _ rfl rfl
    · exact key _ rfl rfl
  · exact h.keeps

theorem Sound.step (op : LogOp) : Keeps s (s.step op) := by
  have hidle : ∀ c, s.log.consumers = [] → c ≥ s.log.consumers.length := by
    intro c h0
    simp [h0]
  cases op with
  | append frame kind mask => exact h.append frame kind mask
  | commit c off => exact h.commit c off
  | resume c lastEpoch off => exact h.resume c lastEpoch off
  | advanceSkipped => exact h.advanceSkipped
  | clearConsumerBits c start drop => exact h.clearBits c start drop
  | markServed c upTo =>
    refine h.withLog ?_ (Log.quiet_markServed s.log c upTo)
    rcases h.valid with hv | hv
    · exact Or.inl (hv.markServed c upTo)
    · rw [Log.markServed, if_pos (hidle c hv.consumers_eq)]
      exact h.valid
  | setConsumerState c st =>
    refine h.withLog ?_ (Log.quiet_setConsumerState s.log c st)
    rcases h.valid with hv | hv
    · exact Or.inl (hv.setConsumerState c st)
    · rw [Log.setConsumerState, if_pos (hidle c hv.consumers_eq)]
      exact h.valid
  | observeConsumer c =>
    refine h.withLog ?_ (Log.quiet_observeConsumer s.log c)
    rcases h.valid with hv | hv
    · unfold Log.observeConsumer
      split
      · exact h.valid
      · exact Or.inl (hv.observeLocked c)
    · rw [Log.observeConsumer, if_pos (hidle c hv.consumers_eq)]
      exact h.valid
  | sealLog =>
    refine h.withLog ?_ ⟨⟨⟨le_rfl, fun _ _ => rfl⟩, le_rfl, le_rfl, rfl, rfl, rfl⟩, fun _ _ => rfl⟩
    rcases h.valid with hv | hv
    · have e : Log.SameStore s.log s.log.sealLog.1 :=
        ⟨rfl, rfl, rfl, rfl, rfl, rfl, rfl, rfl, rfl, rfl, rfl⟩
      exact Or.inl ⟨⟨e.stored hv.stored, hv.marked.congr rfl rfl rfl (fun _ => ⟨rfl, rfl⟩), hv.counted,
        hv.position, hv.one_le_lwm, hv.lwm_le_lso, hv.peers, hv.everyone⟩, e.bounded hv.bounded,
        hv.lwm_eq⟩
    · obtain ⟨v1, v2, v3, v4, v5, v6, v7, v8, v9, v10⟩ := hv
      exact Or.inr ⟨v1, v2, v3, v4, v5, v6, v7, v8, v9, v10⟩
  | clearSlot k => exact h.clearSlot k
  | readCall call => exact h.readCall call
  | readSnapshot k => exact h.readSnapshot k
  | readAdvance k => exact h.readAdvance k
  | readComplete k => exact h.readComplete k

end

theorem sound_run {epoch : ℕ} {cfg : LogConfig} {l : Log} (h : newLog epoch cfg = .ok l)
    (ops : List LogOp) : Sound (run l ops) :=
  StateRuns.run_always (fun _ op hs => (hs.step op).1) (sound_start h) ops

end LogSys

end MonsterMQ.PeerLink
