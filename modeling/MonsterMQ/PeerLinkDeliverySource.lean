import MonsterMQ.PeerLinkDelivery
import MonsterMQ.PeerLinkLossPulled

/-!
# What the source owes the puller

The source's side of the delivery: which records consumer `c` needs, that its position
passes none of them unless `c` says so, and that a read hands over every needed record
of the range it covers.
-/

namespace MonsterMQ.PeerLink

open LittleEndian List

namespace LogSys

/-- The record at `x` is meant for `c`: every record of an unmasked log, and those
with bit `c` of a masked one. -/
def Needed (s : LogSys) (c x : ℕ) : Prop :=
  s.log.masked = false ∨ hasBit (Log.markAt s.marks x) c = true
deriving Decidable

variable {s : LogSys} {c : ℕ}

theorem marks_step (s : LogSys) (op : LogOp) (hap : ∀ frame kind mask, op ≠ .append frame kind mask)
    (hcl : ∀ d start drop, op ≠ .clearConsumerBits d start drop) : (s.step op).marks = s.marks := by
  cases op with
  | append frame kind mask => exact absurd rfl (hap frame kind mask)
  | clearConsumerBits d start drop => exact absurd rfl (hcl d start drop)
  | commit d off =>
    simp only [step, stepOut, stepCommit]
    split <;> rfl
  | resume d e off =>
    simp only [step, stepOut, stepResume]
    split <;> rfl
  | clearSlot k =>
    simp only [step, stepOut, stepClearSlot]
    split
    · rfl
    · split <;> rfl
  | readCall call =>
    simp only [step, stepOut, stepReadCall]
    split <;> rfl
  | readSnapshot k =>
    simp only [step, stepOut, stepReadSnapshot]
    split
    · split <;> rfl
    · rfl
  | readAdvance k =>
    simp only [step, stepOut, stepReadAdvance]
    split <;> rfl
  | readComplete k =>
    simp only [step, stepOut, stepReadComplete]
    split
    · split
      · rfl
      · split <;> rfl
    · rfl
  | _ => rfl

/-- An expiry sweep for another consumer leaves bit `c` of every record. -/
theorem hasBit_clearBits (h : Sound s) (hne : s.log.consumers ≠ []) {d : ℕ} (hcd : c ≠ d) (start : ℕ)
    (drop : Bytes → Bool) {x : ℕ} (h1 : 1 ≤ x) (hx : x < s.log.leo) :
    hasBit (Log.markAt (s.step (.clearConsumerBits d start drop)).marks x) c =
      hasBit (Log.markAt s.marks x) c := by
  have hv := h.invariant hne
  have hleo := hv.marked.leo_eq
  simp only [step, stepOut, stepClearBits]
  by_cases hg : s.log.masked = true ∧ d < s.log.consumers.length
  · obtain ⟨e, -⟩ := hv.clearConsumerBits start drop hg.1 hg.2
    rw [if_pos (by simp [hg]), Log.markAt_readMarks h1 (by omega)]
    split
    · rename_i hheld
      have hlso := e.field Log.lso (fun _ => rfl)
      have hheap : ∀ id, (s.log.sweepBits d start drop).1.chunkAt x = id → s.log.chunkAt x = id := by
        intro id hid
        rw [e.rest] at hid
        exact hid
      have hslot : (s.log.sweepBits d start drop).1.slotOf x = s.log.slotOf x := by
        rw [e.rest]
        rfl
      rw [Log.maskAtLocked, hslot, ← hheap _ rfl, e.others _ _ _ hcd,
        ← hv.marked.maskAtLocked_eq hv.stored.geometry hg.1 (hlso ▸ hheld.2) hx]
      rfl
    · rfl
  · rw [if_neg (by simpa [imp_iff_not_or] using hg)]

/-- Which held records `c` needs does not change. -/
theorem needed_step (h : Sound s) (hne : s.log.consumers ≠ []) {op : LogOp}
    (hop : ∀ start drop, op ≠ .clearConsumerBits c start drop) {x : ℕ} (h1 : 1 ≤ x)
    (hx : x < s.log.leo) : (s.step op).Needed c x ↔ s.Needed c x := by
  have hleo := (h.invariant hne).marked.leo_eq
  have hbit : hasBit (Log.markAt (s.step op).marks x) c = hasBit (Log.markAt s.marks x) c := by
    by_cases hap : ∃ frame kind mask, op = .append frame kind mask
    · obtain ⟨frame, kind, mask, rfl⟩ := hap
      rcases h.append_view hne frame kind mask with e | ⟨lso₁, k, e⟩
      · rw [show (s.step (.append frame kind mask)).marks = s.marks from e.marks]
      · rw [show (s.step (.append frame kind mask)).marks = s.marks ++ [mask] from e.marks,
          Log.markAt_append_of_lt mask h1 (by omega)]
    · by_cases hcl : ∃ d start drop, op = .clearConsumerBits d start drop
      · obtain ⟨d, start, drop, rfl⟩ := hcl
        apply hasBit_clearBits h hne _ start drop h1 hx
        rintro rfl
        exact hop start drop rfl
      · rw [marks_step s op (fun f k m heq => hap ⟨f, k, m, heq⟩) (fun d a b heq => hcl ⟨d, a, b, heq⟩)]
  simp only [Needed, hbit, (h.step op).2.masked]

/-- On an unmasked log `C[c]` moves only where `c` says. -/
theorem named_unmasked (h : Sound s) (hm : s.log.masked = false) (hc : c < s.log.consumers.length)
    (op : LogOp) {x : ℕ} (h1 : (s.log.con c).committed ≤ x)
    (h2 : x < ((s.step op).log.con c).committed) : Named s op c x := by
  have hne : s.log.consumers ≠ [] := fun h0 => by simp [h0] at hc
  have hone := ((h.invariant hne).position c hc).one_le
  have hpull : ∀ pos, (s.log.con c).committed ≤ pos → PullSys.Pulls false c ⟨s, pos, 0⟩ op →
      (∀ k, op ≠ .readComplete k) → ((s.step op).log.con c).committed ≤ pos := by
    intro pos hpos hp hop
    exact (pulls_step (t := ⟨s, pos, 0⟩) h hm hc hp hop (hone.trans hpos) hpos).1
  have hstay : PullSys.Pulls false c ⟨s, (s.log.con c).committed, 0⟩ op →
      (∀ k, op ≠ .readComplete k) → Named s op c x := by
    intro hp hop
    have := hpull _ le_rfl hp hop
    omega
  have hsame : ((s.step op).log.con c).committed = (s.log.con c).committed → Named s op c x := by
    intro heq
    omega
  cases op with
  | commit d off =>
    by_cases hdc : d = c
    · subst hdc
      have := hpull (max (s.log.con d).committed off) (le_max_left _ _) (fun _ => le_max_right _ _)
        (by simp)
      exact Or.inl ⟨off, rfl, by omega⟩
    · exact hstay (fun heq => absurd heq hdc) (by simp)
  | resume d e off =>
    by_cases hdc : d = c
    · subst hdc
      by_cases hep : e = s.log.epoch
      · subst hep
        have := hpull (max (s.log.con d).committed off) (le_max_left _ _)
          (fun _ => ⟨fun _ => le_max_right _ _, by simp⟩) (by simp)
        exact Or.inr ⟨off, rfl, by omega⟩
      · exact hstay (fun _ => ⟨fun heq => absurd heq hep, by simp⟩) (by simp)
    · exact hstay (fun heq => absurd heq hdc) (by simp)
  | readCall call =>
    apply hsame
    simp only [step, stepOut, stepReadCall]
    split <;> rfl
  | markServed d upTo =>
    apply hsame
    change ((s.log.markServed d upTo).con c).committed = _
    unfold Log.markServed
    split
    · rfl
    · by_cases hcd : c = d
      · subst hcd
        rw [Log.con_updCon_self _ _ hc]
      · rw [Log.con_updCon_of_ne _ _ hcd]
  | readComplete k =>
    apply hsame
    simp only [step, stepOut, stepReadComplete]
    split
    · rename_i call attempt scan hk
      have hcom : ((s.log.readComplete call scan).con c).committed = (s.log.con c).committed := by
        unfold Log.readComplete
        by_cases hcd : c = call.c
        · subst hcd
          rw [Log.con_updCon_self _ _ hc]
        · rw [Log.con_updCon_of_ne _ _ hcd]
      split
      · rfl
      · split
        · exact hcom
        · exact hcom
    · rfl
  | _ => exact hstay trivial (by simp)

/-- No needed record is passed that `c` has not named. -/
theorem Tracked.not_needed (h : Tracked s) (hc : c < s.log.consumers.length) {op : LogOp} {x : ℕ}
    (hev : x ∉ s.evicted) (h1 : (s.log.con c).committed ≤ x)
    (h2 : x < ((s.step op).log.con c).committed) (hno : ¬ Named s op c x) : ¬ (s.step op).Needed c x := by
  have hne : s.log.consumers ≠ [] := fun h0 => by simp [h0] at hc
  rintro (hm | hbit)
  · rw [(h.sound.step op).2.masked] at hm
    exact hno (named_unmasked h.sound hm hc op h1 h2)
  · by_cases hap : ∃ frame kind mask, op = .append frame kind mask
    · obtain ⟨frame, kind, mask, rfl⟩ := hap
      rcases h.sound.append_view hne frame kind mask with e | ⟨lso₁, k, e⟩
      · have := e.con c
        rw [show (s.step (.append frame kind mask)).log.con c = _ from this] at h2
        omega
      · exact hno (e.passesNothing _ hc (h.sound.invariant hne).marked.leo_eq x h1 h2 hev hbit)
    · have e := moveView_step h.sound h.trimmed hne op (fun f k m heq => hap ⟨f, k, m, heq⟩)
      exact hno ((e.con c hc).1 x h1 h2 hev hbit)

theorem Tracked.lso_le (h : Tracked s) (hc : c < s.log.consumers.length) (hev : s.evicted = ∅) :
    s.log.lso ≤ (s.log.con c).committed := by
  have hne : s.log.consumers ≠ [] := fun h0 => by simp [h0] at hc
  by_contra hlt
  have hone := ((h.sound.invariant hne).position c hc).one_le
  rcases h.trimmed (s.log.con c).committed hone (by omega) with hx | hx
  · simp [hev] at hx
  · exact absurd (hx c hc) (lt_irrefl _)

/-- The scan has taken, in order, every record that `c` needs behind it; a sparse scan
has taken no other. -/
structure ScanDelivers (s : LogSys) (c : ℕ) (sparse : Bool) (scan : ReadScan) : Prop where
  sorted : scan.ds.Pairwise (· < ·)
  lt : ∀ d ∈ scan.ds, d < scan.i
  length_le : scan.ds.length ≤ scan.i
  full : scan.ds.length = scan.i → scan.ds = List.range scan.i
  taken : ∀ d < scan.i, s.Needed c (scan.base + d) → d ∈ scan.ds
  only : sparse = true → ∀ d ∈ scan.ds, s.Needed c (scan.base + d)

/-- The calls of `c` in progress: where they start, and what they have taken. -/
structure CallDelivers (s : LogSys) (c : ℕ) (r : ReadOp) : Prop where
  one_le : 1 ≤ r.call.start
  start_le : r.call.start ≤ s.log.leo
  scan : ∀ scan ∈ r.phase.scan?, ScanDelivers s c r.call.sparse scan

def Delivers (c : ℕ) (s : LogSys) : Prop := ∀ r ∈ s.reads, r.call.c = c → CallDelivers s c r

theorem ScanDelivers.start {scan : ReadScan} {sparse : Bool} (hi : scan.i = 0) (hds : scan.ds = []) :
    ScanDelivers s c sparse scan := by
  constructor
  · simp [hds]
  · simp [hds]
  · simp [hds]
  · simp [hds, hi]
  · simp [hi]
  · simp [hds]

theorem ScanDelivers.congr {s' : LogSys} {scan : ReadScan} {sparse : Bool} (hone : 1 ≤ scan.base)
    (hle : scan.base + scan.i ≤ s.log.leo)
    (hneed : ∀ x, 1 ≤ x → x < s.log.leo → (s'.Needed c x ↔ s.Needed c x))
    (h : ScanDelivers s c sparse scan) : ScanDelivers s' c sparse scan := by
  have hiff : ∀ d < scan.i, (s'.Needed c (scan.base + d) ↔ s.Needed c (scan.base + d)) :=
    fun d hd => hneed _ (by omega) (by omega)
  constructor
  · exact h.sorted
  · exact h.lt
  · exact h.length_le
  · exact h.full
  · exact fun d hd hn => h.taken d hd ((hiff d hd).mp hn)
  · exact fun hs d hd => (hiff d (h.lt d hd)).mpr (h.only hs d hd)

theorem ScanDelivers.advance {call : ReadCall} {scan : ReadScan} (hs : Sound s)
    (hne : s.log.consumers ≠ []) (hok : Log.ScanOk s.log call scan) (hcc : call.c = c)
    (hsp : call.sparse = true → s.log.masked = true) (h : ScanDelivers s c call.sparse scan) :
    ScanDelivers s c call.sparse (scan.advance s.log call) := by
  have hv := hs.invariant hne
  subst hcc
  rcases Log.advance_cases s.log call scan with
    heq | ⟨-, -, heq⟩ | ⟨hrun, p, -, heq | ⟨hsparse, hbit, heq⟩ | ⟨hbit, done, heq⟩⟩
  · rw [heq]
    exact h
  · rw [heq]
    rcases Log.loadSlot_cases s.log scan with heq | ⟨p, -, heq⟩
    · rw [heq]
      exact ⟨h.1, h.2, h.3, h.4, h.5, h.6⟩
    · rw [heq]
      exact ⟨h.1, h.2, h.3, h.4, h.5, h.6⟩
  · rw [heq]
    exact ⟨h.1, h.2, h.3, h.4, h.5, h.6⟩
  · rw [heq]
    simp only [ReadScan.running, Bool.and_eq_true, decide_eq_true_eq] at hrun
    have hm := hsp hsparse
    rw [hok.mask_eq hv hm hrun.2] at hbit
    constructor
    · exact h.sorted
    · intro d hd
      have := h.lt d hd
      simp only
      omega
    · have := h.length_le
      simp only
      omega
    · intro hlen
      have := h.length_le
      simp only at hlen
      omega
    · intro d hd hn
      by_cases hold : d < scan.i
      · exact h.taken d hold hn
      · have hd' : d = scan.i := by
          simp only at hd
          omega
        subst hd'
        rcases hn with hn | hn
        · rw [hm] at hn
          cases hn
        · rw [hbit] at hn
          cases hn
    · exact h.only
  · rw [heq]
    simp only [ReadScan.running, Bool.and_eq_true, decide_eq_true_eq] at hrun
    constructor
    · simp only [ReadScan.take]
      rw [pairwise_append]
      refine ⟨h.sorted, by simp, ?_⟩
      intro a ha b hb
      rw [mem_singleton.mp hb]
      exact h.lt a ha
    · intro d hd
      simp only [ReadScan.take, mem_append, mem_singleton] at hd ⊢
      rcases hd with hd | hd
      · have := h.lt d hd
        omega
      · omega
    · have := h.length_le
      simp only [ReadScan.take, length_append, length_singleton]
      omega
    · intro hlen
      simp only [ReadScan.take, length_append, length_singleton] at hlen ⊢
      rw [h.full (by omega), range_succ]
    · intro d hd hn
      simp only [ReadScan.take, mem_append, mem_singleton] at hd ⊢
      by_cases hold : d < scan.i
      · exact Or.inl (h.taken d hold hn)
      · exact Or.inr (by omega)
    · intro hsparse d hd
      simp only [ReadScan.take, mem_append, mem_singleton] at hd ⊢
      rcases hd with hd | hd
      · exact h.only hsparse d hd
      · subst hd
        right
        rw [← hok.mask_eq hv (hsp hsparse) hrun.2]
        exact hbit hsparse

/-- Replacing the `k`-th call by a later state of the same call. -/
theorem Delivers.set (h : Delivers c s) {s' : LogSys} {k : ℕ} {r r' : ReadOp}
    (hk : s.reads[k]? = some r) (hreads : s'.reads = s.reads.set k r') (hcall : r'.call = r.call)
    (hleo : s'.log.leo = s.log.leo) (hneed : ∀ x, s'.Needed c x ↔ s.Needed c x)
    (hscan : r.call.c = c → ∀ scan ∈ r'.phase.scan?, ScanDelivers s c r.call.sparse scan) :
    Delivers c s' := by
  have hcongr : ∀ sparse scan, ScanDelivers s c sparse scan → ScanDelivers s' c sparse scan :=
    fun _ _ h => ⟨h.1, h.2, h.3, h.4, fun d hd hn => h.5 d hd ((hneed _).mp hn),
      fun hs d hd => (hneed _).mpr (h.6 hs d hd)⟩
  intro x hx hxc
  rw [hreads] at hx
  rcases mem_or_eq_of_mem_set hx with hx | rfl
  · obtain ⟨h1, h2, h3⟩ := h x hx hxc
    exact ⟨h1, by rw [hleo]; exact h2, fun scan hs => hcongr _ _ (h3 scan hs)⟩
  · rw [hcall] at hxc
    obtain ⟨h1, h2, -⟩ := h r (mem_of_getElem? hk) hxc
    refine ⟨by rw [hcall]; exact h1, by rw [hcall, hleo]; exact h2, ?_⟩
    intro scan hs
    rw [hcall]
    exact hcongr _ _ (hscan hxc scan hs)

/-- Reads deliver what `c` needs, over every step but an expiry sweep for `c`. -/
theorem Delivers.step (h : Delivers c s) (hs : Sound s) (hne : s.log.consumers ≠ []) {op : LogOp}
    (hclear : ∀ start drop, op ≠ .clearConsumerBits c start drop)
    (hcall : ∀ call, op = .readCall call → call.c = c → 1 ≤ call.start ∧ call.start ≤ s.log.leo) :
    Delivers c (s.step op) := by
  have hleo := (hs.step op).2.leo_le
  have hsame : (s.step op).reads = s.reads → Delivers c (s.step op) := by
    intro hreads r hr hrc
    rw [hreads] at hr
    obtain ⟨h1, h2, h3⟩ := h r hr hrc
    refine ⟨h1, h2.trans hleo, fun scan hscan => ?_⟩
    have hok := (hs.reads r hr).scan scan hscan
    have hbase := hok.base_eq
    have hend := hok.end_le
    have hi := hok.i_le
    exact (h3 scan hscan).congr (by omega) (by omega)
      (fun x hx hx' => needed_step hs hne hclear hx hx')
  cases op with
  | readCall call =>
    simp only [LogSys.step, stepOut, stepReadCall]
    split
    · exact h
    · intro r hr hrc
      rcases mem_append.mp hr with hr | hr
      · obtain ⟨h1, h2, h3⟩ := h r hr hrc
        refine ⟨h1, h2, fun scan hscan => ?_⟩
        obtain ⟨q1, q2, q3, q4, q5, q6⟩ := h3 scan hscan
        exact ⟨q1, q2, q3, q4, q5, q6⟩
      · rw [mem_singleton] at hr
        subst hr
        obtain ⟨h1, h2⟩ := hcall call rfl hrc
        exact ⟨h1, h2, by simp [ReadPhase.scan?]⟩
  | readSnapshot k =>
    simp only [LogSys.step, stepOut, stepReadSnapshot]
    split
    · rename_i call attempt hk
      split
      · exact h.set hk rfl rfl rfl (fun _ => Iff.rfl) (by simp [ReadPhase.scan?])
      · rename_i l scan hr
        obtain ⟨-, -, heq⟩ := Log.readSnapshot_eq hr
        simp only at heq
        subst heq
        refine h.set hk rfl rfl rfl (fun _ => Iff.rfl) ?_
        intro _ scan' hscan
        simp only [ReadPhase.scan?, Option.mem_def, Option.some.injEq] at hscan
        subst hscan
        unfold Log.readSnapshot at hr
        split at hr
        · cases hr
        · simp only [Except.ok.injEq, Prod.mk.injEq] at hr
          apply ScanDelivers.start
          · rw [← hr.2]
          · rw [← hr.2]
    · exact h
  | readAdvance k =>
    simp only [LogSys.step, stepOut, stepReadAdvance]
    split
    · rename_i call attempt scan hk
      have hmem := mem_of_getElem? hk
      refine h.set hk rfl rfl rfl (fun _ => Iff.rfl) ?_
      intro hcc scan' hscan
      simp only [ReadPhase.scan?, Option.mem_def, Option.some.injEq] at hscan
      subst hscan
      exact ((h _ hmem hcc).scan scan rfl).advance hs hne ((hs.reads _ hmem).scan scan rfl) hcc
        (hs.reads _ hmem).sparse
    · exact h
  | readComplete k =>
    simp only [LogSys.step, stepOut, stepReadComplete]
    split
    · rename_i call attempt scan hk
      split
      · exact h
      · split
        · exact h.set hk rfl rfl rfl (fun _ => Iff.rfl) (by simp [ReadPhase.scan?])
        · exact h.set hk rfl rfl rfl (fun _ => Iff.rfl) (by simp [ReadPhase.scan?])
    · exact h
  | resume d e off => exact hsame (reads_step s _ (Or.inr ⟨d, e, off, rfl⟩))
  | _ => exact hsame (reads_step s _ (Or.inl rfl))

theorem call_step (s : LogSys) (op : LogOp) {k : ℕ} {r : ReadOp} (hk : s.reads[k]? = some r) :
    ∃ r', (s.step op).reads[k]? = some r' ∧ r'.call = r.call := by
  have hset : ∀ (j : ℕ) (r₀ r' : ReadOp), s.reads[j]? = some r₀ → r'.call = r₀.call →
      ∃ r'', (s.reads.set j r')[k]? = some r'' ∧ r''.call = r.call := by
    intro j r₀ r' hj hcall
    by_cases hjk : j = k
    · subst hjk
      rw [hk] at hj
      cases hj
      exact ⟨r', List.getElem?_set_self (List.getElem?_eq_some_iff.mp hk).1, hcall⟩
    · exact ⟨r, by rw [List.getElem?_set_ne hjk]; exact hk, rfl⟩
  have hsame : (s.step op).reads = s.reads →
      ∃ r', (s.step op).reads[k]? = some r' ∧ r'.call = r.call := by
    intro hreads
    exact ⟨r, by rw [hreads]; exact hk, rfl⟩
  cases op with
  | readCall call =>
    simp only [step, stepOut, stepReadCall]
    split
    · exact ⟨r, hk, rfl⟩
    · exact ⟨r, by rw [List.getElem?_append_left (List.getElem?_eq_some_iff.mp hk).1]; exact hk, rfl⟩
  | readSnapshot j =>
    simp only [step, stepOut, stepReadSnapshot]
    split
    · rename_i call attempt hj
      split
      · exact hset j _ _ hj rfl
      · exact hset j _ _ hj rfl
    · exact ⟨r, hk, rfl⟩
  | readAdvance j =>
    simp only [step, stepOut, stepReadAdvance]
    split
    · rename_i call attempt scan hj
      exact hset j _ _ hj rfl
    · exact ⟨r, hk, rfl⟩
  | readComplete j =>
    simp only [step, stepOut, stepReadComplete]
    split
    · rename_i call attempt scan hj
      split
      · exact ⟨r, hk, rfl⟩
      · split
        · exact hset j _ _ hj rfl
        · exact hset j _ _ hj rfl
    · exact ⟨r, hk, rfl⟩
  | resume d e off => exact hsame (reads_step s _ (Or.inr ⟨d, e, off, rfl⟩))
  | _ => exact hsame (reads_step s _ (Or.inl rfl))

end LogSys

/-- The batch covers the offsets from `p` to its end: it lists every record `c` needs
there in order, and a sparse one lists no other. -/
structure Covers (s : LogSys) (c p : ℕ) (b : Batch) : Prop where
  le : p ≤ b.next
  le_leo : b.next ≤ s.log.leo
  sorted : b.offsets.Pairwise (· < ·)
  mem : ∀ x ∈ b.offsets, p ≤ x ∧ x < b.next
  all : ∀ x, p ≤ x → x < b.next → s.Needed c x → x ∈ b.offsets
  only : b.sparse = true → ∀ x ∈ b.offsets, s.Needed c x

theorem Covers.congr {s s' : LogSys} {c p : ℕ} {b : Batch} (hp : 1 ≤ p) (hleo : s.log.leo ≤ s'.log.leo)
    (hneed : ∀ x, 1 ≤ x → x < s.log.leo → (s'.Needed c x ↔ s.Needed c x)) (h : Covers s c p b) :
    Covers s' c p b := by
  have hle := h.le_leo
  constructor
  · exact h.le
  · exact hle.trans hleo
  · exact h.sorted
  · exact h.mem
  · exact fun x h1 h2 hn => h.all x h1 h2 ((hneed x (by omega) (by omega)).mp hn)
  · intro hs x hx
    have := h.mem x hx
    exact (hneed x (by omega) (by omega)).mpr (h.only hs x hx)

/-- A record off the front of a batch: nothing before it is needed, and the rest covers
what follows it. -/
theorem Covers.tail {s : LogSys} {c p off next : ℕ} {rest : List ℕ} {sparse : Bool}
    (h : Covers s c p ⟨off :: rest, next, sparse⟩) :
    p ≤ off ∧ (∀ x, p ≤ x → x < off → ¬ s.Needed c x) ∧ (sparse = true → s.Needed c off) ∧
      Covers s c (off + 1) ⟨rest, next, sparse⟩ := by
  obtain ⟨hlt, hsorted⟩ := pairwise_cons.mp h.sorted
  have hoff := h.mem off (by simp)
  simp only at hoff
  refine ⟨hoff.1, ?_, fun hsp => h.only hsp off (by simp), ?_⟩
  · intro x h1 h2 hn
    rcases mem_cons.mp (h.all x h1 (by simp only; omega) hn) with hx | hx
    · omega
    · have := hlt x hx
      omega
  · constructor
    · exact hoff.2
    · exact h.le_leo
    · exact hsorted
    · intro x hx
      exact ⟨hlt x hx, (h.mem x (by simp [hx])).2⟩
    · intro x h1 h2 hn
      rcases mem_cons.mp (h.all x (by omega) h2 hn) with hx | hx
      · omega
      · exact hx
    · exact fun hsp x hx => h.only hsp x (by simp only [mem_cons]; exact Or.inr hx)

theorem ofResult_eq {s : LogSys} {c : ℕ} {call : ReadCall} {scan : ReadScan} (sparse : Bool)
    (hok : Log.ScanOk s.log call scan) (h : LogSys.ScanDelivers s c call.sparse scan) :
    Batch.ofResult sparse (scan.result call) =
      ⟨scan.ds.map (scan.base + ·), scan.base + scan.i, sparse⟩ := by
  have hspan := hok.span_eq
  have htaken := hok.taken
  have hle := h.length_le
  unfold Batch.ofResult
  cases hsp : (scan.result call).sparse with
  | true =>
    simp only [if_true]
    have hresult : (scan.result call).deltas = scan.ds := by
      simp only [ReadScan.result] at hsp ⊢
      rw [if_pos hsp]
    rw [hresult]
    simp only [ReadScan.result, hspan]
  | false =>
    have hds : scan.ds = List.range scan.i := by
      cases hcs : call.sparse with
      | false => exact hok.dense hcs
      | true =>
        apply h.full
        simp only [ReadScan.result, hcs, Bool.true_and, decide_eq_false_iff_not] at hsp
        omega
    have hcount : scan.dst.length = scan.i := by rw [htaken, hds, length_range]
    simp [ReadScan.result, hcount, hds]

/-- What `c` is sent covers the range from the offset it asked for. -/
theorem covers_result {s : LogSys} {c : ℕ} {call : ReadCall} {scan : ReadScan} {interest : Bool}
    (hok : Log.ScanOk s.log call scan) (h : LogSys.ScanDelivers s c call.sparse scan)
    (hsp : call.sparse = (interest && s.log.masked))
    (hbehind : ∀ x, call.start ≤ x → x < s.log.lso → ¬ s.Needed c x) :
    Covers s c call.start (Batch.ofResult interest (scan.result call)) := by
  have hbase := hok.base_eq
  have hlso := hok.lso_le
  have hend := hok.end_le
  have hi := hok.i_le
  rw [ofResult_eq interest hok h]
  constructor
  · simp only
    omega
  · simp only
    omega
  · simp only
    rw [pairwise_map]
    exact h.sorted.imp (fun hab => by omega)
  · intro x hx
    obtain ⟨d, hd, rfl⟩ := mem_map.mp hx
    have := h.lt d hd
    simp only
    omega
  · intro x h1 h2 hn
    simp only at h2
    have hge : scan.base ≤ x := by
      by_contra hlt
      exact hbehind x h1 (by omega) hn
    refine mem_map.mpr ⟨x - scan.base, h.taken _ (by omega) ?_, by omega⟩
    rw [show scan.base + (x - scan.base) = x by omega]
    exact hn
  · intro hint x hx
    simp only at hint
    obtain ⟨d, hd, rfl⟩ := mem_map.mp hx
    cases hm : s.log.masked with
    | false => exact Or.inl hm
    | true => exact h.only (by rw [hsp, hint, hm]; rfl) d hd

def Chain (s : LogSys) (c : ℕ) : ℕ → List Batch → ℕ → Prop
  | p, [], q => p = q
  | p, b :: bs, q => Covers s c p b ∧ Chain s c b.next bs q

namespace Chain

variable {s s' : LogSys} {c : ℕ}

theorem le {p q : ℕ} {bs : List Batch} (h : Chain s c p bs q) : p ≤ q := by
  induction bs generalizing p with
  | nil => exact le_of_eq h
  | cons b bs ih => exact h.1.le.trans (ih h.2)

theorem congr {p q : ℕ} {bs : List Batch} (hp : 1 ≤ p) (hleo : s.log.leo ≤ s'.log.leo)
    (hneed : ∀ x, 1 ≤ x → x < s.log.leo → (s'.Needed c x ↔ s.Needed c x)) (h : Chain s c p bs q) :
    Chain s' c p bs q := by
  induction bs generalizing p with
  | nil => exact h
  | cons b bs ih => exact ⟨h.1.congr hp hleo hneed, ih (hp.trans h.1.le) h.2⟩

theorem snoc {p q : ℕ} {bs : List Batch} {b : Batch} (h : Chain s c p bs q) (hb : Covers s c q b) :
    Chain s c p (bs ++ [b]) b.next := by
  induction bs generalizing p with
  | nil =>
    obtain rfl : p = q := h
    exact ⟨hb, rfl⟩
  | cons b₀ bs ih => exact ⟨h.1, ih h.2⟩

end Chain

end MonsterMQ.PeerLink
