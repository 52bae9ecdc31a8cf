import MonsterMQ.PeerLinkInterestTrackerMoves
import MonsterMQ.PeerLinkInterestSessions

/-!
# Interest announcements converge

`Gate` follows the generations and snapshot chunks of a session's frames and `Shadow` the set they rebuild.
-/

namespace MonsterMQ.PeerLink

open LittleEndian FiniteMaps List

@[grind =] def InterestSnapshot.first (s : InterestSnapshot) : Bool := s.flags &&& interestFlagFirst ≠ 0
def InterestSnapshot.last (s : InterestSnapshot) : Bool := s.flags &&& interestFlagLast ≠ 0

structure Gate where
  snap : Option UInt32
  last : Option UInt32
  deriving DecidableEq

/-- Deltas follow a complete snapshot, in growing generations. -/
@[grind =] def Gate.step (g : Gate) : InterestFrame → Option Gate
  | .snapshot s =>
    if s.first || g.snap = some s.generation then
      some (if s.last then ⟨none, some s.generation⟩ else ⟨some s.generation, g.last⟩)
    else none
  | .delta d =>
    match g with
    | ⟨none, some l⟩ => if l < d.generation then some ⟨none, some d.generation⟩ else none
    | _ => none

@[grind =] def Gate.run : Gate → List InterestFrame → Option Gate
  | g, [] => some g
  | g, f :: fs => (g.step f).bind (fun g => g.run fs)

theorem Gate.run_append (g : Gate) (fs gs : List InterestFrame) :
    g.run (fs ++ gs) = (g.run fs).bind (fun g => g.run gs) := by
  induction fs generalizing g with
  | nil => rfl
  | cons f fs ih =>
    simp only [cons_append, Gate.run]
    cases g.step f with
    | none => rfl
    | some g' => exact ih g'

/-- The set a stream rebuilds, and whether it exceeded the limit since its last snapshot. -/
structure Shadow where
  set : FMap Bytes EntryClass
  marks : FMap Bytes EntryClass
  exceeded : Bool

@[grind =] def mark (m : FMap Bytes EntryClass) (e : InterestEntry) : FMap Bytes EntryClass :=
  m.insert e.filter e.stored

@[grind =] def Shadow.step (maxFilters : ℕ) (sh : Shadow) : InterestFrame → Shadow
  | .snapshot s =>
    let marks := s.entries.foldl mark (if s.first then ∅ else sh.marks)
    if s.last then ⟨marks, ∅, size marks > maxFilters⟩
    else { sh with marks := marks }
  | .delta d =>
    let set := d.entries.foldl applyChange sh.set
    { sh with set := set, exceeded := sh.exceeded || size set > maxFilters }

def FrameValid (t : InterestTable) : InterestFrame → Prop
  | .snapshot s => ∀ e ∈ s.entries, t.validEntry e false = true
  | .delta d => ∀ e ∈ d.entries, t.validEntry e true = true

theorem applyChange_lookup (m : FMap Bytes EntryClass) (e : InterestEntry) (f : Bytes) :
    (applyChange m e).lookup f =
      if f = e.filter then (if e.cls = interestNone then none else some e.stored) else m.lookup f :=
  lookup_eraseIf _ _ _ _ _

theorem foldl_applyChange_congr {m m' : FMap Bytes EntryClass} (h : ∀ f, m.lookup f = m'.lookup f)
    (es : List InterestEntry) (f : Bytes) :
    (es.foldl applyChange m).lookup f = (es.foldl applyChange m').lookup f := by
  induction es generalizing m m' with
  | nil => exact h f
  | cons e es ih =>
    apply ih
    intro g
    rw [applyChange_lookup, applyChange_lookup, h g]

theorem mark_lookup (m : FMap Bytes EntryClass) (e : InterestEntry) (f : Bytes) :
    (mark m e).lookup f = if f = e.filter then some e.stored else m.lookup f := by
  by_cases hf : f = e.filter
  · subst hf
    simp [mark]
  · simp [mark, hf, AList.lookup_insert_ne hf]

private theorem foldl_mark_congr {m m' : FMap Bytes EntryClass} (h : ∀ f, m.lookup f = m'.lookup f)
    (es : List InterestEntry) (f : Bytes) : (es.foldl mark m).lookup f = (es.foldl mark m').lookup f := by
  induction es generalizing m m' with
  | nil => exact h f
  | cons e es ih =>
    apply ih
    intro g
    rw [mark_lookup, mark_lookup, h g]

namespace InterestTable

variable {t : InterestTable}

private theorem markEntries_eq {es : List InterestEntry}
    (h : ∀ e ∈ es, t.validEntry e false = true) (m : FMap Bytes EntryClass) :
    t.markEntries m es = es.foldl mark m := by
  induction es generalizing m with
  | nil => rfl
  | cons e es ih =>
    simp only [markEntries, foldl_cons, h e (mem_cons_self ..), ↓reduceIte]
    exact ih (fun x hx => h x (mem_cons_of_mem _ hx)) _

private theorem deleteLocked_lookup (t : InterestTable) (p : PeerInterest) (f g : Bytes) :
    (t.deleteLocked p f).2.entries.lookup g = (p.entries.erase f).lookup g := by
  simp only [deleteLocked]
  split
  · rename_i hnone
    by_cases hg : g = f
    · subst hg
      rw [hnone, AList.lookup_erase]
    · rw [AList.lookup_erase_ne hg]
  · rfl

theorem applyEntries_lookup {es : List InterestEntry}
    (h : ∀ e ∈ es, t.validEntry e true = true) (p : PeerInterest) (f : Bytes) :
    (t.applyEntries p es).2.entries.lookup f = (es.foldl applyChange p.entries).lookup f := by
  induction es generalizing t p with
  | nil => rfl
  | cons e es ih =>
    have he := h e (mem_cons_self ..)
    simp only [applyEntries, foldl_cons, he, Bool.not_true, Bool.false_eq_true, ↓reduceIte]
    by_cases hn : e.cls = interestNone
    · have hrest : ∀ x ∈ es, (t.deleteLocked p e.filter).1.validEntry x true = true := by
        intro x hx
        rw [(deleteLocked_entriesOnly t p e.filter).validEntry]
        exact h x (mem_cons_of_mem _ hx)
      rw [if_pos hn]
      refine (ih hrest _).trans (foldl_applyChange_congr (fun g => ?_) es f)
      refine (deleteLocked_lookup t p e.filter g).trans ?_
      rw [applyChange, if_pos hn]
    · have hrest : ∀ x ∈ es, (t.putLocked p e.filter e.stored).1.validEntry x true = true := by
        intro x hx
        rw [(putLocked_entriesOnly t p e.filter e.stored).validEntry]
        exact h x (mem_cons_of_mem _ hx)
      rw [if_neg hn]
      refine (ih hrest _).trans (foldl_applyChange_congr (fun g => ?_) es f)
      rw [applyChange, if_neg hn]
      rfl

/-- The peer agrees with the frames of its session that were applied so far. -/
structure Agrees (p : PeerInterest) (g : Gate) (sh : Shadow) : Prop where
  opened : ∀ n, g.snap = some n →
    p.snapOpen = true ∧ p.snapGen = n ∧ ∀ f, p.snapMarks.lookup f = sh.marks.lookup f
  settled : ∀ n, g = ⟨none, some n⟩ →
    p.haveGen = true ∧ p.lastGen = n ∧ p.overLimit = sh.exceeded ∧ p.state = .live ∧ p.dense = false ∧
      (p.overLimit = false → ∀ f, p.entries.lookup f = sh.set.lookup f) ∧
      (p.overLimit = true → p.entries = ∅)
  dense : p.dense = false

variable {p : PeerInterest}

theorem openSnapshot_of_gate {g : Gate} {sh : Shadow} (h : Agrees p g sh)
    {s : InterestSnapshot} (hs : (s.first || g.snap = some s.generation) = true) :
    ∃ p', openSnapshot p s = .ok p' ∧ p'.snapOpen = true ∧ p'.snapGen = s.generation ∧
      p'.dense = false ∧
      ∀ f, p'.snapMarks.lookup f = (if s.first then ∅ else sh.marks).lookup f := by
  cases hf : s.first with
  | true =>
    refine ⟨{ p with
      snapOpen := true
      snapGen := s.generation
      snapMarks := ∅ }, ?_, rfl, rfl, h.dense, fun f => by simp⟩
    simp only [InterestSnapshot.first, ne_eq, decide_not, Bool.not_eq_true', decide_eq_false_iff_not] at hf
    rw [openSnapshot, if_pos hf]
  | false =>
    rw [hf, Bool.false_or, decide_eq_true_eq] at hs
    obtain ⟨hopen, hgen, hmarks⟩ := h.opened _ hs
    refine ⟨p, ?_, hopen, hgen, h.dense, fun f => by simpa using hmarks f⟩
    simp only [InterestSnapshot.first, ne_eq, decide_not, Bool.not_eq_false', decide_eq_true_eq] at hf
    simp [openSnapshot, hf, hopen, hgen]

theorem sweepMarks_peer (t : InterestTable) (p : PeerInterest) (gen : UInt32) (now : ℤ) :
    (t.sweepMarks p gen now).2.haveGen = true ∧ (t.sweepMarks p gen now).2.lastGen = gen ∧
      (t.sweepMarks p gen now).2.state = .live ∧ (t.sweepMarks p gen now).2.dense = p.dense ∧
      (t.sweepMarks p gen now).2.overLimit = decide (size p.snapMarks > t.maxFilters) ∧
      (size p.snapMarks ≤ t.maxFilters → (t.sweepMarks p gen now).2.entries = p.snapMarks) ∧
      (size p.snapMarks > t.maxFilters → (t.sweepMarks p gen now).2.entries = ∅) := by
  have hmax : (t.clearEntriesLocked p).1.maxFilters = t.maxFilters := by
    rw [(clearEntriesLocked_entriesOnly t p).table]
  have hmarks : (t.clearEntriesLocked p).2.snapMarks = p.snapMarks := rfl
  refine ⟨rfl, rfl, rfl, rfl, ?_, ?_, ?_⟩
  · simp only [sweepMarks, applyModeLocked, hmax, hmarks]
  · intro hle
    have hnot : ¬ size p.snapMarks > t.maxFilters := by omega
    simp only [sweepMarks, applyModeLocked, hmax, hmarks, decide_eq_true_eq, hnot, ↓reduceIte]
  · intro hgt
    simp only [sweepMarks, applyModeLocked, hmax, hmarks, decide_eq_true_eq, hgt, ↓reduceIte]
    rfl

/-- A frame that the gate lets through is applied without an error, and the peer keeps up. -/
theorem Agrees.snapshot {g g' : Gate} {sh : Shadow}
    (h : Agrees p g sh) {s : InterestSnapshot} (hg : g.step (.snapshot s) = some g')
    (hv : FrameValid t (.snapshot s)) (now : ℤ) : ∃ r, t.applySnapshotPeer p s now = .ok r ∧
      Agrees r.2 g' (sh.step t.maxFilters (.snapshot s)) := by
  simp only [Gate.step] at hg
  split at hg
  · rename_i hs
    obtain ⟨p', hopen, hsnap, hgen, hdense, hmarks⟩ := openSnapshot_of_gate h hs
    have hmarked : ∀ f, (t.markEntries p'.snapMarks s.entries).lookup f =
        (s.entries.foldl mark (if s.first then ∅ else sh.marks)).lookup f := by
      intro f
      rw [markEntries_eq hv]
      exact foldl_mark_congr hmarks s.entries f
    rw [Option.some.injEq] at hg
    cases hl : s.last with
    | false =>
      have hflag : s.flags &&& interestFlagLast = 0 := by
        simpa [InterestSnapshot.last] using hl
      rw [hl] at hg
      subst hg
      refine ⟨(t, { p' with snapMarks := t.markEntries p'.snapMarks s.entries }),
        by simp [applySnapshotPeer, hopen, hflag], ?_⟩
      simp only [Shadow.step, hl, Bool.false_eq_true, ↓reduceIte]
      refine ⟨?_, ?_, hdense⟩
      · intro n hn
        rw [Option.some.injEq] at hn
        exact ⟨hsnap, hgen.trans hn, hmarked⟩
      · intro n hn
        cases hn
    | true =>
      have hflag : s.flags &&& interestFlagLast ≠ 0 := by
        simpa [InterestSnapshot.last] using hl
      rw [hl] at hg
      subst hg
      refine ⟨t.sweepMarks { p' with snapMarks := t.markEntries p'.snapMarks s.entries } s.generation now,
        by simp [applySnapshotPeer, hopen, hflag], ?_⟩
      simp only [Shadow.step, hl, ↓reduceIte]
      obtain ⟨hhave, hlast, hlive, hden, hover, hent, hemp⟩ := sweepMarks_peer t
        { p' with snapMarks := t.markEntries p'.snapMarks s.entries } s.generation now
      have hsize := size_congr hmarked
      refine ⟨?_, ?_, hden.trans hdense⟩
      · intro n hn
        cases hn
      · intro n hn
        rw [Gate.mk.injEq, Option.some.injEq] at hn
        refine ⟨hhave, hlast.trans hn.2, ?_, hlive, hden.trans hdense, ?_, ?_⟩
        · rw [hover]
          simp only [hsize]
        · intro hno f
          rw [hover, decide_eq_false_iff_not] at hno
          rw [hent (by simpa using hno)]
          exact hmarked f
        · intro hyes
          rw [hover, decide_eq_true_eq] at hyes
          exact hemp hyes
  · cases hg

@[grind =] def stampGen (p : PeerInterest) (gen : UInt32) : PeerInterest :=
  { p with lastGen := gen, haveGen := true }

variable {d : InterestDelta}

/-- `applyDelta` on a peer over the limit notes the generation only. -/
theorem applyDeltaPeer_over
    (hnew : (p.haveGen && decide (d.generation ≤ p.lastGen)) = false) (ho : p.overLimit = true) :
    t.applyDeltaPeer p d = (t, stampGen p d.generation) := by
  simp [applyDeltaPeer, hnew, ho, stampGen]

/-- `applyDelta` on a peer within the limit. -/
theorem applyDeltaPeer_within
    (hnew : (p.haveGen && decide (d.generation ≤ p.lastGen)) = false) (ho : p.overLimit = false)
    (hv : FrameValid t (.delta d)) :
    (t.applyDeltaPeer p d).2.haveGen = true ∧ (t.applyDeltaPeer p d).2.lastGen = d.generation ∧
      (t.applyDeltaPeer p d).2.state = p.state ∧ (t.applyDeltaPeer p d).2.dense = p.dense ∧
      (t.applyDeltaPeer p d).2.overLimit =
        decide (size (d.entries.foldl applyChange p.entries) > t.maxFilters) ∧
      ((t.applyDeltaPeer p d).2.overLimit = false →
        ∀ f, (t.applyDeltaPeer p d).2.entries.lookup f =
          (d.entries.foldl applyChange p.entries).lookup f) ∧
      ((t.applyDeltaPeer p d).2.overLimit = true → (t.applyDeltaPeer p d).2.entries = ∅) := by
  have hover : (stampGen p d.generation).overLimit = false := ho
  have hentries : (stampGen p d.generation).entries = p.entries := rfl
  have honly := applyEntries_entriesOnly t (stampGen p d.generation) d.entries
  have hlook := applyEntries_lookup hv (stampGen p d.generation)
  rw [hentries] at hlook
  have hsize := size_congr hlook
  have hmax : (t.applyEntries (stampGen p d.generation) d.entries).1.maxFilters = t.maxFilters := by
    rw [honly.table]
  have heq : t.applyDeltaPeer p d =
      if size (t.applyEntries (stampGen p d.generation) d.entries).2.entries > t.maxFilters then
        let c := (t.applyEntries (stampGen p d.generation) d.entries).1.clearEntriesLocked
          (t.applyEntries (stampGen p d.generation) d.entries).2
        c.1.applyModeLocked { c.2 with overLimit := true }
      else t.applyEntries (stampGen p d.generation) d.entries := by
    rw [applyDeltaPeer, if_neg (by simp [hnew])]
    change (if (stampGen p d.generation).overLimit = true then _ else _) = _
    rw [if_neg (by simp [hover]), ← hmax]
    rfl
  rw [heq, hsize]
  split
  · rename_i hbig
    have hpeer := honly.peer
    simp only [applyModeLocked, clearEntriesLocked, decide_eq_true hbig]
    generalize (t.applyEntries (stampGen p d.generation) d.entries).2 = r at hpeer
    rw [hpeer]
    refine ⟨rfl, rfl, rfl, rfl, trivial, fun hc => ?_, fun _ => trivial⟩
    cases hc
  · rename_i hbig
    have hpeer := honly.peer
    simp only [decide_eq_false hbig]
    generalize (t.applyEntries (stampGen p d.generation) d.entries).2 = r at hpeer hlook
    refine ⟨?_, ?_, ?_, ?_, ?_, fun _ => hlook, ?_⟩
    · rw [hpeer]
      rfl
    · rw [hpeer]
      rfl
    · rw [hpeer]
      rfl
    · rw [hpeer]
      rfl
    · rw [hpeer]
      exact ho
    · intro hc
      rw [hpeer] at hc
      exact absurd (hc.symm.trans ho) (by simp)

theorem Agrees.delta {g g' : Gate} {sh : Shadow} (h : Agrees p g sh) (hg : g.step (.delta d) = some g')
    (hv : FrameValid t (.delta d)) : (p.haveGen && decide (d.generation ≤ p.lastGen)) = false ∧
      Agrees (t.applyDeltaPeer p d).2 g' (sh.step t.maxFilters (.delta d)) := by
  simp only [Gate.step] at hg
  split at hg
  · rename_i l
    split at hg
    · rename_i hlt
      rw [Option.some.injEq] at hg
      subst hg
      obtain ⟨-, hlast, hover, hlive, hdense, hent, hemp⟩ := h.settled l rfl
      have hnew : (p.haveGen && decide (d.generation ≤ p.lastGen)) = false := by
        rw [hlast, Bool.and_eq_false_iff]
        right
        simpa using hlt
      refine ⟨hnew, ?_⟩
      cases ho : p.overLimit with
      | true =>
        rw [applyDeltaPeer_over hnew ho]
        rw [ho] at hover
        refine ⟨?_, ?_, h.dense⟩
        · intro n hn
          cases hn
        · intro n hn
          rw [Gate.mk.injEq, Option.some.injEq] at hn
          refine ⟨rfl, hn.2, ?_, hlive, hdense, ?_, fun _ => hemp ho⟩
          · simp only [Shadow.step, ← hover, Bool.true_or]
            exact ho
          · intro hc
            rw [show (stampGen p d.generation).overLimit = p.overLimit from rfl, ho] at hc
            cases hc
      | false =>
        obtain ⟨hhave', hlast', hstate', hdense', hover', hent', hemp'⟩ := applyDeltaPeer_within hnew ho hv
        rw [ho] at hover
        have hcongr := foldl_applyChange_congr (hent ho) d.entries
        have hsize := size_congr hcongr
        refine ⟨?_, ?_, hdense'.trans h.dense⟩
        · intro n hn
          cases hn
        · intro n hn
          rw [Gate.mk.injEq, Option.some.injEq] at hn
          refine ⟨hhave', hlast'.trans hn.2, ?_, hstate'.trans hlive, hdense'.trans hdense, ?_, hemp'⟩
          · simp only [Shadow.step, ← hover, Bool.false_or]
            rw [hover', hsize]
          · intro hc f
            rw [hent' hc f]
            exact hcongr f
    · cases hg
  · cases hg

end InterestTable

end MonsterMQ.PeerLink
