import MonsterMQ.PeerLinkInterestTableInvariant

/-!
# What the interest table matches

The invariant of the whole table over every sequence of connects, disconnects, snapshots,
deltas and expiries, and what `match` then answers for each consumer.
-/

namespace MonsterMQ.PeerLink

open LittleEndian FiniteMaps MaskNode List

namespace InterestTable

structure EntriesOnly (t : InterestTable) (p : PeerInterest) (s : InterestTable × PeerInterest) : Prop where
  table : s.1 = { t with trie := s.1.trie }
  peer : s.2 = { p with entries := s.2.entries, persistent := s.2.persistent }

theorem EntriesOnly.refl (t : InterestTable) (p : PeerInterest) : EntriesOnly t p (t, p) := ⟨rfl, rfl⟩

variable {t : InterestTable} {p p' : PeerInterest}

variable {s : InterestTable × PeerInterest}

theorem EntriesOnly.trans {s' : InterestTable × PeerInterest}
    (h : EntriesOnly t p s) (h' : EntriesOnly s.1 s.2 s') : EntriesOnly t p s' := by
  constructor
  · rw [h'.table, h.table]
  · rw [h'.peer, h.peer]

theorem EntriesOnly.settled
    (h : EntriesOnly t p s) (hp : Settled t p) : Settled s.1 s.2 := by
  constructor
  · rw [h.peer]
    exact hp.inTrie
  · rw [h.table, h.peer]
    exact hp.always

theorem putLocked_entriesOnly (t : InterestTable) (p : PeerInterest) (f : Bytes) (e : EntryClass) :
    EntriesOnly t p (t.putLocked p f e) := by
  constructor
  · simp only [putLocked]
    split <;> rfl
  · rfl

theorem deleteLocked_entriesOnly (t : InterestTable) (p : PeerInterest) (f : Bytes) :
    EntriesOnly t p (t.deleteLocked p f) := by
  simp only [deleteLocked]
  split
  · exact EntriesOnly.refl t p
  · constructor
    · simp only
      split <;> rfl
    · rfl

theorem deleteAll_entriesOnly (t : InterestTable) (p : PeerInterest) (fs : List Bytes) :
    EntriesOnly t p (t.deleteAll p fs) := by
  induction fs generalizing t p with
  | nil => exact EntriesOnly.refl t p
  | cons f fs ih => exact (deleteLocked_entriesOnly t p f).trans (ih _ _)

theorem clearEntriesLocked_entriesOnly (t : InterestTable) (p : PeerInterest) :
    EntriesOnly t p (t.clearEntriesLocked p) := by
  constructor
  · simp only [clearEntriesLocked]
    split <;> rfl
  · rfl

theorem validEntry_filter {e : InterestEntry} {delta : Bool}
    (h : t.validEntry e delta = true) : validInterestFilter e.filter t.maxBytes = true := by
  simp only [validEntry] at h
  split at h
  · exact h
  · split at h
    · split at h
      · exact h
      · cases h
    · cases h

theorem EntriesOnly.validEntry
    (h : EntriesOnly t p s) (e : InterestEntry) (delta : Bool) :
    s.1.validEntry e delta = t.validEntry e delta := by
  rw [h.table]
  rfl

structure Served (t : InterestTable) (p : PeerInterest) (s : InterestTable × PeerInterest) : Prop where
  edited : Edited t p s
  settled : Settled s.1 s.2

theorem Edited.applyMode
    (h : Edited t p s) (hp : Sound s.1 p') (hidx : p'.idx = s.2.idx) :
    Served t p (s.1.applyModeLocked p') := by
  obtain ⟨hmode, hsettled⟩ := applyModeLocked_edited hp
  exact ⟨h.trans (hmode.of_eq hidx), hsettled⟩

theorem connectPeer_served (h : Sound t p) (inst : UInt64)
    (capable : Bool) : Served t p (t.connectPeer p inst capable) := by
  cases capable with
  | false =>
    have hp : Sound t { p with
        connected := true
        snapOpen := false
        haveGen := false
        sweeping := false
        instanceID := inst
        instanceSeen := true } := h.of_eq rfl rfl rfl rfl h.marks
    have hclear := clearEntriesLocked_edited hp
    simp only [connectPeer, Bool.not_false, ↓reduceIte]
    refine (hclear.of_eq (p := p) rfl).applyMode ?_ rfl
    exact hclear.sound.of_eq rfl rfl rfl rfl hclear.sound.marks
  | true =>
    have hp : Sound t { p with
        connected := true
        snapOpen := false
        haveGen := false
        sweeping := false
        instanceID := inst
        instanceSeen := true
        dense := false
        state := if p.dense then .unknown else p.state } := h.of_eq rfl rfl rfl rfl h.marks
    simp only [connectPeer, Bool.not_true, Bool.false_eq_true, ↓reduceIte]
    split
    · have hdel := deleteAll_edited hp
      exact ((hdel _).of_eq (p := p) rfl).applyMode (hdel _).sound rfl
    · exact ((hp.edited (p := p) rfl)).applyMode hp rfl

theorem disconnectPeer_served (h : Sound t p)
    (hs : Settled t p) (now : ℤ) : Served t p (t.disconnectPeer p now) := by
  simp only [disconnectPeer]
  split
  · exact ⟨h.edited rfl, hs⟩
  · have hp : Sound t { p with
        connected := false
        snapOpen := false
        snapMarks := ∅
        state := if p.state = .live then .disconnected else p.state
        disconnectedAt := if p.state = .live then now else p.disconnectedAt } :=
      h.of_eq rfl rfl rfl rfl (fun f hf => absurd hf (AList.notMem_empty f))
    exact (hp.edited (p := p) rfl).applyMode hp rfl

private theorem markEntries_valid {marks : FMap Bytes EntryClass}
    (h : ∀ f, f ∈ marks → validInterestFilter f t.maxBytes = true) (es : List InterestEntry) :
    ∀ f, f ∈ t.markEntries marks es → validInterestFilter f t.maxBytes = true := by
  induction es generalizing marks with
  | nil => exact h
  | cons e es ih =>
    simp only [markEntries, foldl_cons]
    apply ih
    split
    · rename_i he
      intro f hf
      rcases (AList.mem_insert _).mp hf with rfl | hf
      · exact validEntry_filter he
      · exact h f hf
    · exact h

private theorem openSnapshot_sound (h : Sound t p)
    {s : InterestSnapshot} (ho : openSnapshot p s = .ok p') : Sound t p' ∧ p'.idx = p.idx := by
  simp only [openSnapshot] at ho
  split at ho
  · cases ho
    exact ⟨h.of_eq rfl rfl rfl rfl (fun f hf => absurd hf (AList.notMem_empty f)), rfl⟩
  · split at ho
    · cases ho
    · split at ho
      · cases ho
      · cases ho
        exact ⟨h, rfl⟩

private theorem openSnapshot_settled (h : Settled t p)
    {s : InterestSnapshot} (ho : openSnapshot p s = .ok p') : Settled t p' := by
  simp only [openSnapshot] at ho
  split at ho
  · cases ho
    exact ⟨h.inTrie, h.always⟩
  · split at ho
    · cases ho
    · split at ho
      · cases ho
      · cases ho
        exact h

theorem setAll_entries_sound (h : Sound t p) (hempty : p.entries = ∅) {es : FMap Bytes EntryClass}
    (hes : ∀ f, f ∈ es → validInterestFilter f t.maxBytes = true) : Edited t p
      (if p.inTrie then t.setAll p es.keys true else t,
        { p with entries := es, persistent := (count EntryClass.isPer es : ℤ) }) := by
  have hkeys : ∀ f ∈ es.keys, HashLast (levels f) :=
    fun f hf => validInterestFilter_hashLast (hes f (AList.mem_keys.mpr hf))
  have hnone : ∀ fs, HashLast fs → ¬ t.Stored p.idx fs := by
    intro fs hfs hst
    obtain ⟨-, f, hf, -⟩ := (h.stored fs hfs).mp hst
    rw [hempty] at hf
    exact AList.notMem_empty f hf
  cases htrie : p.inTrie with
  | true =>
    refine ⟨setAll_others t h.bound true hkeys, rfl, ?_⟩
    refine ⟨h.bound, setAll_clean h.clean _ _ _, ?_, hes, h.marks, rfl⟩
    intro fs hfs
    have hst := setAll_stored t h.bound true hkeys p.idx hfs
    simp only [mem_map_levels, true_and, hnone fs hfs] at hst
    have hin : (t.setAll p es.keys true).Stored p.idx fs ↔
        true = true ∧ ∃ f, f ∈ es.keys ∧ levels f = fs := by
      rw [hst]
      constructor
      · intro hif
        split at hif
        · rename_i hex
          exact ⟨rfl, hex⟩
        · exact hif.elim
      · rintro ⟨-, hex⟩
        rw [if_pos hex]
        trivial
    exact hin
  | false =>
    refine ⟨SameOthers.refl _ _, rfl, ?_⟩
    refine ⟨h.bound, h.clean, ?_, hes, h.marks, rfl⟩
    intro fs hfs
    simp only [Bool.false_eq_true, ↓reduceIte, false_and, iff_false]
    exact hnone fs hfs

theorem sweepMarks_served (h : Sound t p) (gen : UInt32) (now : ℤ) : Served t p (t.sweepMarks p gen now) := by
  have hclear := clearEntriesLocked_edited h
  have hmax : (t.clearEntriesLocked p).1.maxBytes = t.maxBytes := hclear.others.maxBytes
  have hnomarks : ∀ f, f ∈ (∅ : FMap Bytes EntryClass) →
      validInterestFilter f (t.clearEntriesLocked p).1.maxBytes = true :=
    fun f hf => absurd hf (AList.notMem_empty f)
  cases hover : decide (size p.snapMarks > (t.clearEntriesLocked p).1.maxFilters) with
  | true =>
    have hswept : Sound (t.clearEntriesLocked p).1 { (t.clearEntriesLocked p).2 with
        snapMarks := ∅
        snapOpen := false
        overLimit := true
        lastGen := gen
        haveGen := true
        snapshotGen := gen
        lastSnapshotAt := now
        state := .live
        sweeping := false } := hclear.sound.of_eq rfl rfl rfl rfl hnomarks
    have heq : t.sweepMarks p gen now = (t.clearEntriesLocked p).1.applyModeLocked
        { (t.clearEntriesLocked p).2 with
          snapMarks := ∅
          snapOpen := false
          overLimit := true
          lastGen := gen
          haveGen := true
          snapshotGen := gen
          lastSnapshotAt := now
          state := .live
          sweeping := false } := by
      have : (t.clearEntriesLocked p).2.snapMarks = p.snapMarks := rfl
      simp only [sweepMarks, this, hover, Bool.not_true, Bool.false_and, Bool.false_eq_true, ↓reduceIte]
    rw [heq]
    exact hclear.applyMode hswept rfl
  | false =>
    have hmarks : ∀ f, f ∈ p.snapMarks →
        validInterestFilter f (t.clearEntriesLocked p).1.maxBytes = true :=
      fun f hf => hmax ▸ h.marks f hf
    have hcleared : Sound (t.clearEntriesLocked p).1 { (t.clearEntriesLocked p).2 with
        snapMarks := ∅
        snapOpen := false
        overLimit := false } := hclear.sound.of_eq rfl rfl rfl rfl hnomarks
    have hfill := setAll_entries_sound hcleared rfl hmarks
    have hall := hclear.trans (hfill.of_eq rfl)
    have heq : t.sweepMarks p gen now =
        (if p.inTrie then (t.clearEntriesLocked p).1.setAll p p.snapMarks.keys true
          else (t.clearEntriesLocked p).1).applyModeLocked
        { (t.clearEntriesLocked p).2 with
          entries := p.snapMarks
          persistent := (count EntryClass.isPer p.snapMarks : ℤ)
          snapMarks := ∅
          snapOpen := false
          overLimit := false
          lastGen := gen
          haveGen := true
          snapshotGen := gen
          lastSnapshotAt := now
          state := .live
          sweeping := false } := by
      have : (t.clearEntriesLocked p).2.snapMarks = p.snapMarks := rfl
      simp only [sweepMarks, this, hover, Bool.not_false, Bool.true_and, Bool.false_eq_true, ↓reduceIte]
      rfl
    rw [heq]
    exact hall.applyMode (hfill.sound.of_eq rfl rfl rfl rfl hfill.sound.marks) rfl

theorem applySnapshotPeer_served (h : Sound t p)
    (hs : Settled t p) {s : InterestSnapshot} {now : ℤ} {r : InterestTable × PeerInterest}
    (hr : t.applySnapshotPeer p s now = .ok r) : Served t p r := by
  simp only [applySnapshotPeer] at hr
  split at hr
  · cases hr
  · rename_i p' hopen
    obtain ⟨hsound, hidx⟩ := openSnapshot_sound h hopen
    have hsettled := openSnapshot_settled hs hopen
    have hmarked : Sound t { p' with snapMarks := t.markEntries p'.snapMarks s.entries } :=
      hsound.of_eq rfl rfl rfl rfl (markEntries_valid hsound.marks s.entries)
    split at hr
    · cases hr
      exact ⟨hmarked.edited hidx, ⟨hsettled.inTrie, hsettled.always⟩⟩
    · cases hr
      have hserved := sweepMarks_served hmarked s.generation now
      exact ⟨hserved.edited.of_eq hidx, hserved.settled⟩

theorem applyEntries_entriesOnly (t : InterestTable) (p : PeerInterest) (es : List InterestEntry) :
    EntriesOnly t p (t.applyEntries p es) := by
  induction es generalizing t p with
  | nil => exact EntriesOnly.refl t p
  | cons e es ih =>
    simp only [applyEntries, foldl_cons]
    split
    · exact ih t p
    · split
      · exact (deleteLocked_entriesOnly t p e.filter).trans (ih _ _)
      · exact (putLocked_entriesOnly t p e.filter _).trans (ih _ _)

theorem applyEntries_edited (h : Sound t p) (es : List InterestEntry) : Edited t p (t.applyEntries p es) := by
  induction es generalizing t p with
  | nil => exact h.edited rfl
  | cons e es ih =>
    simp only [applyEntries, foldl_cons]
    split
    · exact ih h
    · rename_i hvalid
      split
      · have hdel := deleteLocked_edited h e.filter
        exact hdel.trans (ih hdel.sound)
      · have hentry : t.validEntry e true = true := by simpa using hvalid
        have hput := putLocked_edited h (validEntry_filter hentry) ⟨e.cls, expiryOf e⟩
        exact hput.trans (ih hput.sound)

theorem applyDeltaPeer_served (h : Sound t p)
    (hs : Settled t p) (d : InterestDelta) : Served t p (t.applyDeltaPeer p d) := by
  simp only [applyDeltaPeer]
  split
  · exact ⟨h.edited rfl, hs⟩
  · have hp : Sound t { p with lastGen := d.generation, haveGen := true } := h.of_eq rfl rfl rfl rfl h.marks
    have hps : Settled t { p with lastGen := d.generation, haveGen := true } := ⟨hs.inTrie, hs.always⟩
    split
    · exact ⟨hp.edited rfl, hps⟩
    · have hes := applyEntries_edited hp d.entries
      have honly := applyEntries_entriesOnly t { p with lastGen := d.generation, haveGen := true } d.entries
      split
      · have hclear := clearEntriesLocked_edited hes.sound
        refine ((hes.trans hclear).of_eq (p := p) rfl).applyMode ?_ rfl
        exact hclear.sound.of_eq rfl rfl rfl rfl hclear.sound.marks
      · exact ⟨hes.of_eq rfl, honly.settled hps⟩

theorem expirePeer_served (h : Sound t p) (hs : Settled t p) (now : ℤ) : Served t p (t.expirePeer p now) := by
  simp only [expirePeer]
  split
  · exact ⟨h.edited rfl, hs⟩
  · have hdel := deleteAll_edited h (filtersWhere p (expired (now - p.disconnectedAt)))
    have hset := (deleteAll_entriesOnly t p (filtersWhere p (expired (now - p.disconnectedAt)))).settled hs
    split
    · refine ⟨hdel.trans (Sound.edited ?_ rfl), ⟨hset.inTrie, hset.always⟩⟩
      exact hdel.sound.of_eq rfl rfl rfl rfl hdel.sound.marks
    · exact ⟨hdel, hset⟩

/-- The table between two statements of an operation on consumer `i`. -/
structure InvExcept (i : ℕ) (t : InterestTable) : Prop where
  bound : t.peers.length ≤ 64
  clean : Clean t.trie
  idx : ∀ (j : ℕ) (p : PeerInterest), t.peers[j]? = some p → p.idx = j
  full : ∀ j, t.full.getLsbD j = true ↔ j < t.peers.length
  sound : ∀ (j : ℕ) (p : PeerInterest), t.peers[j]? = some p → Sound t p
  settled : ∀ (j : ℕ) (p : PeerInterest), j ≠ i → t.peers[j]? = some p → Settled t p
  outside : ∀ j, t.peers.length ≤ j → ∀ fs, HashLast fs → ¬ t.Stored j fs

structure Inv (t : InterestTable) : Prop where
  bound : t.peers.length ≤ 64
  clean : Clean t.trie
  idx : ∀ (i : ℕ) (p : PeerInterest), t.peers[i]? = some p → p.idx = i
  full : ∀ i, t.full.getLsbD i = true ↔ i < t.peers.length
  sound : ∀ (i : ℕ) (p : PeerInterest), t.peers[i]? = some p → Sound t p
  settled : ∀ (i : ℕ) (p : PeerInterest), t.peers[i]? = some p → Settled t p
  outside : ∀ i, t.peers.length ≤ i → ∀ fs, HashLast fs → ¬ t.Stored i fs

theorem Inv.except (h : Inv t) (i : ℕ) : InvExcept i t :=
  ⟨h.bound, h.clean, h.idx, h.full, h.sound, fun j p _ => h.settled j p, h.outside⟩

theorem Sound.store {q : PeerInterest} (h : Sound t p) : Sound (t.store q) p :=
  ⟨h.bound, h.clean, h.stored, h.valid, h.marks, h.persistent⟩

variable {i : ℕ}

theorem Sound.of_others {t' : InterestTable} (h : Sound t p)
    (ho : SameOthers i t t') (hclean : Clean t'.trie) (hi : p.idx ≠ i) : Sound t' p := by
  constructor
  · exact h.bound
  · exact hclean
  · intro fs hfs
    exact (ho.trie p.idx hi fs hfs).trans (h.stored fs hfs)
  · rw [ho.maxBytes]
    exact h.valid
  · rw [ho.maxBytes]
    exact h.marks
  · exact h.persistent

theorem Settled.of_others {t' : InterestTable} (h : Settled t p)
    (ho : SameOthers i t t') (hi : p.idx ≠ i) : Settled t' p := by
  constructor
  · exact h.inTrie
  · rw [ho.always p.idx hi, h.always]
    simp only [alwaysLocked, ho.unknownAll]

theorem InvExcept.store (h : InvExcept i t)
    (hp : t.peers[i]? = some p) (hs : Served t p s) :
    Inv (s.1.store s.2) := by
  have hi : p.idx = i := h.idx i p hp
  have hsi : s.2.idx = i := hs.edited.idx.trans hi
  have ho : SameOthers i t s.1 := hi ▸ hs.edited.others
  have hlen : i < t.peers.length := (List.getElem?_eq_some_iff.mp hp).1
  have hpeers : (s.1.store s.2).peers = t.peers.set i s.2 := by
    rw [InterestTable.store, ho.peers, hsi]
  have hget : ∀ j q, (s.1.store s.2).peers[j]? = some q →
      (j = i ∧ q = s.2) ∨ (j ≠ i ∧ t.peers[j]? = some q) := by
    intro j q hq
    rw [hpeers, List.getElem?_set] at hq
    by_cases hij : i = j
    · subst hij
      simp only [↓reduceIte, hlen, Option.some.injEq] at hq
      exact .inl ⟨rfl, hq.symm⟩
    · simp only [hij, ↓reduceIte] at hq
      exact .inr ⟨fun e => hij e.symm, hq⟩
  constructor
  · rw [hpeers, length_set]
    exact h.bound
  · exact hs.edited.sound.clean
  · intro j q hq
    rcases hget j q hq with ⟨rfl, rfl⟩ | ⟨-, hq⟩
    · exact hsi
    · exact h.idx j q hq
  · intro j
    rw [hpeers, length_set, ← h.full j, InterestTable.store, ho.full]
  · intro j q hq
    apply Sound.store
    rcases hget j q hq with ⟨rfl, rfl⟩ | ⟨hj, hq⟩
    · exact hs.edited.sound
    · exact (h.sound j q hq).of_others ho hs.edited.sound.clean (by rw [h.idx j q hq]; exact hj)
  · intro j q hq
    rcases hget j q hq with ⟨rfl, rfl⟩ | ⟨hj, hq⟩
    · exact ⟨hs.settled.inTrie, hs.settled.always⟩
    · have := (h.settled j q hj hq).of_others ho (by rw [h.idx j q hq]; exact hj)
      exact ⟨this.inTrie, this.always⟩
  · intro j hj fs hfs hst
    rw [hpeers, length_set] at hj
    exact h.outside j hj fs hfs ((ho.trie j (by omega) fs hfs).mp hst)

theorem Inv.onPeer (h : Inv t) (idx : ℕ) {f : InterestTable → PeerInterest → InterestTable × PeerInterest}
    (hf : ∀ p, Sound t p → Settled t p → Served t p (f t p)) : Inv (t.onPeer idx f) := by
  simp only [InterestTable.onPeer]
  split
  · exact h
  · rename_i p hp
    split
    · exact h
    · exact (h.except _).store hp (hf p (h.sound idx p hp) (h.settled idx p hp))

theorem Inv.connect (h : Inv t) (idx : ℕ) (inst : UInt64) (capable : Bool) :
    Inv (t.connect idx inst capable) :=
  h.onPeer idx (fun _ hp _ => connectPeer_served hp inst capable)

theorem Inv.disconnect (h : Inv t) (idx : ℕ) (now : ℤ) : Inv (t.disconnect idx now) :=
  h.onPeer idx (fun _ hp hs => disconnectPeer_served hp hs now)

theorem Inv.applyDelta (h : Inv t) (idx : ℕ) (d : InterestDelta) : Inv (t.applyDelta idx d) :=
  h.onPeer idx (fun _ hp hs => applyDeltaPeer_served hp hs d)

theorem Inv.applySnapshot (h : Inv t) (idx : ℕ) (s : InterestSnapshot) (now : ℤ) :
    Inv (t.applySnapshot idx s now).1 := by
  simp only [InterestTable.applySnapshot]
  split
  · exact h
  · rename_i p hp
    split
    · exact h
    · split
      · exact h
      · rename_i t' p' hr
        exact (h.except _).store hp (applySnapshotPeer_served (h.sound idx p hp) (h.settled idx p hp) hr)

theorem Inv.expire (h : Inv t) (now : ℤ) : Inv (t.expire now) := by
  simp only [InterestTable.expire]
  generalize List.range t.peers.length = is
  induction is generalizing t with
  | nil => exact h
  | cons i is ih =>
    apply ih
    simp only [expireAt]
    split
    · exact h
    · rename_i p hp
      exact (h.except _).store hp (expirePeer_served (h.sound i p hp) (h.settled i p hp) now)

private theorem getLsbD_or_bit (m : Mask) {j : ℕ} (hj : j < 64) :
    (m ||| 1#64 <<< j).getLsbD i = if i = j then true else m.getLsbD i := by
  have := setBit_getLsbD m true hj (i := i)
  simpa only [setBit, ↓reduceIte] using this

theorem Inv.append (h : Inv t) (hlen : t.peers.length < 64) (enabled : Bool) :
    InvExcept t.peers.length { t with
      peers := t.peers ++ [newPeer t.peers.length enabled]
      full := t.full ||| (newPeer t.peers.length enabled).bit } := by
  have hget : ∀ j p, (t.peers ++ [newPeer t.peers.length enabled])[j]? = some p →
      t.peers[j]? = some p ∨ j = t.peers.length ∧ p = newPeer t.peers.length enabled := by
    intro j p hp
    rcases Nat.lt_trichotomy j t.peers.length with hj | hj | hj
    · rw [List.getElem?_append_left hj] at hp
      exact .inl hp
    · subst hj
      rw [List.getElem?_concat_length, Option.some.injEq] at hp
      exact .inr ⟨rfl, hp.symm⟩
    · rw [List.getElem?_eq_none (by simp; omega)] at hp
      cases hp
  constructor
  · simp
    omega
  · exact h.clean
  · intro j p hp
    rcases hget j p hp with hp | ⟨rfl, rfl⟩
    · exact h.idx j p hp
    · rfl
  · intro j
    simp only [PeerInterest.bit, newPeer, getLsbD_or_bit _ hlen, length_append, length_cons,
      length_nil]
    split
    · simp
      omega
    · rw [h.full]
      omega
  · intro j p hp
    rcases hget j p hp with hp | ⟨rfl, rfl⟩
    · have := h.sound j p hp
      exact ⟨this.bound, this.clean, this.stored, this.valid, this.marks, this.persistent⟩
    · refine ⟨hlen, h.clean, ?_, ?_, ?_, rfl⟩
      · intro fs hfs
        simp only [newPeer, Bool.false_eq_true, false_and, iff_false]
        exact h.outside t.peers.length (le_refl _) fs hfs
      · exact fun f hf => absurd hf (AList.notMem_empty f)
      · exact fun f hf => absurd hf (AList.notMem_empty f)
  · intro j p hj hp
    rcases hget j p hp with hp | ⟨hjl, -⟩
    · have := h.settled j p hp
      exact ⟨this.inTrie, this.always⟩
    · exact absurd hjl hj
  · intro j hj fs hfs
    simp only [length_append, length_cons, length_nil] at hj
    exact h.outside j (by omega) fs hfs

theorem Inv.addPeer (h : Inv t) (hlen : t.peers.length < 64) (enabled : Bool) : Inv (t.addPeer enabled) := by
  have happ := h.append hlen enabled
  have hget : (t.peers ++ [newPeer t.peers.length enabled])[t.peers.length]? =
      some (newPeer t.peers.length enabled) := List.getElem?_concat_length
  obtain ⟨hmode, hsettled⟩ := applyModeLocked_edited (happ.sound _ _ hget)
  exact happ.store hget ⟨hmode, hsettled⟩

theorem addPeer_peers (t : InterestTable) (enabled : Bool) :
    (t.addPeer enabled).peers = t.peers ++ [newPeer t.peers.length enabled] := by
  have hmode : filteredLocked (newPeer t.peers.length enabled) = false := by
    simp [filteredLocked, newPeer]
  have hin : (newPeer t.peers.length enabled).inTrie = false := rfl
  simp only [InterestTable.addPeer, applyModeLocked, hmode, hin, ne_eq, not_true_eq_false, ↓reduceIte,
    store]
  have hset : (t.peers ++ [newPeer t.peers.length enabled]).set t.peers.length
      (newPeer t.peers.length enabled) = t.peers ++ [newPeer t.peers.length enabled] := by
    rw [set_append_right _ _ (le_refl _)]
    simp
  exact hset

theorem foldl_addPeer_peers (bs : List Bool) (t : InterestTable) : (bs.foldl InterestTable.addPeer t).peers =
      t.peers ++ bs.mapIdx (fun i b => newPeer (t.peers.length + i) b) := by
  induction bs generalizing t with
  | nil => simp
  | cons b bs ih =>
    rw [foldl_cons, ih, addPeer_peers]
    simp [mapIdx_cons, Nat.add_assoc, Nat.add_comm 1]

theorem newInterestTable_peers (peers : List Bool) (unknownAll : Bool) (maxFilters maxBytes : ℕ) :
    (newInterestTable peers unknownAll maxFilters maxBytes).peers = peers.mapIdx newPeer := by
  rw [newInterestTable, foldl_addPeer_peers]
  simp

theorem newInterestTable_inv {peers : List Bool} (h : peers.length ≤ 64) (unknownAll : Bool)
    (maxFilters maxBytes : ℕ) : Inv (newInterestTable peers unknownAll maxFilters maxBytes) := by
  have hfold : ∀ (bs : List Bool) (t : InterestTable), Inv t → t.peers.length + bs.length ≤ 64 →
      Inv (bs.foldl InterestTable.addPeer t) := by
    intro bs
    induction bs with
    | nil => exact fun t ht _ => ht
    | cons b bs ih =>
      intro t ht hlen
      simp only [length_cons] at hlen
      exact ih _ (ht.addPeer (by omega) b) (by rw [addPeer_peers, length_append]; simp; omega)
  apply hfold
  · constructor
    · simp
    · exact clean_zero
    · simp
    · simp
    · simp
    · simp
    · intro i _ fs _ hst
      simp [Stored] at hst
  · simpa using h

private theorem maskOf_root_empty {n : MaskNode} (hc : n.children = []) (hp : n.plus = none)
    (hh : n.hashMask = 0) {fs : List Bytes} (hfs : fs ≠ []) : maskOf fs n = 0 := by
  cases fs with
  | nil => exact absurd rfl hfs
  | cons l ls => simp [maskOf, hh, child, hc, hp]

theorem Inv.stored_iff (h : Inv t) (hp : t.peers[i]? = some p) {fs : List Bytes} (hfs : HashLast fs) :
    t.Stored i fs ↔ filteredLocked p = true ∧ ∃ f, f ∈ p.entries ∧ levels f = fs := by
  have hst := (h.sound i p hp).stored fs hfs
  rw [h.idx i p hp, (h.settled i p hp).inTrie] at hst
  exact hst

theorem matchTopic_iff (h : Inv t)
    (hp : t.peers[i]? = some p) {topic : Bytes} (ht : topic.head? ≠ some dollarByte) :
    (t.matchTopic topic).getLsbD i = true ↔
      t.alwaysLocked p = true ∨
        (filteredLocked p = true ∧ ∃ f, f ∈ p.entries ∧ filterMatches (levels f) (levels topic) = true) := by
  have halways : t.always.getLsbD i = t.alwaysLocked p := by
    rw [← h.idx i p hp]
    exact (h.settled i p hp).always
  have hfull : t.full.getLsbD i = true := (h.full i).mpr (List.getElem?_eq_some_iff.mp hp).1
  cases hal : t.alwaysLocked p with
  | true =>
    rw [hal] at halways
    simp only [InterestTable.matchTopic, true_or, iff_true]
    split
    · simp [halways]
    · exact halways
  | false =>
    rw [hal] at halways
    have hne : t.always ≠ t.full := by
      intro heq
      rw [heq, hfull] at halways
      cases halways
    simp only [Bool.false_eq_true, false_or, InterestTable.matchTopic]
    split
    · have hwant : (t.full &&& ~~~t.always).getLsbD i = true := by
        have hi : i < 64 := by
          have := (List.getElem?_eq_some_iff.mp hp).1
          have := h.bound
          omega
        rw [BitVec.getLsbD_and, BitVec.getLsbD_not, hfull, halways]
        simp [hi]
      rw [BitVec.getLsbD_or, halways, Bool.false_or, matchTopic_getLsbD h.clean ht hwant]
      constructor
      · rintro ⟨fs, hfs, hmatch, hst⟩
        obtain ⟨hfil, f, hf, rfl⟩ := (h.stored_iff hp hfs).mp hst
        exact ⟨hfil, f, hf, hmatch⟩
      · rintro ⟨hfil, f, hf, hmatch⟩
        have hlast := validInterestFilter_hashLast ((h.sound i p hp).valid f hf)
        exact ⟨levels f, hlast, hmatch, (h.stored_iff hp hlast).mpr ⟨hfil, f, hf, rfl⟩⟩
    · rename_i hempty
      rw [halways]
      simp only [Bool.false_eq_true, false_iff, not_and, not_exists]
      intro hfil f hf
      exfalso
      have hlast := validInterestFilter_hashLast ((h.sound i p hp).valid f hf)
      have hst := (h.stored_iff hp hlast).mpr ⟨hfil, f, hf, rfl⟩
      simp only [ne_eq, hne, not_false_eq_true, true_and, not_or, not_not, Bool.not_eq_true,
        Option.isSome_eq_false_iff, Option.isNone_iff_eq_none] at hempty
      rw [Stored, maskOf_root_empty hempty.1 hempty.2.1 hempty.2.2 (levels_ne_nil f)] at hst
      simp at hst

inductive Op where
  | connect (idx : ℕ) (inst : UInt64) (capable : Bool)
  | disconnect (idx : ℕ) (now : ℤ)
  | applySnapshot (idx : ℕ) (s : InterestSnapshot) (now : ℤ)
  | applyDelta (idx : ℕ) (d : InterestDelta)
  | expire (now : ℤ)

@[grind =] def step (t : InterestTable) : Op → InterestTable
  | .connect idx inst capable => t.connect idx inst capable
  | .disconnect idx now => t.disconnect idx now
  | .applySnapshot idx s now => (t.applySnapshot idx s now).1
  | .applyDelta idx d => t.applyDelta idx d
  | .expire now => t.expire now

theorem Inv.step (h : Inv t) (op : Op) : Inv (t.step op) := by
  cases op with
  | connect idx inst capable => exact h.connect idx inst capable
  | disconnect idx now => exact h.disconnect idx now
  | applySnapshot idx s now => exact h.applySnapshot idx s now
  | applyDelta idx d => exact h.applyDelta idx d
  | expire now => exact h.expire now

private theorem run_inv {peers : List Bool} (h : peers.length ≤ 64) (unknownAll : Bool)
    (maxFilters maxBytes : ℕ) (ops : List Op) :
    Inv (StateRuns.run step (newInterestTable peers unknownAll maxFilters maxBytes) ops) :=
  StateRuns.run_always (fun _ op ht => ht.step op) (newInterestTable_inv h _ _ _) ops

/-- Over every run the bit of a peer is set exactly when it is served everything or one of
its filters matches, and `persistent` counts its PER filters. -/
theorem run_match {peers : List Bool} (h : peers.length ≤ 64) (unknownAll : Bool)
    (maxFilters maxBytes : ℕ) (ops : List Op) {t : InterestTable}
    (ht : t = StateRuns.run step (newInterestTable peers unknownAll maxFilters maxBytes) ops)
    {i : ℕ} {p : PeerInterest} (hp : t.peers[i]? = some p) : (∀ topic : Bytes, topic.head? ≠ some dollarByte →
      ((t.matchTopic topic).getLsbD i = true ↔
        (p.enabled = false ∨ p.dense = true ∨ p.overLimit = true ∨
          (p.state = .unknown ∧ t.unknownAll = true)) ∨
        ((p.enabled = true ∧ p.dense = false ∧ p.overLimit = false ∧ p.state ≠ .unknown) ∧
          ∃ f, f ∈ p.entries ∧ filterMatches (levels f) (levels topic) = true))) ∧
    p.persistent = (count EntryClass.isPer p.entries : ℤ) := by
  have hinv : Inv t := ht ▸ run_inv h unknownAll maxFilters maxBytes ops
  refine ⟨?_, (hinv.sound i p hp).persistent⟩
  intro topic htopic
  rw [matchTopic_iff hinv hp htopic]
  have hmode : t.alwaysLocked p = true ↔ (p.enabled = false ∨ p.dense = true ∨ p.overLimit = true ∨
      (p.state = .unknown ∧ t.unknownAll = true)) := by
    simp only [alwaysLocked]
    cases p.enabled <;> cases p.dense <;> cases p.overLimit <;> simp
  have hfiltered : filteredLocked p = true ↔
      (p.enabled = true ∧ p.dense = false ∧ p.overLimit = false ∧ p.state ≠ .unknown) := by
    simp only [filteredLocked]
    cases p.enabled <;> cases p.dense <;> cases p.overLimit <;> simp
  rw [hmode, hfiltered]

/-- Two consumers, one with interest routing off: after a snapshot with `a/+` and a PER
filter `b`, the topic `a/x` goes to both, and `b` counts as persistent. -/
theorem run_match_sample :
    let ops : List Op :=
      [.connect 0 7 true,
        .applySnapshot 0 ⟨1, 3, [⟨1, 0, [0x61, 0x2F, 0x2B]⟩, ⟨2, 60, [0x62]⟩]⟩ 0]
    let t := StateRuns.run step (newInterestTable [true, false] false 10 100) ops
    ∃ p, t.peers[0]? = some p ∧ (t.matchTopic [0x61, 0x2F, 0x78]).getLsbD 0 = true ∧
      (t.matchTopic [0x63]).getLsbD 0 = false ∧ p.persistent = 1 := by
  intro ops t
  obtain ⟨p, hp⟩ : ∃ p, t.peers[0]? = some p := by
    apply Option.isSome_iff_exists.mp
    decide
  have hlen : [true, false].length ≤ 64 := by decide
  have hrun := run_match hlen false 10 100 ops rfl hp
  refine ⟨p, hp, ?_, ?_, ?_⟩
  · decide
  · decide
  · have hget : t.peers[0]?.map (fun p => count EntryClass.isPer p.entries) = some 1 := by
      decide
    rw [hp, Option.map_some, Option.some.injEq] at hget
    rw [hrun.2, hget]
    rfl

end InterestTable

end MonsterMQ.PeerLink
