import MonsterMQ.PeerLinkInterestTable
import MonsterMQ.StateRuns

/-!
# The interest table keeps trie, masks and entries in step

`Sound` says what holds of one peer between two statements of an operation: its bits in the trie are its
entries.
-/

namespace MonsterMQ.PeerLink

open LittleEndian FiniteMaps MaskNode List

theorem validInterestFilter_hashLast {f : Bytes} {n : ℕ} (h : validInterestFilter f n = true) :
    HashLast (levels f) := by
  simp only [validInterestFilter] at h
  split at h
  · cases h
  · simp only [validFilter] at h
    split at h
    · cases h
    · cases hv : validLevels (levels f) with
      | error e => simp [hv, Except.isOk, Except.toBool] at h
      | ok u => exact hashLast_of_validLevels hv

namespace InterestTable

@[grind =]
def Stored (t : InterestTable) (i : ℕ) (fs : List Bytes) : Prop := (maskOf fs t.trie).getLsbD i = true

structure Sound (t : InterestTable) (p : PeerInterest) : Prop where
  bound : p.idx < 64
  clean : Clean t.trie
  stored : ∀ fs, HashLast fs →
    (t.Stored p.idx fs ↔ p.inTrie = true ∧ ∃ f, f ∈ p.entries ∧ levels f = fs)
  valid : ∀ f, f ∈ p.entries → validInterestFilter f t.maxBytes = true
  marks : ∀ f, f ∈ p.snapMarks → validInterestFilter f t.maxBytes = true
  persistent : p.persistent = (count EntryClass.isPer p.entries : ℤ)

structure Settled (t : InterestTable) (p : PeerInterest) : Prop where
  inTrie : p.inTrie = filteredLocked p
  always : t.always.getLsbD p.idx = t.alwaysLocked p

structure SameOthers (i : ℕ) (t t' : InterestTable) : Prop where
  peers : t'.peers = t.peers
  full : t'.full = t.full
  unknownAll : t'.unknownAll = t.unknownAll
  maxFilters : t'.maxFilters = t.maxFilters
  maxBytes : t'.maxBytes = t.maxBytes
  trie : ∀ j, j ≠ i → ∀ fs, HashLast fs → (t'.Stored j fs ↔ t.Stored j fs)
  always : ∀ j, j ≠ i → t'.always.getLsbD j = t.always.getLsbD j

structure Edited (t : InterestTable) (p : PeerInterest) (s : InterestTable × PeerInterest) : Prop where
  others : SameOthers p.idx t s.1
  idx : s.2.idx = p.idx
  sound : Sound s.1 s.2

theorem SameOthers.refl (i : ℕ) (t : InterestTable) : SameOthers i t t :=
  ⟨rfl, rfl, rfl, rfl, rfl, fun _ _ _ _ => Iff.rfl, fun _ _ => rfl⟩

variable {t : InterestTable}

theorem SameOthers.trans {i : ℕ} {t' t'' : InterestTable} (h : SameOthers i t t')
    (h' : SameOthers i t' t'') : SameOthers i t t'' where
  peers := h'.peers.trans h.peers
  full := h'.full.trans h.full
  unknownAll := h'.unknownAll.trans h.unknownAll
  maxFilters := h'.maxFilters.trans h.maxFilters
  maxBytes := h'.maxBytes.trans h.maxBytes
  trie := fun j hj fs hfs => (h'.trie j hj fs hfs).trans (h.trie j hj fs hfs)
  always := fun j hj => (h'.always j hj).trans (h.always j hj)

variable {p p' : PeerInterest}

theorem Edited.trans {s s' : InterestTable × PeerInterest}
    (h : Edited t p s) (h' : Edited s.1 s.2 s') : Edited t p s' where
  others := h.others.trans (h.idx ▸ h'.others)
  idx := h'.idx.trans h.idx
  sound := h'.sound

theorem Sound.of_eq (h : Sound t p) (hidx : p'.idx = p.idx)
    (htrie : p'.inTrie = p.inTrie) (hentries : p'.entries = p.entries) (hper : p'.persistent = p.persistent)
    (hmarks : ∀ f, f ∈ p'.snapMarks → validInterestFilter f t.maxBytes = true) : Sound t p' := by
  constructor
  · rw [hidx]
    exact h.bound
  · exact h.clean
  · intro fs hfs
    rw [hidx, htrie, hentries]
    exact h.stored fs hfs
  · intro f hf
    rw [hentries] at hf
    exact h.valid f hf
  · exact hmarks
  · rw [hper, hentries]
    exact h.persistent

theorem Edited.of_eq {s : InterestTable × PeerInterest}
    (h : Edited t p' s) (hidx : p'.idx = p.idx) : Edited t p s where
  others := hidx ▸ h.others
  idx := h.idx.trans hidx
  sound := h.sound

theorem Sound.edited (h : Sound t p') (hidx : p'.idx = p.idx) : Edited t p (t, p') :=
  ⟨SameOthers.refl _ _, hidx, h⟩

variable {fs : List Bytes}

theorem setAll_stored (t : InterestTable) (hp : p.idx < 64) (on : Bool)
    (hfs : ∀ f ∈ fs, HashLast (levels f)) (j : ℕ) {gs : List Bytes} (hgs : HashLast gs) :
    (t.setAll p fs on).Stored j gs ↔
      if j = p.idx ∧ gs ∈ fs.map levels then on = true else t.Stored j gs := by
  simp only [setAll, Stored]
  induction fs generalizing t with
  | nil => simp
  | cons f fs ih =>
    have hf := hfs f (mem_cons_self ..)
    have hstep := ih { t with trie := t.trie.set f p.bit on }
      (fun g hg => hfs g (mem_cons_of_mem _ hg))
    rw [foldl_cons, hstep, PeerInterest.bit, maskOf_set _ _ hp hf hgs]
    by_cases hj : j = p.idx
    · by_cases hg : gs = levels f
      · simp [hj, hg]
      · simp [hj, hg]
    · simp [hj]

theorem setAll_clean (h : Clean t.trie) (p : PeerInterest) (fs : List Bytes)
    (on : Bool) : Clean (t.setAll p fs on).trie := by
  simp only [setAll]
  induction fs generalizing t with
  | nil => exact h
  | cons f fs ih => exact ih (t := { t with trie := t.trie.set f p.bit on }) (h.setLevels _ _ _)

theorem setAll_others (t : InterestTable) (hp : p.idx < 64) (on : Bool)
    (hfs : ∀ f ∈ fs, HashLast (levels f)) : SameOthers p.idx t (t.setAll p fs on) where
  peers := rfl
  full := rfl
  unknownAll := rfl
  maxFilters := rfl
  maxBytes := rfl
  trie := by
    intro j hj gs hgs
    rw [setAll_stored t hp on hfs j hgs]
    simp [hj]
  always := fun _ _ => rfl

theorem Sound.keys_hashLast (h : Sound t p) : ∀ f ∈ p.entries.keys, HashLast (levels f) :=
  fun f hf => validInterestFilter_hashLast (h.valid f (AList.mem_keys.mpr hf))

theorem mem_map_levels {gs : List Bytes} : gs ∈ fs.map levels ↔ ∃ f, f ∈ fs ∧ levels f = gs := by simp

section

variable (h : Sound t p)
include h

theorem putLocked_edited {f : Bytes} (hf : validInterestFilter f t.maxBytes = true) (e : EntryClass) :
    Edited t p (t.putLocked p f e) := by
  have hlast := validInterestFilter_hashLast hf
  have hone : ∀ g ∈ [f], HashLast (levels g) := by simpa using hlast
  have hcount := count_insert EntryClass.isPer p.entries f e
  have hper := h.persistent
  by_cases hnew : (p.entries.lookup f).isNone && p.inTrie
  · have hput : t.putLocked p f e = (t.setAll p [f] true, (t.putLocked p f e).2) := by
      simp [putLocked, hnew]
    rw [hput]
    simp only [Bool.and_eq_true, Option.isNone_iff_eq_none, AList.lookup_eq_none] at hnew
    refine ⟨setAll_others t h.bound true hone, rfl, ?_⟩
    constructor
    · exact h.bound
    · exact setAll_clean h.clean _ _ _
    · intro fs hfs
      rw [putLocked]
      simp only [setAll_stored t h.bound true hone _ hfs, h.stored fs hfs, AList.mem_insert,
        map_cons, map_nil, mem_singleton, true_and, hnew.2]
      constructor
      · intro hif
        split at hif
        · rename_i hgs
          exact ⟨f, .inl rfl, hgs.symm⟩
        · obtain ⟨g, hg, hgs⟩ := hif
          exact ⟨g, .inr hg, hgs⟩
      · rintro ⟨g, hg | hg, hgs⟩
        · simp [← hgs, hg]
        · split
          · trivial
          · exact ⟨g, hg, hgs⟩
    · intro g hg
      rcases (AList.mem_insert _).mp hg with rfl | hg
      · exact hf
      · exact h.valid g hg
    · exact h.marks
    · simp only [putLocked]
      omega
  · have hput : t.putLocked p f e = (t, (t.putLocked p f e).2) := by
      simp [putLocked, hnew]
    rw [hput]
    refine ⟨SameOthers.refl _ _, rfl, ?_⟩
    constructor
    · exact h.bound
    · exact h.clean
    · intro fs hfs
      simp only [putLocked, h.stored fs hfs, AList.mem_insert]
      constructor
      · rintro ⟨htrie, g, hg, hgs⟩
        exact ⟨htrie, g, .inr hg, hgs⟩
      · rintro ⟨htrie, g, hg | hg, hgs⟩
        · have hold : f ∈ p.entries := by
            by_contra hmem
            exact hnew (by simp [AList.lookup_eq_none.mpr hmem, htrie])
          exact ⟨htrie, f, hold, hg ▸ hgs⟩
        · exact ⟨htrie, g, hg, hgs⟩
    · intro g hg
      rcases (AList.mem_insert _).mp hg with rfl | hg
      · exact hf
      · exact h.valid g hg
    · exact h.marks
    · simp only [putLocked]
      omega

theorem deleteLocked_edited (f : Bytes) : Edited t p (t.deleteLocked p f) := by
  cases hlook : p.entries.lookup f with
  | none =>
    rw [deleteLocked, hlook]
    exact h.edited rfl
  | some old =>
    have hmem : f ∈ p.entries := AList.lookup_isSome.mp (by simp [hlook])
    have hlast := validInterestFilter_hashLast (h.valid f hmem)
    have hone : ∀ g ∈ [f], HashLast (levels g) := by simpa using hlast
    have hcount := count_erase EntryClass.isPer p.entries f
    rw [hlook] at hcount
    have hper := h.persistent
    simp only [deleteLocked, hlook]
    cases htrie : p.inTrie with
    | true =>
      refine ⟨setAll_others t h.bound false hone, rfl, ?_⟩
      constructor
      · exact h.bound
      · exact setAll_clean h.clean _ _ _
      · intro fs hfs
        simp only [↓reduceIte, setAll_stored t h.bound false hone _ hfs, h.stored fs hfs, AList.mem_erase,
          map_cons, map_nil, mem_singleton, true_and, htrie]
        constructor
        · intro hif
          split at hif
          · cases hif
          · rename_i hgs
            obtain ⟨g, hg, rfl⟩ := hif
            exact ⟨g, ⟨fun hgf => hgs (hgf ▸ rfl), hg⟩, rfl⟩
        · rintro ⟨g, ⟨hgf, hg⟩, rfl⟩
          rw [if_neg (fun hl => hgf (levels_injective hl))]
          exact ⟨g, hg, rfl⟩
      · intro g hg
        exact h.valid g (AList.mem_erase.mp hg).2
      · exact h.marks
      · simp only
        omega
    | false =>
      refine ⟨SameOthers.refl _ _, rfl, ?_⟩
      constructor
      · exact h.bound
      · exact h.clean
      · intro fs hfs
        simp only [Bool.false_eq_true, ↓reduceIte, h.stored fs hfs, htrie, false_and]
      · intro g hg
        exact h.valid g (AList.mem_erase.mp hg).2
      · exact h.marks
      · simp only
        omega

theorem deleteAll_edited (fs : List Bytes) : Edited t p (t.deleteAll p fs) := by
  induction fs generalizing t p with
  | nil => exact h.edited rfl
  | cons f fs ih =>
    have hone := deleteLocked_edited h f
    exact hone.trans (ih hone.sound)

theorem clearEntriesLocked_edited : Edited t p (t.clearEntriesLocked p) := by
  have hkeys := h.keys_hashLast
  simp only [clearEntriesLocked]
  cases htrie : p.inTrie with
  | true =>
    refine ⟨setAll_others t h.bound false hkeys, rfl, ?_⟩
    constructor
    · exact h.bound
    · exact setAll_clean h.clean _ _ _
    · intro fs hfs
      have hst := setAll_stored t h.bound false hkeys p.idx hfs
      simp only [h.stored fs hfs, mem_map_levels, true_and] at hst
      refine hst.trans ?_
      constructor
      · intro hif
        split at hif
        · cases hif
        · rename_i hno
          exact absurd hif.2 hno
      · rintro ⟨-, g, hg, -⟩
        exact absurd hg (AList.notMem_empty g)
    · intro g hg
      exact absurd hg (AList.notMem_empty g)
    · exact h.marks
    · rfl
  | false =>
    refine ⟨SameOthers.refl _ _, rfl, ?_⟩
    constructor
    · exact h.bound
    · exact h.clean
    · intro fs hfs
      simp only [Bool.false_eq_true, ↓reduceIte, h.stored fs hfs, htrie, false_and]
    · intro g hg
      exact absurd hg (AList.notMem_empty g)
    · exact h.marks
    · rfl

/-- `applyModeLocked` settles a sound peer. -/
theorem applyModeLocked_edited :
    Edited t p (t.applyModeLocked p) ∧ Settled (t.applyModeLocked p).1 (t.applyModeLocked p).2 := by
  have hkeys := h.keys_hashLast
  have hset : ∀ t' : InterestTable, SameOthers p.idx t t' → SameOthers p.idx t
      { t' with always := MaskNode.setBit t'.always p.bit (t.alwaysLocked p) } := by
    intro t' ho
    refine ⟨ho.peers, ho.full, ho.unknownAll, ho.maxFilters, ho.maxBytes, ho.trie, ?_⟩
    intro j hj
    simp only [PeerInterest.bit]
    rw [setBit_getLsbD _ _ h.bound, if_neg hj]
    exact ho.always j hj
  have hsettled : Settled (t.applyModeLocked p).1 (t.applyModeLocked p).2 := by
    refine ⟨rfl, ?_⟩
    simp only [applyModeLocked, PeerInterest.bit]
    rw [setBit_getLsbD _ _ h.bound, if_pos rfl]
    split <;> rfl
  refine ⟨?_, hsettled⟩
  by_cases hwant : filteredLocked p = p.inTrie
  · have hmode : t.applyModeLocked p =
        ({ t with always := MaskNode.setBit t.always p.bit (t.alwaysLocked p) },
          { p with inTrie := filteredLocked p }) := by
      simp [applyModeLocked, hwant]
    rw [hmode]
    refine ⟨hset t (SameOthers.refl _ _), rfl, ?_⟩
    refine ⟨h.bound, h.clean, ?_, h.valid, h.marks, h.persistent⟩
    intro fs hfs
    rw [hwant]
    exact h.stored fs hfs
  · have hmode : t.applyModeLocked p =
        ({ t.setAll p p.entries.keys (filteredLocked p) with
            always := MaskNode.setBit t.always p.bit (t.alwaysLocked p) },
          { p with inTrie := filteredLocked p }) := by
      simp [applyModeLocked, hwant, setAll]
    rw [hmode]
    refine ⟨hset (t.setAll p p.entries.keys (filteredLocked p)) (setAll_others t h.bound _ hkeys), rfl, ?_⟩
    refine ⟨h.bound, setAll_clean h.clean _ _ _, ?_, h.valid, h.marks, h.persistent⟩
    intro fs hfs
    have hst := setAll_stored t h.bound (filteredLocked p) hkeys p.idx hfs
    simp only [true_and, mem_map_levels] at hst
    have hin : (t.setAll p p.entries.keys (filteredLocked p)).Stored p.idx fs ↔
        filteredLocked p = true ∧ ∃ f, f ∈ p.entries.keys ∧ levels f = fs := by
      rw [hst]
      constructor
      · intro hif
        split at hif
        · rename_i hex
          exact ⟨hif, hex⟩
        · rename_i hno
          exact absurd ((h.stored fs hfs).mp hif).2 hno
      · rintro ⟨hw, hex⟩
        rw [if_pos hex]
        exact hw
    exact hin

end

end InterestTable

end MonsterMQ.PeerLink
