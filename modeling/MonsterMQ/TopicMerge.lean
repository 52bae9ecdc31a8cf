import MonsterMQ.TopicIndexSubscribers

/-!
# Merged subscriptions

What `Subscription.Merge` makes of the matching subscriptions of one client: the highest QoS,
No Local if any has it, every identifier, and the retain flag of the one it started with.
-/

namespace MonsterMQ.Topics

open LittleEndian PeerLink FiniteMaps List

/-- The positive identifier a subscription carries for a filter. -/
@[grind =] def Subscription.idFor (s : Subscription) (f : Bytes) : ℤ :=
  match s.identifiers with
  | some ids => max 0 ((ids.lookup f).getD 0)
  | none => if f = s.filter then max 0 s.identifier else 0

structure Subscription.IdsKept (s : Subscription) : Prop where
  nonempty : ∀ ids, s.identifiers = some ids → 0 < size ids
  own : ∀ ids, s.identifiers = some ids → 0 < s.identifier → ids.lookup s.filter = some s.identifier

variable {s n r : Subscription}

theorem Subscription.IdsKept.of_none (h : s.identifiers = none) : s.IdsKept :=
  ⟨fun _ he => absurd (h.symm.trans he) (by simp), fun _ he => absurd (h.symm.trans he) (by simp)⟩

theorem Subscription.idFor_nonneg (s : Subscription) (f : Bytes) : 0 ≤ s.idFor f := by
  unfold idFor
  split
  · exact le_max_left _ _
  · split
    · exact le_max_left _ _
    · exact le_refl _

theorem lookup_overwrite {l : List (Σ _ : Bytes, ℤ)} (hn : (l.map Sigma.fst).Nodup) (m : FMap Bytes ℤ) (f : Bytes) :
    (l.foldl (fun (ids : FMap Bytes ℤ) e => if e.2 > 0 then ids.insert e.1 e.2 else ids) m).lookup f =
      match l.find? fun e => e.1 = f with
      | some e => if e.2 > 0 then some e.2 else m.lookup f
      | none => m.lookup f := by
  induction l generalizing m with
  | nil => rfl
  | cons e l ih =>
    rw [map_cons, nodup_cons] at hn
    rw [foldl_cons, ih hn.2, List.find?_cons]
    by_cases hf : e.1 = f
    · have hnone : (l.find? fun e => decide (e.1 = f)) = none := by
        rw [List.find?_eq_none]
        intro e' he' hk
        exact hn.1 ((hf.trans (by simpa using hk : e'.1 = f).symm) ▸ mem_map_of_mem he')
      simp only [hf, decide_true, hnone]
      split
      · rw [AList.lookup_insert]
      · rfl
    · simp only [hf, decide_false]
      have hskip : (if e.2 > 0 then m.insert e.1 e.2 else m).lookup f = m.lookup f := by
        split
        · rw [AList.lookup_insert_ne (Ne.symm hf)]
        · rfl
      rw [hskip]

theorem find?_entries (m : FMap Bytes ℤ) (f : Bytes) :
    (m.entries.find? fun e => e.1 = f) = (m.lookup f).map fun v => ⟨f, v⟩ := by
  cases hl : m.lookup f with
  | none =>
    rw [Option.map_none, List.find?_eq_none]
    rintro ⟨f', v⟩ he hk
    simp only [decide_eq_true_eq] at hk
    subst hk
    have hsome : m.lookup f' = some v := AList.mem_lookup_iff.mpr he
    rw [hl] at hsome
    cases hsome
  | some v =>
    rw [Option.map_some]
    have hmem : (⟨f, v⟩ : Σ _ : Bytes, ℤ) ∈ m.entries := AList.mem_lookup_iff.mp hl
    cases hfind : m.entries.find? fun e => decide (e.1 = f) with
    | none =>
      rw [List.find?_eq_none] at hfind
      exact absurd (by simp) (hfind _ hmem)
    | some e =>
      obtain ⟨f', v'⟩ := e
      have hk : f' = f := by simpa using List.find?_some hfind
      subst hk
      have hsome : m.lookup f' = some v' := AList.mem_lookup_iff.mpr (mem_of_find?_eq_some hfind)
      rw [hl] at hsome
      cases hsome
      rfl

@[grind =] def baseIds (s : Subscription) : FMap Bytes ℤ :=
  s.identifiers.getD ((∅ : FMap Bytes ℤ).insert s.filter s.identifier)

theorem idFor_baseIds (s : Subscription) (f : Bytes) : s.idFor f = max 0 (((baseIds s).lookup f).getD 0) := by
  unfold Subscription.idFor baseIds
  cases s.identifiers with
  | some ids => rfl
  | none =>
    simp only [Option.getD_none, lookup_insert_if]
    split
    · rfl
    · rfl

theorem identifiersLen_pos_iff (h : s.IdsKept) : identifiersLen s.identifiers > 0 ↔ s.identifiers ≠ none := by
  cases hs : s.identifiers with
  | none => simp [identifiersLen]
  | some ids => simpa [identifiersLen] using h.nonempty ids hs

theorem lookup_mergeIdentifiers (s n : Subscription) {ids : FMap Bytes ℤ} (hn : n.IdsKept)
    (h : s.identifier > 0 ∨ n.identifier > 0 ∨ s.identifiers ≠ none ∨ n.identifiers ≠ none)
    (hs : s.IdsKept) (hids : mergeIdentifiers s n = some ids) (f : Bytes) :
    ids.lookup f = if n.idFor f > 0 then some (n.idFor f) else (baseIds s).lookup f := by
  have hcond : (decide (s.identifier > 0) || decide (n.identifier > 0) ||
      decide (identifiersLen s.identifiers > 0) || decide (identifiersLen n.identifiers > 0)) = true := by
    simp only [Bool.or_eq_true, decide_eq_true_eq, identifiersLen_pos_iff hs, identifiersLen_pos_iff hn]
    tauto
  simp only [mergeIdentifiers, hcond, ↓reduceIte, Option.some.injEq] at hids
  subst hids
  rw [← baseIds]
  cases hni : n.identifiers with
  | none =>
    simp only [Option.map_none, Option.getD_none, foldl_nil, Subscription.idFor, hni]
    by_cases hf : f = n.filter
    · subst hf
      by_cases hid : n.identifier > 0
      · have : max 0 n.identifier = n.identifier := max_eq_right hid.le
        simp [hid, this]
      · have : max 0 n.identifier = 0 := max_eq_left (not_lt.mp hid)
        simp [hid, this]
    · by_cases hid : n.identifier > 0
      · simp [hid, hf, AList.lookup_insert_ne hf]
      · simp [hid, hf]
  | some nids =>
    simp only [Option.map_some, Option.getD_some]
    rw [lookup_overwrite nids.nodupKeys, find?_entries]
    have hidFor : n.idFor f = max 0 ((nids.lookup f).getD 0) := by simp only [Subscription.idFor, hni]
    rw [hidFor]
    have hskip : nids.lookup f = none ∨ (∃ v, nids.lookup f = some v ∧ v ≤ 0) →
        (if n.identifier > 0 then (baseIds s).insert n.filter n.identifier else baseIds s).lookup f =
          (baseIds s).lookup f := by
      intro hno
      split
      · rename_i hid
        have hown := hn.own nids hni hid
        have hne : f ≠ n.filter := by
          rintro rfl
          rcases hno with hno | ⟨v, hv, hle⟩
          · rw [hown] at hno
            cases hno
          · rw [hown] at hv
            cases hv
            omega
        rw [AList.lookup_insert_ne hne]
      · rfl
    cases hl : nids.lookup f with
    | none =>
      simp only [Option.map_none, Option.getD_none, max_self, gt_iff_lt, lt_self_iff_false, ↓reduceIte]
      exact hskip (.inl hl)
    | some v =>
      simp only [Option.map_some, Option.getD_some]
      by_cases hv : v > 0
      · have hmax : max 0 v = v := max_eq_right hv.le
        simp only [hv, hmax, ↓reduceIte]
      · have hmax : max 0 v = 0 := max_eq_left (not_lt.mp hv)
        simp only [hv, hmax, gt_iff_lt, lt_self_iff_false, ↓reduceIte]
        exact hskip (.inr ⟨v, hl, not_lt.mp hv⟩)

theorem mergeIdentifiers_cases (hs : s.IdsKept) (hn : n.IdsKept) :
    (s.identifiers = none ∧ n.identifiers = none ∧ s.identifier ≤ 0 ∧ n.identifier ≤ 0 ∧
        mergeIdentifiers s n = none) ∨
      ∃ ids, mergeIdentifiers s n = some ids ∧
        ∀ f, ids.lookup f = if n.idFor f > 0 then some (n.idFor f) else (baseIds s).lookup f := by
  by_cases h : s.identifier > 0 ∨ n.identifier > 0 ∨ s.identifiers ≠ none ∨ n.identifiers ≠ none
  · obtain ⟨ids, hids⟩ : ∃ ids, mergeIdentifiers s n = some ids := by
      have hcond : (decide (s.identifier > 0) || decide (n.identifier > 0) ||
          decide (identifiersLen s.identifiers > 0) ||
          decide (identifiersLen n.identifiers > 0)) = true := by
        simp only [Bool.or_eq_true, decide_eq_true_eq, identifiersLen_pos_iff hs, identifiersLen_pos_iff hn]
        tauto
      simp only [mergeIdentifiers, hcond, ↓reduceIte]
      exact ⟨_, rfl⟩
    exact .inr ⟨ids, hids, lookup_mergeIdentifiers s n hn h hs hids⟩
  · simp only [not_or, not_lt, gt_iff_lt, ne_eq, not_not] at h
    obtain ⟨h1, h2, h3, h4⟩ := h
    refine .inl ⟨h3, h4, h1, h2, ?_⟩
    simp [mergeIdentifiers, h3, h4, identifiersLen, not_lt.mpr h1, not_lt.mpr h2]

theorem idFor_merge (hs : s.IdsKept) (hn : n.IdsKept) (f : Bytes) :
    (s.merge n).idFor f = if n.idFor f > 0 then n.idFor f else s.idFor f := by
  rcases mergeIdentifiers_cases hs hn with ⟨hsn, hnn, hs0, hn0, hm⟩ | ⟨ids, hm, hl⟩
  · have hid : (s.merge n).idFor f = s.idFor f := by
      simp only [Subscription.idFor, Subscription.merge, hm, hsn]
    have hnid : n.idFor f = 0 := by
      simp only [Subscription.idFor, hnn, max_eq_left hn0]
      split <;> rfl
    rw [hid, hnid]
    simp
  · have hid : (s.merge n).idFor f = max 0 ((ids.lookup f).getD 0) := by
      simp only [Subscription.idFor, Subscription.merge, hm]
    rw [hid, hl]
    split
    · rename_i hpos
      exact max_eq_right hpos.le
    · exact (idFor_baseIds s f).symm

theorem IdsKept.merge (hs : s.IdsKept) (hn : n.IdsKept) (hne : n.idFor s.filter = 0) :
    (s.merge n).IdsKept := by
  rcases mergeIdentifiers_cases hs hn with ⟨-, -, -, -, hm⟩ | ⟨ids, hm, hl⟩
  · exact Subscription.IdsKept.of_none hm
  · have hown : ids.lookup s.filter = (baseIds s).lookup s.filter := by
      rw [hl, hne]
      simp
    have hentry : 0 < s.identifier → (baseIds s).lookup s.filter = some s.identifier := by
      intro hpos
      unfold baseIds
      cases hsi : s.identifiers with
      | none => rw [Option.getD_none, AList.lookup_insert]
      | some m => exact hs.own m hsi hpos
    refine ⟨?_, ?_⟩
    · intro ids' he
      rw [show (s.merge n).identifiers = some ids from hm] at he
      cases he
      by_contra h0
      have hnone := lookup_eq_none_of_size (Nat.eq_zero_of_not_pos h0)
      have hbase : ∀ f, (baseIds s).lookup f = none := by
        intro f
        have := hnone f
        rw [hl] at this
        split at this
        · cases this
        · exact this
      unfold baseIds at hbase
      cases hsi : s.identifiers with
      | none =>
        have := hbase s.filter
        rw [hsi, Option.getD_none, AList.lookup_insert] at this
        cases this
      | some m =>
        rw [hsi] at hbase
        have hpos := hs.nonempty m hsi
        obtain ⟨⟨k, v⟩, he⟩ := exists_mem_of_length_pos hpos
        have hsome : m.lookup k = some v := AList.mem_lookup_iff.mpr he
        have := hbase k
        rw [Option.getD_some, hsome] at this
        cases this
    · intro ids' he hpos
      rw [show (s.merge n).identifiers = some ids from hm] at he
      cases he
      exact hown.trans (hentry hpos)

@[grind =] def posEntries (s : Subscription) : List (Σ _ : Bytes, ℤ) :=
  if identifiersLen s.identifiers > 0 then
    ((s.identifiers.map (·.entries)).getD []).filter fun e => e.2 > 0
  else if s.identifier > 0 then [⟨s.filter, s.identifier⟩]
  else []

theorem subscriptionIdentifiers_eq (s : Subscription) :
    s.subscriptionIdentifiers = ((posEntries s).map (·.2)).insertionSort (· ≤ ·) := by
  unfold Subscription.subscriptionIdentifiers posEntries
  split
  · rw [filter_map]
    rfl
  · split
    · rfl
    · rfl

theorem mem_posEntries (hs : s.IdsKept) {f : Bytes} {v : ℤ} :
    (⟨f, v⟩ : Σ _ : Bytes, ℤ) ∈ posEntries s ↔ 0 < v ∧ s.idFor f = v := by
  unfold posEntries Subscription.idFor
  cases hsi : s.identifiers with
  | none =>
    simp only [identifiersLen, Option.map_none, Option.getD_none, gt_iff_lt, lt_self_iff_false, ↓reduceIte]
    split
    · rename_i hpos
      simp only [mem_singleton, Sigma.mk.injEq, heq_eq_eq]
      constructor
      · rintro ⟨rfl, rfl⟩
        exact ⟨hpos, by simp [hpos.le]⟩
      · rintro ⟨hv, hid⟩
        split at hid
        · rename_i hf
          refine ⟨hf, ?_⟩
          rw [max_eq_right hpos.le] at hid
          exact hid.symm
        · omega
    · rename_i hpos
      simp only [not_mem_nil, false_iff, not_and]
      intro hv hid
      split at hid
      · rw [max_eq_left (not_lt.mp hpos)] at hid
        omega
      · omega
  | some ids =>
    have hlen : identifiersLen (some ids) > 0 := hs.nonempty ids hsi
    rw [if_pos hlen]
    simp only [Option.map_some, Option.getD_some, mem_filter, decide_eq_true_eq]
    constructor
    · rintro ⟨hm, hv⟩
      have hl : ids.lookup f = some v := AList.mem_lookup_iff.mpr hm
      exact ⟨hv, by rw [hl]; exact max_eq_right hv.le⟩
    · rintro ⟨hv, hid⟩
      refine ⟨?_, hv⟩
      cases hl : ids.lookup f with
      | none =>
        rw [hl] at hid
        simp at hid
        omega
      | some w =>
        rw [hl] at hid
        have hw : w = v := by
          simp only [Option.getD_some] at hid
          rcases max_choice 0 w with h | h <;> omega
        subst hw
        exact AList.mem_lookup_iff.mp hl

theorem posEntries_nodup (s : Subscription) : (posEntries s).Nodup := by
  unfold posEntries
  split
  · refine List.Nodup.filter _ ?_
    cases s.identifiers with
    | none => exact nodup_nil
    | some ids => exact ids.nodupKeys.nodup
  · split <;> simp

theorem subscriptionIdentifiers_congr {t : Subscription} (hs : s.IdsKept) (ht : t.IdsKept)
    (h : ∀ f, s.idFor f = t.idFor f) : s.subscriptionIdentifiers = t.subscriptionIdentifiers := by
  rw [subscriptionIdentifiers_eq, subscriptionIdentifiers_eq]
  have hperm : (posEntries s).Perm (posEntries t) := by
    rw [perm_ext_iff_of_nodup (posEntries_nodup s) (posEntries_nodup t)]
    rintro ⟨f, v⟩
    rw [mem_posEntries hs, mem_posEntries ht, h]
  have hsort : (((posEntries s).map (·.2)).insertionSort (· ≤ ·)).Perm
      (((posEntries t).map (·.2)).insertionSort (· ≤ ·)) :=
    (perm_insertionSort _ _).trans ((hperm.map _).trans (perm_insertionSort _ _).symm)
  exact hsort.eq_of_pairwise' (pairwise_insertionSort _ _) (pairwise_insertionSort _ _)

structure MergeOf (l : List Subscription) (r : Subscription) : Prop where
  qosLe : ∀ m ∈ l, m.qos ≤ r.qos
  qosMem : ∃ m ∈ l, m.qos = r.qos
  noLocal : r.noLocal = true ↔ ∃ m ∈ l, m.noLocal = true
  filter : ∃ m ∈ l, m.filter = r.filter
  ids : ∀ f v, 0 < v → (r.idFor f = v ↔ ∃ m ∈ l, m.filter = f ∧ m.identifier = v)
  kept : r.IdsKept

theorem mergeOf_single {m : Subscription} (h : m.identifiers = none) : MergeOf [m] m where
  qosLe n hn := by
    rw [mem_singleton.mp hn]
    exact UInt8.le_refl _
  qosMem := ⟨m, mem_cons_self, rfl⟩
  noLocal := by simp
  filter := ⟨m, mem_cons_self, rfl⟩
  ids f v hv := by
    simp only [Subscription.idFor, h, mem_singleton, exists_eq_left]
    constructor
    · intro hid
      split at hid
      · rename_i hf
        refine ⟨hf.symm, ?_⟩
        rcases max_choice 0 m.identifier with hm | hm <;> omega
      · omega
    · rintro ⟨rfl, rfl⟩
      simp [hv.le]
  kept := Subscription.IdsKept.of_none h

theorem MergeOf.merge {l l' : List Subscription} {r' : Subscription} (h : MergeOf l r) (h' : MergeOf l' r')
    (hd : ∀ m ∈ l, ∀ m' ∈ l', m.filter ≠ m'.filter) : MergeOf (l ++ l') (r.merge r') := by
  have hno : ∀ m ∈ l, r'.idFor m.filter = 0 := by
    intro m hm
    by_contra hne
    have hpos : 0 < r'.idFor m.filter := lt_of_le_of_ne (r'.idFor_nonneg _) (Ne.symm hne)
    obtain ⟨m', hm', hf, -⟩ := (h'.ids m.filter _ hpos).mp rfl
    exact hd m hm m' hm' hf.symm
  have hqos : (r.merge r').qos = if r'.qos > r.qos then r'.qos else r.qos := rfl
  have hnl : (r.merge r').noLocal = if r'.noLocal then true else r.noLocal := rfl
  refine ⟨?_, ?_, ?_, ?_, ?_, ?_⟩
  · intro m hm
    rw [hqos]
    rcases mem_append.mp hm with hm | hm
    · have := h.qosLe m hm
      split
      · rename_i hgt
        exact UInt8.le_trans this (UInt8.le_of_lt hgt)
      · exact this
    · have := h'.qosLe m hm
      split
      · exact this
      · rename_i hle
        exact UInt8.le_trans this (UInt8.not_lt.mp hle)
  · rw [hqos]
    split
    · obtain ⟨m, hm, hq⟩ := h'.qosMem
      exact ⟨m, mem_append_right _ hm, hq⟩
    · obtain ⟨m, hm, hq⟩ := h.qosMem
      exact ⟨m, mem_append_left _ hm, hq⟩
  · rw [hnl]
    have hex : (∃ m ∈ l ++ l', m.noLocal = true) ↔ r.noLocal = true ∨ r'.noLocal = true := by
      rw [h.noLocal, h'.noLocal]
      simp only [mem_append, or_and_right, exists_or]
    rw [hex]
    cases r'.noLocal <;> simp
  · obtain ⟨m, hm, hf⟩ := h.filter
    exact ⟨m, mem_append_left _ hm, hf⟩
  · intro f v hv
    rw [idFor_merge h.kept h'.kept]
    have hex : (∃ m ∈ l ++ l', m.filter = f ∧ m.identifier = v) ↔ r.idFor f = v ∨ r'.idFor f = v := by
      rw [h.ids f v hv, h'.ids f v hv]
      simp only [mem_append, or_and_right, exists_or]
    rw [hex]
    split
    · rename_i hpos
      refine ⟨fun he => .inr he, ?_⟩
      rintro (he | he)
      · obtain ⟨m, hm, rfl, -⟩ := (h.ids f v hv).mp he
        rw [hno m hm] at hpos
        omega
      · exact he
    · rename_i hpos
      refine ⟨fun he => .inl he, ?_⟩
      rintro (he | he)
      · exact he
      · omega
  · obtain ⟨m, hm, hf⟩ := h.filter
    exact IdsKept.merge h.kept h'.kept (hf ▸ hno m hm)

theorem MergeOf.unique {l l' : List Subscription} {r' : Subscription} (h : MergeOf l r) (h' : MergeOf l' r')
    (hl : ∀ m, m ∈ l ↔ m ∈ l') :
    r.qos = r'.qos ∧ r.noLocal = r'.noLocal ∧ r.subscriptionIdentifiers = r'.subscriptionIdentifiers := by
  refine ⟨?_, ?_, ?_⟩
  · obtain ⟨m, hm, hq⟩ := h.qosMem
    obtain ⟨m', hm', hq'⟩ := h'.qosMem
    have h1 := h'.qosLe m ((hl m).mp hm)
    have h2 := h.qosLe m' ((hl m').mpr hm')
    rw [hq] at h1
    rw [hq'] at h2
    exact UInt8.le_antisymm h1 h2
  · rw [Bool.eq_iff_iff, h.noLocal, h'.noLocal]
    simp only [hl]
  · refine subscriptionIdentifiers_congr h.kept h'.kept fun f => ?_
    have hid : ∀ v, 0 < v → (r.idFor f = v ↔ r'.idFor f = v) := by
      intro v hv
      rw [h.ids f v hv, h'.ids f v hv]
      simp only [hl]
    rcases lt_or_eq_of_le (r.idFor_nonneg f) with hpos | hzero
    · exact ((hid _ hpos).mp rfl).symm
    · rcases lt_or_eq_of_le (r'.idFor_nonneg f) with hpos' | hzero'
      · exact (hid _ hpos').mpr rfl
      · rw [← hzero, ← hzero']

/-- Subscriptions of one client: no map of identifiers yet, and different filters. -/
structure Separate (l : List Subscription) : Prop where
  bare : ∀ m ∈ l, m.identifiers = none
  filters : l.Pairwise fun m m' => m.filter ≠ m'.filter

theorem mergeAll_some {a : Subscription} {done l : List Subscription} (ha : MergeOf done a)
    (hs : Separate l) (hd : ∀ m ∈ done, ∀ m' ∈ l, m.filter ≠ m'.filter) (h : mergeAll (some a) l = some r) :
    MergeOf (done ++ l) r ∧ r.retainAsPublished = a.retainAsPublished := by
  induction l generalizing a done with
  | nil =>
    simp only [mergeAll, foldl_nil, Option.some.injEq] at h
    subst h
    rw [append_nil]
    exact ⟨ha, rfl⟩
  | cons n l ih =>
    rw [mergeAll_cons, mergeOnto] at h
    have hp := pairwise_cons.mp hs.filters
    have hn : MergeOf [n] n := mergeOf_single (hs.bare n mem_cons_self)
    have hmerge := ha.merge hn fun m hm m' hm' => by
      rw [mem_singleton.mp hm']
      exact hd m hm n mem_cons_self
    have hl : Separate l := ⟨fun m hm => hs.bare m (mem_cons_of_mem _ hm), hp.2⟩
    obtain ⟨hr, hrap⟩ := ih hmerge hl (by
      intro m hm m' hm'
      rcases mem_append.mp hm with hm | hm
      · exact hd m hm m' (mem_cons_of_mem _ hm')
      · rw [mem_singleton.mp hm]
        exact hp.1 m' hm') h
    rw [append_assoc, singleton_append] at hr
    exact ⟨hr, hrap⟩

theorem mergeAll_none {m : Subscription} {l : List Subscription} (hs : Separate (m :: l))
    (h : mergeAll none (m :: l) = some r) :
    MergeOf (m :: l) r ∧ r.retainAsPublished = m.retainAsPublished := by
  rw [mergeAll_cons, mergeOnto] at h
  have hp := pairwise_cons.mp hs.filters
  have hl : Separate l := ⟨fun m' hm => hs.bare m' (mem_cons_of_mem _ hm), hp.2⟩
  exact mergeAll_some (mergeOf_single (hs.bare m mem_cons_self)) hl
    (fun m₀ hm₀ m' hm' => by rw [mem_singleton.mp hm₀]; exact hp.1 m' hm') h

end MonsterMQ.Topics
