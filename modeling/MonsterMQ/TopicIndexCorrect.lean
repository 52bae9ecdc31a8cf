import MonsterMQ.TopicIndexSubscribers

/-!
# Correctness of the topic index

After every sequence of calls the index answers with exactly the subscriptions that match, and
with one member of each group, as long as the members of a group agree on the spelling of the
share prefix: `Subscribers` groups them again by the filter as it was written.
-/

namespace MonsterMQ.Topics

open LittleEndian PeerLink Auth FiniteMaps StateRuns List

theorem isWildcardFilter_of_concrete {topic : Bytes} (h : Concrete topic) : isWildcardFilter topic = false := by
  simp [isWildcardFilter, h.1, h.2]

namespace IndexSys

variable {s : IndexSys} {topic : Bytes}

theorem mem_matching (h : s.index.Coherent) {c : Bytes} {m : Subscription} : m ∈ s.index.matching topic c ↔
      (∃ f, lookup₂ s.index.wildcardClients c f = some m) ∧ matchMQTTTopic m.filter topic = true := by
  rw [← TopicsIndex.mem_snapClients h, TopicsIndex.matching]
  constructor
  · intro hm
    cases hf : findKey Prod.fst c s.index.snapClients with
    | none =>
      rw [hf] at hm
      cases hm
    | some wc =>
      rw [hf] at hm
      obtain ⟨hmem, hkey⟩ := findKey_mem hf
      obtain ⟨hin, hmatch⟩ := mem_filter.mp hm
      exact ⟨⟨wc.2, hkey ▸ hmem, hin⟩, hmatch⟩
  · rintro ⟨⟨subs, hmem, hin⟩, hmatch⟩
    have hf : findKey Prod.fst c s.index.snapClients = some (c, subs) :=
      (findKey_iff_mem (TopicsIndex.snapClients_nodup h)).mpr ⟨hmem, rfl⟩
    rw [hf]
    exact mem_filter.mpr ⟨hin, hmatch⟩

theorem held_of_wildcard (hr : s.Represents) {c f : Bytes} {m : Subscription}
    (hl : lookup₂ s.index.wildcardClients c f = some m) : s.held.subs.lookup (.plain c f) = some m := by
  rw [hr.plain, TopicsIndex.plainSub, if_pos (hr.coherent.wildcard c f m hl), hl]

theorem clients_exact (hr : s.Represents) (ht : TopicName topic) (c : Bytes) :
    (s.index.subscribers topic).subscriptions.lookup c ≠ none ↔
      ∃ f m, s.held.subs.lookup (.plain c f) = some m ∧ Matches f topic := by
  have hwt := isWildcardFilter_of_concrete ht.concrete
  rw [lookup_subscriptions hr.coherent ht.nonempty, ← Option.isSome_iff_ne_none, mergeAll_isSome,
    Bool.or_eq_true, Option.isSome_map]
  constructor
  · rintro (hex | hw)
    · obtain ⟨cs, hcs⟩ := Option.isSome_iff_exists.mp hex
      refine ⟨topic, cs.2, ?_, (matches_exact_iff hwt).mpr rfl⟩
      rw [hr.plain, TopicsIndex.plainSub, hwt, if_neg (by decide), hcs]
      rfl
    · obtain ⟨m, hm⟩ := exists_mem_of_ne_nil _ (by simpa using hw)
      obtain ⟨⟨f, hf⟩, hmatch⟩ := (mem_matching hr.coherent).mp hm
      have hheld := held_of_wildcard hr hf
      obtain ⟨rfl, -, hv⟩ := hr.held.plain c f m hheld
      exact ⟨_, m, hheld, (matchMQTTTopic_iff (wholeLevels_of_valid hv) ht.concrete).mp hmatch⟩
  · rintro ⟨f, m, hheld, hmatch⟩
    obtain ⟨rfl, -, hv⟩ := hr.held.plain c f m hheld
    rw [hr.plain, TopicsIndex.plainSub] at hheld
    cases hw : isWildcardFilter m.filter with
    | false =>
      rw [hw, if_neg (by decide)] at hheld
      rw [← (matches_exact_iff hw).mp hmatch]
      refine .inl ?_
      obtain ⟨cs, hcs, -⟩ := Option.map_eq_some_iff.mp hheld
      rw [hcs]
      rfl
    | true =>
      rw [hw, if_pos rfl] at hheld
      have hm : m ∈ s.index.matching topic c := (mem_matching hr.coherent).mpr
        ⟨⟨_, hheld⟩, (matchMQTTTopic_iff (wholeLevels_of_valid hv) ht.concrete).mpr hmatch⟩
      refine .inr ?_
      simpa using ne_nil_of_mem hm

/-- The members `Subscribers` puts under filters: filter, client and subscription. -/
@[grind =]
def placed (topic : Bytes) (l : List (Bytes × FMap Bytes Subscription)) : List (Bytes × Bytes × Subscription) :=
  (l.filter fun sf => matchMQTTTopic sf.1 topic).flatMap fun sf =>
    sf.2.entries.map fun e => (e.2.filter, e.1, e.2)

theorem foldl_gatherShared (topic : Bytes) (l : List (Bytes × FMap Bytes Subscription))
    (m : FMap Bytes (FMap Bytes Subscription)) : l.foldl (gatherShared topic) m =
      (placed topic l).foldl (fun m e => (insertAt m e.1 e.2.1 e.2.2).1) m := by
  induction l generalizing m with
  | nil => rfl
  | cons sf l ih =>
    rw [foldl_cons, ih]
    unfold placed
    rw [filter_cons, gatherShared]
    split
    · rw [flatMap_cons, foldl_append, foldl_map]
    · rfl

theorem lookup₂_foldl_insertAt {l : List (Bytes × Bytes × Subscription)}
    (hl : ∀ e ∈ l, ∀ e' ∈ l, e.1 = e'.1 → e.2.1 = e'.2.1 → e = e')
    (m : FMap Bytes (FMap Bytes Subscription)) (k c : Bytes) (v : Subscription) :
    lookup₂ (l.foldl (fun m e => (insertAt m e.1 e.2.1 e.2.2).1) m) k c = some v ↔
      (k, c, v) ∈ l ∨ ((∀ v', (k, c, v') ∉ l) ∧ lookup₂ m k c = some v) := by
  induction l generalizing m with
  | nil => simp
  | cons e l ih =>
    have hl' : ∀ a ∈ l, ∀ b ∈ l, a.1 = b.1 → a.2.1 = b.2.1 → a = b := fun a ha b hb =>
      hl a (mem_cons_of_mem _ ha) b (mem_cons_of_mem _ hb)
    rw [foldl_cons, ih hl', lookup₂_insertAt]
    obtain ⟨k', c', v'⟩ := e
    simp only [mem_cons, Prod.mk.injEq, not_or]
    constructor
    · rintro (hm | ⟨hno, hif⟩)
      · exact .inl (.inr hm)
      · split at hif
        · rename_i hkc
          cases hif
          exact .inl (.inl ⟨hkc.1, hkc.2, rfl⟩)
        · rename_i hkc
          exact .inr ⟨fun w => ⟨fun h => hkc ⟨h.1, h.2.1⟩, hno w⟩, hif⟩
    · rintro ((⟨rfl, rfl, rfl⟩ | hm) | ⟨hno, hm⟩)
      · by_cases hin : ∃ w, (k, c, w) ∈ l
        · obtain ⟨w, hw⟩ := hin
          have heq := hl _ mem_cons_self _ (mem_cons_of_mem _ hw) rfl rfl
          exact .inl (heq ▸ hw)
        · exact .inr ⟨fun w hw => hin ⟨w, hw⟩, by simp⟩
      · exact .inl hm
      · refine .inr ⟨fun w => (hno w).2, ?_⟩
        rw [if_neg]
        · exact hm
        · rintro ⟨rfl, rfl⟩
          exact (hno v').1 ⟨rfl, rfl, rfl⟩

theorem mem_placed (hr : s.Represents) (ht : TopicName topic) {k c : Bytes} {m : Subscription} :
    (k, c, m) ∈ placed topic s.index.snapShared ↔
      m.filter = k ∧ ∃ g p, s.held.subs.lookup (.shared c g p) = some m ∧ Matches p topic := by
  unfold placed
  rw [mem_flatMap]
  constructor
  · rintro ⟨⟨plain, members⟩, hsf, he⟩
    obtain ⟨hin, hmatch⟩ := mem_filter.mp hsf
    obtain ⟨⟨c', m'⟩, hentry, heq⟩ := mem_map.mp he
    simp only [Prod.mk.injEq] at heq
    obtain ⟨rfl, rfl, rfl⟩ := heq
    have hlook : members.lookup c' = some m' := AList.mem_lookup_iff.mpr hentry
    obtain ⟨key, hp, hkey⟩ := (TopicsIndex.mem_snapShared hr.coherent).mp ⟨members, hin, hlook⟩
    obtain ⟨g, p, hg, rfl⟩ := hr.groups key c' m' hkey
    rw [plainOfKey_shareKey hg, Option.some.injEq] at hp
    subst hp
    rw [← hr.shared c' g p hg] at hkey
    obtain ⟨hsplit, hsh, hv, -⟩ := hr.held.shared c' g p m' hkey
    have hw := wholeLevels_plain hv hsh
    rw [hsplit] at hw
    exact ⟨rfl, g, p, hkey, (matchMQTTTopic_iff hw ht.concrete).mp hmatch⟩
  · rintro ⟨rfl, g, p, hheld, hmatch⟩
    obtain ⟨hsplit, hsh, hv, hg⟩ := hr.held.shared c g p m hheld
    have hw := wholeLevels_plain hv hsh
    rw [hsplit] at hw
    rw [hr.shared c g p hg] at hheld
    obtain ⟨members, hin, hlook⟩ :=
      (TopicsIndex.mem_snapShared hr.coherent).mpr ⟨_, plainOfKey_shareKey hg, hheld⟩
    refine ⟨(p, members), mem_filter.mpr ⟨hin, ?_⟩, mem_map.mpr ⟨⟨c, m⟩, ?_, rfl⟩⟩
    · exact (matchMQTTTopic_iff hw ht.concrete).mpr hmatch
    · exact AList.mem_lookup_iff.mp hlook

private theorem placed_functional (hr : s.Represents) (ht : TopicName topic) :
    ∀ e ∈ placed topic s.index.snapShared, ∀ e' ∈ placed topic s.index.snapShared,
      e.1 = e'.1 → e.2.1 = e'.2.1 → e = e' := by
  rintro ⟨k, c, m⟩ he ⟨k', c', m'⟩ he' rfl rfl
  obtain ⟨hf, g, p, hl, -⟩ := (mem_placed hr ht).mp he
  obtain ⟨hf', g', p', hl', -⟩ := (mem_placed hr ht).mp he'
  obtain ⟨hsplit, -⟩ := hr.held.shared c g p m hl
  obtain ⟨hsplit', -⟩ := hr.held.shared c g' p' m' hl'
  rw [hf] at hsplit
  rw [hf', hsplit] at hsplit'
  cases hsplit'
  rw [hl] at hl'
  cases hl'
  rfl

theorem subscribers_shared (ht : topic ≠ []) :
    (s.index.subscribers topic).shared = s.index.snapShared.foldl (gatherShared topic) ∅ := by
  unfold TopicsIndex.subscribers TopicsIndex.snapShared
  have hne : topic.isEmpty = false := by simpa using ht
  rw [hne]
  cases s.index.wildcardSnap <;> rfl

theorem lookup_shared (hr : s.Represents) (ht : TopicName topic) (k c : Bytes) (m : Subscription) :
    lookup₂ (s.index.subscribers topic).shared k c = some m ↔
      m.filter = k ∧ ∃ g p, s.held.subs.lookup (.shared c g p) = some m ∧ Matches p topic := by
  rw [subscribers_shared ht.nonempty, foldl_gatherShared,
    lookup₂_foldl_insertAt (placed_functional hr ht), mem_placed hr ht]
  simp [lookup₂]

theorem shared_under_one_key (hr : s.Represents) (ht : TopicName topic) {c₀ g p : Bytes} {m₀ : Subscription}
    (h₀ : s.held.subs.lookup (.shared c₀ g p) = some m₀) (hp : Matches p topic) :
    (∀ c m, lookup₂ (s.index.subscribers topic).shared m₀.filter c = some m ↔
        s.held.subs.lookup (.shared c g p) = some m) ∧
      ∀ k c m, lookup₂ (s.index.subscribers topic).shared k c = some m →
        splitShared m.filter = (g, p) → k = m₀.filter := by
  have hsplit₀ := (hr.held.shared c₀ g p m₀ h₀).1
  have hpair : ∀ {c g' p' m}, s.held.subs.lookup (.shared c g' p') = some m →
      splitShared m.filter = (g, p) → g' = g ∧ p' = p := by
    intro c g' p' m hl hsplit
    have := (hr.held.shared c g' p' m hl).1
    rw [hsplit] at this
    cases this
    exact ⟨rfl, rfl⟩
  constructor
  · intro c m
    rw [lookup_shared hr ht]
    constructor
    · rintro ⟨hf, g', p', hl, -⟩
      obtain ⟨rfl, rfl⟩ := hpair hl (hf ▸ hsplit₀)
      exact hl
    · intro hl
      exact ⟨hr.held.uniform c c₀ g p m m₀ hl h₀, g, p, hl, hp⟩
  · intro k c m hl hsplit
    obtain ⟨rfl, g', p', hl', -⟩ := (lookup_shared hr ht k c m).mp hl
    obtain ⟨rfl, rfl⟩ := hpair hl' hsplit
    exact hr.held.uniform c c₀ g' p' m m₀ hl' h₀

theorem filter_key_eq {β : Type} {l : List (Σ _ : Bytes, β)} (hn : (l.map Sigma.fst).Nodup) {k : Bytes} {v : β}
    (hm : ⟨k, v⟩ ∈ l) : (l.filter fun e => e.1 = k) = [⟨k, v⟩] := by
  induction l with
  | nil => cases hm
  | cons e l ih =>
    rw [map_cons, nodup_cons] at hn
    have hnot : ∀ e' ∈ l, e'.1 = e.1 → False := fun e' he' heq => hn.1 (heq ▸ mem_map_of_mem he')
    rw [filter_cons]
    rcases mem_cons.mp hm with heq | hm
    · subst heq
      have hnil : (l.filter fun e => decide (e.1 = k)) = [] := by
        rw [filter_eq_nil_iff]
        intro e' he' hk
        exact hnot e' he' (by simpa using hk)
      simp only [decide_true, ↓reduceIte, hnil]
    · have hne : e.1 ≠ k := fun heq => hnot ⟨k, v⟩ hm heq.symm
      simp only [hne, decide_false, Bool.false_eq_true, ↓reduceIte, ih hn.2 hm]

private theorem filter_filterMap_eq {α β : Type} {f : α → Option β} {q : β → Bool} {r : α → Bool} {l : List α}
    (h : ∀ a ∈ l, ∀ b, f a = some b → q b = r a) : (l.filterMap f).filter q = (l.filter r).filterMap f := by
  induction l with
  | nil => rfl
  | cons a l ih =>
    have ih' := ih fun a' ha' => h a' (mem_cons_of_mem _ ha')
    rw [filterMap_cons, filter_cons]
    cases hf : f a with
    | none =>
      simp only
      split
      · rw [filterMap_cons, hf, ih']
      · exact ih'
    | some b =>
      have hq := h a mem_cons_self b hf
      simp only [filter_cons, hq]
      split
      · rw [filterMap_cons, hf, ih']
      · exact ih'

theorem picks_one (hr : s.Represents) (ht : TopicName topic) (o : MapOrder) {c₀ g p : Bytes} {m₀ : Subscription}
    (h₀ : s.held.subs.lookup (.shared c₀ g p) = some m₀) (hp : Matches p topic) :
    ∃ c m, s.held.subs.lookup (.shared c g p) = some m ∧
      (((s.index.subscribers topic).picks o).filter fun e => splitShared e.2.filter = (g, p)) = [(c, m)] := by
  obtain ⟨hone, hkey⟩ := shared_under_one_key hr ht h₀ hp
  set shared := (s.index.subscribers topic).shared with hshared
  have hsplit₀ := (hr.held.shared c₀ g p m₀ h₀).1
  have hl₀ := (hone c₀ m₀).mpr h₀
  obtain ⟨inner, hin, hc₀⟩ := (lookup₂_iff_mem).mp hl₀
  have hvisit : (⟨m₀.filter, inner⟩ : Σ _ : Bytes, FMap Bytes Subscription) ∈ o.visit shared.entries :=
    o.mem_visit.mpr hin
  have hfil : (((s.index.subscribers topic).picks o).filter fun e => splitShared e.2.filter = (g, p)) =
      ([⟨m₀.filter, inner⟩] : List (Σ _ : Bytes, FMap Bytes Subscription)).filterMap
        fun g => (o.visit g.2.entries).head?.map fun e => (e.1, e.2) := by
    rw [← filter_key_eq (TopicsIndex.visit_keys_nodup o shared) hvisit]
    apply filter_filterMap_eq
    rintro ⟨k, inner'⟩ hk ⟨c, m⟩ hhead
    obtain ⟨⟨c', m'⟩, hcm, heq⟩ := Option.map_eq_some_iff.mp hhead
    simp only [Prod.mk.injEq] at heq
    obtain ⟨rfl, rfl⟩ := heq
    have hmem : lookup₂ shared k c' = some m' :=
      (lookup₂_iff_mem).mpr ⟨inner', o.mem_visit.mp hk, o.mem_visit.mp (mem_of_mem_head? hcm)⟩
    rw [decide_eq_decide]
    constructor
    · exact hkey k c' m' hmem
    · intro hk'
      simp only at hk'
      rw [((lookup_shared hr ht k c' m').mp hmem).1, hk', hsplit₀]
  have hne : (o.visit inner.entries) ≠ [] := by
    intro hnil
    have := o.mem_visit.mpr hc₀
    rw [hnil] at this
    cases this
  obtain ⟨⟨c, m⟩, rest, hrest⟩ := exists_cons_of_ne_nil hne
  have hcm : lookup₂ shared m₀.filter c = some m := by
    refine (lookup₂_iff_mem).mpr ⟨inner, hin, o.mem_visit.mp ?_⟩
    rw [hrest]
    exact mem_cons_self
  refine ⟨c, m, (hone c m).mp hcm, ?_⟩
  rw [hfil]
  simp [hrest]

theorem lookup_foldl_mergeSelected (l : List (Bytes × Subscription)) (m : FMap Bytes Subscription) (c : Bytes) :
    (l.foldl (fun m e => mergeSelected m e.1 e.2) m).lookup c ≠ none ↔
      m.lookup c ≠ none ∨ ∃ v, (c, v) ∈ l := by
  induction l generalizing m with
  | nil => simp
  | cons e l ih =>
    rw [foldl_cons, ih, mergeSelected, lookup_insert_if]
    obtain ⟨c', v⟩ := e
    by_cases hc : c = c'
    · subst hc
      simp
    · simp [hc]

theorem exact_snapshot (hr : s.Represents) {f : Bytes} (hf : isWildcardFilter f = false) (c : Bytes)
    (m : Subscription) :
    (∃ e, s.index.getExact f = some e ∧ (c, m) ∈ e.subs) ↔ s.held.subs.lookup (.plain c f) = some m := by
  rw [hr.plain, TopicsIndex.plainSub, hf, if_neg (by decide), TopicsIndex.getExact_of_fresh hr.coherent.fresh]
  have hfind : (findKey Prod.fst c (s.index.subsOf f)).map Prod.snd = some m ↔ (c, m) ∈ s.index.subsOf f := by
    rw [Option.map_eq_some_iff]
    constructor
    · rintro ⟨⟨c', m'⟩, hk, rfl⟩
      obtain ⟨hmem, hc⟩ := findKey_mem hk
      simp only at hc
      exact hc ▸ hmem
    · intro hm
      exact ⟨(c, m), (findKey_iff_mem (hr.coherent.subsNodup f)).mpr ⟨hm, rfl⟩, rfl⟩
  rw [hfind, TopicsIndex.subsOf]
  cases s.index.entry f with
  | none => simp
  | some e => simp

private theorem wildcard_snapshot (hr : s.Represents) (c : Bytes) (m : Subscription) :
    (∃ subs, (c, subs) ∈ s.index.snapClients ∧ m ∈ subs) ↔
      ∃ f, isWildcardFilter f = true ∧ s.held.subs.lookup (.plain c f) = some m := by
  rw [TopicsIndex.mem_snapClients hr.coherent]
  constructor
  · rintro ⟨f, hf⟩
    exact ⟨f, hr.coherent.wildcard c f m hf, held_of_wildcard hr hf⟩
  · rintro ⟨f, hw, hf⟩
    rw [hr.plain, TopicsIndex.plainSub, if_pos hw] at hf
    exact ⟨f, hf⟩

theorem shared_snapshot (hr : s.Represents) (plain c : Bytes) (m : Subscription) :
    (∃ members, (plain, members) ∈ s.index.snapShared ∧ members.lookup c = some m) ↔
      ∃ g, s.held.subs.lookup (.shared c g plain) = some m := by
  rw [TopicsIndex.mem_snapShared hr.coherent]
  constructor
  · rintro ⟨key, hp, hk⟩
    obtain ⟨g, p, hg, rfl⟩ := hr.groups key c m hk
    rw [plainOfKey_shareKey hg, Option.some.injEq] at hp
    subst hp
    exact ⟨g, by rw [hr.shared c g p hg, hk]⟩
  · rintro ⟨g, hl⟩
    obtain ⟨-, -, -, hg⟩ := hr.held.shared c g plain m hl
    exact ⟨shareKey g plain, plainOfKey_shareKey hg, by rw [← hr.shared c g plain hg, hl]⟩

structure Correct (s : IndexSys) (topic : Bytes) : Prop where
  clients : ∀ c, (s.index.subscribers topic).subscriptions.lookup c ≠ none ↔
    ∃ f m, s.held.subs.lookup (.plain c f) = some m ∧ Matches f topic
  group : ∀ g p, (∃ c m, s.held.subs.lookup (.shared c g p) = some m) → Matches p topic →
    ∃ key, (∀ c m, lookup₂ (s.index.subscribers topic).shared key c = some m ↔
        s.held.subs.lookup (.shared c g p) = some m) ∧
      ∀ k c m, lookup₂ (s.index.subscribers topic).shared k c = some m →
        splitShared m.filter = (g, p) → k = key
  members : ∀ k c m, lookup₂ (s.index.subscribers topic).shared k c = some m →
    ∃ g p, s.held.subs.lookup (.shared c g p) = some m ∧ Matches p topic
  selected : ∀ o g p, (∃ c m, s.held.subs.lookup (.shared c g p) = some m) → Matches p topic →
    ∃ c m, s.held.subs.lookup (.shared c g p) = some m ∧
      (((s.index.subscribers topic).picks o).filter fun e => splitShared e.2.filter = (g, p)) = [(c, m)]
  selection : ∀ o c, ((s.index.subscribers topic).selectShared o).sharedSelected.lookup c ≠ none ↔
    ∃ m, (c, m) ∈ (s.index.subscribers topic).picks o
  exactSnap : ∀ c f m, isWildcardFilter f = false →
    ((∃ e, s.index.getExact f = some e ∧ (c, m) ∈ e.subs) ↔ s.held.subs.lookup (.plain c f) = some m)
  wildcardSnap : ∀ c m, (∃ subs, (c, subs) ∈ s.index.snapClients ∧ m ∈ subs) ↔
    ∃ f, isWildcardFilter f = true ∧ s.held.subs.lookup (.plain c f) = some m
  sharedSnap : ∀ plain c m,
    (∃ members, (plain, members) ∈ s.index.snapShared ∧ members.lookup c = some m) ↔
      ∃ g, s.held.subs.lookup (.shared c g plain) = some m
  returns : ∀ call, s.Meets call →
    ((s.index.call call).2 = true ↔ heldSize (s.step call).held ≠ heldSize s.held)

private theorem correct_of_represents (hr : s.Represents) (ht : TopicName topic) : s.Correct topic where
  clients := clients_exact hr ht
  group := by
    rintro g p ⟨c, m, hl⟩ hp
    exact ⟨m.filter, shared_under_one_key hr ht hl hp⟩
  members k c m hl := ((lookup_shared hr ht k c m).mp hl).2
  selected := by
    rintro o g p ⟨c, m, hl⟩ hp
    exact picks_one hr ht o hl hp
  selection o c := by
    rw [Subscribers.selectShared, lookup_foldl_mergeSelected]
    simp
  exactSnap c f m hf := exact_snapshot hr hf c m
  wildcardSnap := wildcard_snapshot hr
  sharedSnap := shared_snapshot hr
  returns _ hc := call_returns hr hc

/-- Members of a group that agree on its spelling: the index is correct after every sequence of
calls, for every topic. -/
theorem run_index_correct {calls : List Call} (h : Along step Meets start calls) (ht : TopicName topic) :
    (run step start calls).Correct topic :=
  correct_of_represents (run_represents h) ht

def bare (filter : Bytes) : Subscription := ⟨filter, 0, none, 0, 0, false, false, false⟩

/-- Two members of a group, and a wildcard subscription of a third client. -/
def groupCalls : List Call :=
  [.subscribe .stored (ascii "a") (bare (ascii "$share/g/t")),
   .subscribe .stored (ascii "b") (bare (ascii "$share/g/t")),
   .subscribe .stored (ascii "c") (bare (ascii "+"))]

theorem groupCalls_correct :
    Along step Meets start groupCalls ∧ (run step start groupCalls).Correct (ascii "t") :=
  ⟨by decide, run_index_correct (by decide) ⟨by decide, by decide⟩⟩

def Valid (_ : IndexSys) : Call → Prop
  | .subscribe _ _ sub => isValidFilter sub.filter false = true
  | .unsubscribe _ filter _ => isValidFilter filter false = true
  | .inlineSubscribe _ inl => isValidFilter inl.sub.filter false = true
  | .inlineUnsubscribe _ _ filter => isValidFilter filter false = true

instance (s : IndexSys) : (c : Call) → Decidable (s.Valid c)
  | .subscribe _ _ _ => inferInstanceAs (Decidable (_ = _))
  | .unsubscribe _ _ _ => inferInstanceAs (Decidable (_ = _))
  | .inlineSubscribe _ _ => inferInstanceAs (Decidable (_ = _))
  | .inlineUnsubscribe _ _ _ => inferInstanceAs (Decidable (_ = _))

def spelledCalls : List Call :=
  [.subscribe .stored (ascii "a") (bare (ascii "$share/g/t")),
   .subscribe .stored (ascii "b") (bare (ascii "$SHARE/g/t"))]

/-- Each spelling becomes a group of its own, and both members are selected. -/
theorem spelledCalls_selects_both :
    ¬ ∀ (calls : List Call) (topic : Bytes), Along step Valid start calls → TopicName topic →
      (run step start calls).Correct topic := by
  intro h
  have hc := h spelledCalls (ascii "t") (by decide) ⟨by decide, by decide⟩
  obtain ⟨c, m, -, hone⟩ := hc.selected .stored (ascii "g") (ascii "t")
    ⟨ascii "a", bare (ascii "$share/g/t"), by decide⟩ ((matches_exact_iff (by decide)).mpr rfl)
  have htwo : ((((run step start spelledCalls).index.subscribers (ascii "t")).picks .stored).filter
      fun e => splitShared e.2.filter = (ascii "g", ascii "t")).length = 2 := by decide +kernel
  rw [hone] at htwo
  cases htwo

end IndexSys

end MonsterMQ.Topics
