import MonsterMQ.StateRuns
import MonsterMQ.TopicIndex

/-!
# What the topic index holds

The subscriptions a sequence of calls leaves, as one map by client and filter, and the index as
a representation of it: one lemma for each operation says what it does to the stored maps, and
the representation is kept by every call.
-/

namespace MonsterMQ.Topics

open LittleEndian PeerLink Auth FiniteMaps StateRuns

namespace TopicsIndex

@[grind =]
def entry (x : TopicsIndex) (topic : Bytes) : Option ExactTopicEntry := (x.exactInternal topic).lookup topic

@[grind =] def subsOf (x : TopicsIndex) (topic : Bytes) : List (Bytes × Subscription) :=
  ((x.entry topic).map (·.subs)).getD []

@[grind =] def inlineOf (x : TopicsIndex) (topic : Bytes) : List InlineSubscription :=
  ((x.entry topic).map (·.inline)).getD []

variable (x : TopicsIndex)

theorem entry_insert (topic topic' : Bytes) (e : ExactTopicEntry) :
    (x.setShard topic ((x.exactInternal topic).insert topic e)).entry topic' =
      if topic' = topic then some e else x.entry topic' := by
  unfold entry exactInternal setShard
  by_cases hi : exactShardIdx topic' = exactShardIdx topic
  · simp only [hi, Function.update_self, lookup_insert_if]
  · have hne : topic' ≠ topic := fun h => hi (by rw [h])
    simp only [Function.update_of_ne hi, hne, ↓reduceIte]

theorem entry_erase (topic topic' : Bytes) :
    (x.setShard topic ((x.exactInternal topic).erase topic)).entry topic' =
      if topic' = topic then none else x.entry topic' := by
  unfold entry exactInternal setShard
  by_cases hi : exactShardIdx topic' = exactShardIdx topic
  · simp only [hi, Function.update_self, lookup_erase_if]
  · have hne : topic' ≠ topic := fun h => hi (by rw [h])
    simp only [Function.update_of_ne hi, hne, ↓reduceIte]

/-- The copies the readers of the exact shards see. -/
def Fresh : Prop := ∀ i, (x.exact i).snap = (x.exact i).internal

theorem getExact_of_fresh {x : TopicsIndex} (h : x.Fresh) (topic : Bytes) : x.getExact topic = x.entry topic := by
  rw [getExact, h]
  rfl

theorem fresh_setShard {x : TopicsIndex} (h : x.Fresh) (topic : Bytes) (m : FMap Bytes ExactTopicEntry) :
    (x.setShard topic m).Fresh := by
  intro i
  by_cases hi : i = exactShardIdx topic
  · subst hi
    simp [setShard]
  · simpa [setShard, Function.update_of_ne hi] using h i

/-- An edit of the exact entries: the lists of one topic change, the rest stays. -/
structure ExactEdit (x' : TopicsIndex) (topic : Bytes) (subs : List (Bytes × Subscription))
    (inline : List InlineSubscription) : Prop where
  subsOf : ∀ t, x'.subsOf t = if t = topic then subs else x.subsOf t
  inlineOf : ∀ t, x'.inlineOf t = if t = topic then inline else x.inlineOf t
  wildcardClients : x'.wildcardClients = x.wildcardClients
  wildcardInline : x'.wildcardInline = x.wildcardInline
  shared : x'.shared = x.shared
  wildcardSnap : x'.wildcardSnap = x.wildcardSnap
  fresh : x.Fresh → x'.Fresh

theorem exactEdit_insert (topic : Bytes) (e : ExactTopicEntry) :
    x.ExactEdit (x.setShard topic ((x.exactInternal topic).insert topic e)) topic e.subs e.inline := by
  refine ⟨?_, ?_, rfl, rfl, rfl, rfl, fun h => fresh_setShard h _ _⟩
  · intro t
    rw [TopicsIndex.subsOf, entry_insert]
    split <;> rfl
  · intro t
    rw [TopicsIndex.inlineOf, entry_insert]
    split <;> rfl

theorem exactEdit_erase (topic : Bytes) :
    x.ExactEdit (x.setShard topic ((x.exactInternal topic).erase topic)) topic [] [] := by
  refine ⟨?_, ?_, rfl, rfl, rfl, rfl, fun h => fresh_setShard h _ _⟩
  · intro t
    rw [TopicsIndex.subsOf, entry_erase]
    split <;> rfl
  · intro t
    rw [TopicsIndex.inlineOf, entry_erase]
    split <;> rfl

theorem exactEdit_refl (topic : Bytes) : x.ExactEdit x topic (x.subsOf topic) (x.inlineOf topic) := by
  refine ⟨?_, ?_, rfl, rfl, rfl, rfl, id⟩
  · intro t
    split
    · rename_i h
      rw [h]
    · rfl
  · intro t
    split
    · rename_i h
      rw [h]
    · rfl

theorem entry_eq_internal (topic : Bytes) : (x.exactInternal topic).lookup topic = x.entry topic := rfl

private theorem upsertExactSub_spec (topic client : Bytes) (sub : Subscription) :
    x.ExactEdit (x.upsertExactSub topic client sub).1 topic
        (upsert (fun cs => cs.1 = client) (client, sub) (x.subsOf topic)).1 (x.inlineOf topic) ∧
      (x.upsertExactSub topic client sub).2 = (findKey Prod.fst client (x.subsOf topic)).isSome := by
  have hex := upsert_existed Prod.fst (client, sub) (x.subsOf topic)
  unfold upsertExactSub TopicsIndex.subsOf TopicsIndex.inlineOf at *
  simp only [entry_eq_internal]
  cases h : x.entry topic with
  | none | some prev =>
    rw [h] at hex
    exact ⟨exactEdit_insert x topic _, hex⟩

theorem upsertExactInline_spec (topic : Bytes) (inl : InlineSubscription) :
    x.ExactEdit (x.upsertExactInline topic inl).1 topic (x.subsOf topic)
        (upsert (fun i : InlineSubscription => i.sub.identifier = inl.sub.identifier) inl
          (x.inlineOf topic)).1 ∧
      (x.upsertExactInline topic inl).2 =
        (findKey (fun i : InlineSubscription => i.sub.identifier) inl.sub.identifier
          (x.inlineOf topic)).isSome := by
  have hex := upsert_existed (fun i : InlineSubscription => i.sub.identifier) inl (x.inlineOf topic)
  unfold upsertExactInline TopicsIndex.subsOf TopicsIndex.inlineOf at *
  simp only [entry_eq_internal]
  cases h : x.entry topic with
  | none | some prev =>
    rw [h] at hex
    exact ⟨exactEdit_insert x topic _, hex⟩

theorem filter_of_not_any {β κ : Type} [DecidableEq κ] {key : β → κ} {k : κ} {l : List β}
    (h : (l.any fun e => key e = k) = false) : (l.filter fun e => key e ≠ k) = l := by
  rw [List.filter_eq_self]
  intro e he
  simp only [List.any_eq_false, decide_eq_true_eq] at h
  simpa using h e he

theorem deleteExactSub_spec (topic client : Bytes) : x.ExactEdit (x.deleteExactSub topic client).1 topic
        ((x.subsOf topic).filter fun cs => cs.1 ≠ client) (x.inlineOf topic) ∧
      (x.deleteExactSub topic client).2 = (findKey Prod.fst client (x.subsOf topic)).isSome := by
  rw [← any_eq_isSome_findKey]
  have hrefl := exactEdit_refl x topic
  unfold deleteExactSub TopicsIndex.subsOf TopicsIndex.inlineOf at *
  simp only [entry_eq_internal]
  cases h : x.entry topic with
  | none =>
    rw [h] at hrefl
    exact ⟨hrefl, rfl⟩
  | some prev =>
    rw [h] at hrefl
    simp only [Option.map_some, Option.getD_some] at hrefl ⊢
    cases ha : prev.subs.any fun cs => decide (cs.1 = client) with
    | false =>
      have hf := @filter_of_not_any _ _ _ Prod.fst client _ ha
      simp only [Bool.not_false, ↓reduceIte]
      rw [hf]
      exact ⟨hrefl, trivial⟩
    | true =>
      simp only [Bool.not_true, Bool.false_eq_true, ↓reduceIte]
      split
      · rename_i hc
        simp only [Bool.and_eq_true, List.isEmpty_iff] at hc
        refine ⟨?_, rfl⟩
        rw [hc.1, hc.2]
        exact exactEdit_erase x topic
      · exact ⟨exactEdit_insert x topic _, rfl⟩

theorem deleteExactInline_spec (topic : Bytes) (id : ℤ) :
    x.ExactEdit (x.deleteExactInline topic id).1 topic (x.subsOf topic)
        ((x.inlineOf topic).filter fun i => i.sub.identifier ≠ id) ∧
      (x.deleteExactInline topic id).2 =
        (findKey (fun i : InlineSubscription => i.sub.identifier) id (x.inlineOf topic)).isSome := by
  rw [← any_eq_isSome_findKey]
  have hrefl := exactEdit_refl x topic
  unfold deleteExactInline TopicsIndex.subsOf TopicsIndex.inlineOf at *
  simp only [entry_eq_internal]
  cases h : x.entry topic with
  | none =>
    rw [h] at hrefl
    exact ⟨hrefl, rfl⟩
  | some prev =>
    rw [h] at hrefl
    simp only [Option.map_some, Option.getD_some] at hrefl ⊢
    cases ha : prev.inline.any fun i => decide (i.sub.identifier = id) with
    | false =>
      have hf := @filter_of_not_any _ _ _ (fun i : InlineSubscription => i.sub.identifier) id _ ha
      simp only [Bool.not_false, ↓reduceIte]
      rw [hf]
      exact ⟨hrefl, trivial⟩
    | true =>
      simp only [Bool.not_true, Bool.false_eq_true, ↓reduceIte]
      split
      · rename_i hc
        simp only [Bool.and_eq_true, List.isEmpty_iff] at hc
        refine ⟨?_, rfl⟩
        rw [hc.1, hc.2]
        exact exactEdit_erase x topic
      · exact ⟨exactEdit_insert x topic _, rfl⟩

@[grind =] def plainSub (client filter : Bytes) : Option Subscription :=
  if isWildcardFilter filter then lookup₂ x.wildcardClients client filter
  else (findKey Prod.fst client (x.subsOf filter)).map Prod.snd

@[grind =] def inlineSub (filter : Bytes) (id : ℤ) : Option InlineSubscription :=
  if isWildcardFilter filter then lookup₂ x.wildcardInline filter id
  else findKey (fun i : InlineSubscription => i.sub.identifier) id (x.inlineOf filter)

@[grind =] def sharedSub (key client : Bytes) : Option Subscription := lookup₂ x.shared key client

structure Coherent : Prop where
  fresh : x.Fresh
  snapshot : ∃ o, x.wildcardSnap = buildSnapshot o x
  subsNodup : ∀ t, ((x.subsOf t).map Prod.fst).Nodup
  inlineNodup : ∀ t, ((x.inlineOf t).map fun i => i.sub.identifier).Nodup
  wildcard : ∀ c f s, lookup₂ x.wildcardClients c f = some s → isWildcardFilter f = true
  wildcardInline : ∀ f id i, lookup₂ x.wildcardInline f id = some i → isWildcardFilter f = true

structure PlainChange (x' : TopicsIndex) (client filter : Bytes) (s : Option Subscription) : Prop where
  plain : ∀ c f, x'.plainSub c f = if c = client ∧ f = filter then s else x.plainSub c f
  inline : ∀ f id, x'.inlineSub f id = x.inlineSub f id
  shared : ∀ k c, x'.sharedSub k c = x.sharedSub k c
  coherent : x.Coherent → x'.Coherent

structure SharedChange (x' : TopicsIndex) (key client : Bytes) (s : Option Subscription) : Prop where
  plain : ∀ c f, x'.plainSub c f = x.plainSub c f
  inline : ∀ f id, x'.inlineSub f id = x.inlineSub f id
  shared : ∀ k c, x'.sharedSub k c = if k = key ∧ c = client then s else x.sharedSub k c
  coherent : x.Coherent → x'.Coherent

structure InlineChange (x' : TopicsIndex) (filter : Bytes) (id : ℤ) (i : Option InlineSubscription) : Prop where
  plain : ∀ c f, x'.plainSub c f = x.plainSub c f
  inline : ∀ f j, x'.inlineSub f j = if f = filter ∧ j = id then i else x.inlineSub f j
  shared : ∀ k c, x'.sharedSub k c = x.sharedSub k c
  coherent : x.Coherent → x'.Coherent

variable {x' : TopicsIndex}

theorem ExactEdit.coherent {x : TopicsIndex} {topic : Bytes} {subs : List (Bytes × Subscription)}
    {inline : List InlineSubscription} (h : x.ExactEdit x' topic subs inline)
    (hs : ((x.subsOf topic).map Prod.fst).Nodup → (subs.map Prod.fst).Nodup)
    (hi : ((x.inlineOf topic).map fun i => i.sub.identifier).Nodup →
      (inline.map fun i => i.sub.identifier).Nodup)
    (hx : x.Coherent) : x'.Coherent := by
  refine ⟨h.fresh hx.fresh, ?_, ?_, ?_, ?_, ?_⟩
  · obtain ⟨o, ho⟩ := hx.snapshot
    refine ⟨o, ?_⟩
    rw [h.wildcardSnap, ho]
    simp only [buildSnapshot, h.wildcardClients, h.wildcardInline, h.shared]
  · intro t
    rw [h.subsOf]
    split
    · exact hs (hx.subsNodup topic)
    · exact hx.subsNodup t
  · intro t
    rw [h.inlineOf]
    split
    · exact hi (hx.inlineNodup topic)
    · exact hx.inlineNodup t
  · rw [h.wildcardClients]
    exact hx.wildcard
  · rw [h.wildcardInline]
    exact hx.wildcardInline

variable {client filter : Bytes} {s : Option Subscription}

theorem ExactEdit.plainChange {x : TopicsIndex} {topic : Bytes} {subs : List (Bytes × Subscription)}
    (hw : isWildcardFilter topic = false) (h : x.ExactEdit x' topic subs (x.inlineOf topic))
    (hn : ((x.subsOf topic).map Prod.fst).Nodup → (subs.map Prod.fst).Nodup)
    (hf : ∀ c, (findKey Prod.fst c subs).map Prod.snd =
      if c = client then s else (findKey Prod.fst c (x.subsOf topic)).map Prod.snd) :
    x.PlainChange x' client topic s := by
  refine ⟨?_, ?_, ?_, h.coherent hn id⟩
  · intro c f
    unfold plainSub
    by_cases hft : f = topic
    · subst hft
      simp only [hw, Bool.false_eq_true, ↓reduceIte, and_true]
      rw [h.subsOf, if_pos rfl, hf]
    · simp only [hft, and_false, ↓reduceIte, h.wildcardClients, h.subsOf]
  · intro f id
    unfold inlineSub
    rw [h.wildcardInline, h.inlineOf]
    split
    · rfl
    · split
      · rename_i hft
        rw [hft]
      · rfl
  · intro k c
    rw [sharedSub, h.shared]
    rfl

theorem ExactEdit.inlineChange {x : TopicsIndex} {topic : Bytes} {id : ℤ}
    {inline : List InlineSubscription} {i : Option InlineSubscription}
    (hw : isWildcardFilter topic = false) (h : x.ExactEdit x' topic (x.subsOf topic) inline)
    (hn : ((x.inlineOf topic).map fun i => i.sub.identifier).Nodup →
      (inline.map fun i => i.sub.identifier).Nodup)
    (hf : ∀ j, findKey (fun i : InlineSubscription => i.sub.identifier) j inline =
      if j = id then i else findKey (fun i : InlineSubscription => i.sub.identifier) j (x.inlineOf topic)) :
    x.InlineChange x' topic id i := by
  refine ⟨?_, ?_, ?_, h.coherent (fun hx => hx) hn⟩
  · intro c f
    unfold plainSub
    rw [h.wildcardClients, h.subsOf]
    split
    · rfl
    · split
      · rename_i hft
        rw [hft]
      · rfl
  · intro f j
    unfold inlineSub
    by_cases hft : f = topic
    · subst hft
      simp only [hw, Bool.false_eq_true, ↓reduceIte, true_and]
      rw [h.inlineOf, if_pos rfl, hf]
    · simp only [hft, false_and, ↓reduceIte, h.wildcardInline, h.inlineOf]
  · intro k c
    rw [sharedSub, h.shared]
    rfl

theorem coherent_rebuild {x : TopicsIndex} (o : MapOrder) (hx : x.Coherent) (he : x'.exact = x.exact)
    (hc : ∀ c f s, lookup₂ x'.wildcardClients c f = some s → isWildcardFilter f = true)
    (hi : ∀ f id i, lookup₂ x'.wildcardInline f id = some i → isWildcardFilter f = true) :
    (x'.rebuildWildcardSnap o).Coherent := by
  have hentry : ∀ t, (x'.rebuildWildcardSnap o).entry t = x.entry t := by
    intro t
    simp only [entry, exactInternal, rebuildWildcardSnap, he]
  refine ⟨?_, ⟨o, rfl⟩, ?_, ?_, hc, hi⟩
  · intro j
    simp only [rebuildWildcardSnap, he]
    exact hx.fresh j
  · intro t
    rw [subsOf, hentry]
    exact hx.subsNodup t
  · intro t
    rw [inlineOf, hentry]
    exact hx.inlineNodup t

theorem sharedChange_of_rebuild (o : MapOrder) {m : FMap Bytes (FMap Bytes Subscription)} {key : Bytes}
    (hm : ∀ k c, lookup₂ m k c = if k = key ∧ c = client then s else lookup₂ x.shared k c) :
    x.SharedChange ({ x with shared := m }.rebuildWildcardSnap o) key client s :=
  ⟨fun _ _ => rfl, fun _ _ => rfl, hm,
    fun hx => coherent_rebuild o hx rfl hx.wildcard hx.wildcardInline⟩

theorem plainChange_of_rebuild (o : MapOrder) {m : FMap Bytes (FMap Bytes Subscription)}
    (hw : isWildcardFilter filter = true)
    (hm : ∀ c f, lookup₂ m c f = if c = client ∧ f = filter then s else lookup₂ x.wildcardClients c f) :
    x.PlainChange ({ x with wildcardClients := m }.rebuildWildcardSnap o) client filter s := by
  refine ⟨?_, fun _ _ => rfl, fun _ _ => rfl, fun hx => coherent_rebuild o hx rfl ?_ hx.wildcardInline⟩
  · intro c f
    by_cases hf : f = filter
    · subst hf
      simp only [plainSub, hw, ↓reduceIte, rebuildWildcardSnap, hm]
    · have hm' : lookup₂ m c f = lookup₂ x.wildcardClients c f := by
        rw [hm, if_neg fun h => hf h.2]
      rw [if_neg fun h => hf h.2]
      simp only [plainSub, rebuildWildcardSnap, hm']
      rfl
  · intro c f s' h
    rw [hm] at h
    split at h
    · rename_i hcf
      rw [hcf.2]
      exact hw
    · exact hx.wildcard c f s' h

theorem inlineChange_of_rebuild (o : MapOrder) {m : FMap Bytes (FMap ℤ InlineSubscription)}
    {id : ℤ} {i : Option InlineSubscription} (hw : isWildcardFilter filter = true)
    (hm : ∀ f j, lookup₂ m f j = if f = filter ∧ j = id then i else lookup₂ x.wildcardInline f j) :
    x.InlineChange ({ x with wildcardInline := m }.rebuildWildcardSnap o) filter id i := by
  refine ⟨fun _ _ => rfl, ?_, fun _ _ => rfl, fun hx => coherent_rebuild o hx rfl hx.wildcard ?_⟩
  · intro f j
    by_cases hf : f = filter
    · subst hf
      simp only [inlineSub, hw, ↓reduceIte, rebuildWildcardSnap, hm]
    · have hm' : lookup₂ m f j = lookup₂ x.wildcardInline f j := by
        rw [hm, if_neg fun h => hf h.1]
      rw [if_neg fun h => hf h.1]
      simp only [inlineSub, rebuildWildcardSnap, hm']
      rfl
  · intro f j i' h
    rw [hm] at h
    split at h
    · rename_i hfj
      rw [hfj.1]
      exact hw
    · exact hx.wildcardInline f j i' h

private theorem sharedChange_none {key : Bytes} (h : x.sharedSub key client = none) :
    x.SharedChange x key client none := by
  refine ⟨fun _ _ => rfl, fun _ _ => rfl, ?_, id⟩
  intro k c
  split
  · rename_i hkc
    rw [hkc.1, hkc.2, h]
  · rfl

theorem plainChange_none (h : x.plainSub client filter = none) : x.PlainChange x client filter none := by
  refine ⟨?_, fun _ _ => rfl, fun _ _ => rfl, id⟩
  intro c f
  split
  · rename_i hcf
    rw [hcf.1, hcf.2, h]
  · rfl

theorem inlineChange_none {id : ℤ} (h : x.inlineSub filter id = none) : x.InlineChange x filter id none := by
  refine ⟨fun _ _ => rfl, ?_, fun _ _ => rfl, fun hx => hx⟩
  intro f j
  split
  · rename_i hfj
    rw [hfj.1, hfj.2, h]
  · rfl

theorem subscribe_shared (o : MapOrder) (client : Bytes) {sub : Subscription}
    (hs : isSharedFilter sub.filter = true) :
    x.SharedChange (x.subscribe o client sub).1 (keyOfFilter sub.filter) client (some sub) ∧
      (x.subscribe o client sub).2 = !(x.sharedSub (keyOfFilter sub.filter) client).isSome := by
  simp only [subscribe, hs, ↓reduceIte]
  constructor
  · exact sharedChange_of_rebuild x o fun k c => lookup₂_insertAt _ _ _ _ _ _
  · rw [insertAt_existed]
    rfl

theorem subscribe_plain (o : MapOrder) (client : Bytes) {sub : Subscription}
    (hs : isSharedFilter sub.filter = false) :
    x.PlainChange (x.subscribe o client sub).1 client sub.filter (some sub) ∧
      (x.subscribe o client sub).2 = !(x.plainSub client sub.filter).isSome := by
  unfold subscribe
  simp only [hs, Bool.false_eq_true, ↓reduceIte]
  cases hw : isWildcardFilter sub.filter with
  | true =>
    simp only [↓reduceIte]
    constructor
    · exact plainChange_of_rebuild x o hw fun c f => lookup₂_insertAt _ _ _ _ _ _
    · rw [insertAt_existed]
      simp only [plainSub, hw, ↓reduceIte]
  | false =>
    simp only [Bool.false_eq_true, ↓reduceIte]
    obtain ⟨hedit, hret⟩ := upsertExactSub_spec x sub.filter client sub
    constructor
    · refine hedit.plainChange hw (map_key_upsert_nodup (v := (client, sub))) fun c => ?_
      have hfind := findKey_upsert Prod.fst (client, sub) c (x.subsOf sub.filter)
      simp only at hfind
      rw [hfind]
      split <;> rfl
    · rw [hret]
      simp [plainSub, hw]

theorem unsubscribe_shared (o : MapOrder) (client : Bytes) (hs : isSharedFilter filter = true) :
    x.SharedChange (x.unsubscribe o filter client).1 (keyOfFilter filter) client none ∧
      (x.unsubscribe o filter client).2 = (x.sharedSub (keyOfFilter filter) client).isSome := by
  simp only [unsubscribe, hs, ↓reduceIte]
  cases he : eraseAt x.shared (keyOfFilter filter) client with
  | none =>
    have hp : x.sharedSub (keyOfFilter filter) client = none := (eraseAt_eq_none_iff).mp he
    rw [hp]
    exact ⟨sharedChange_none x hp, rfl⟩
  | some m =>
    refine ⟨sharedChange_of_rebuild x o (lookup₂_eraseAt he), ?_⟩
    have hsome : lookup₂ x.shared (keyOfFilter filter) client ≠ none := by
      rw [Ne, ← eraseAt_eq_none_iff, he]
      exact Option.some_ne_none m
    simpa [sharedSub] using (Option.isSome_iff_ne_none.mpr hsome).symm

theorem unsubscribe_plain (o : MapOrder) (client : Bytes) (hs : isSharedFilter filter = false) :
    x.PlainChange (x.unsubscribe o filter client).1 client filter none ∧
      (x.unsubscribe o filter client).2 = (x.plainSub client filter).isSome := by
  unfold unsubscribe
  simp only [hs, Bool.false_eq_true, ↓reduceIte]
  cases hw : isWildcardFilter filter with
  | true =>
    simp only [↓reduceIte]
    cases he : eraseAt x.wildcardClients client filter with
    | none =>
      have hnone := (eraseAt_eq_none_iff).mp he
      have hp : x.plainSub client filter = none := by simp only [plainSub, hw, ↓reduceIte, hnone]
      rw [hp]
      exact ⟨plainChange_none x hp, rfl⟩
    | some m =>
      refine ⟨plainChange_of_rebuild x o hw (lookup₂_eraseAt he), ?_⟩
      have hsome : lookup₂ x.wildcardClients client filter ≠ none := by
        rw [Ne, ← eraseAt_eq_none_iff, he]
        exact Option.some_ne_none m
      simpa [plainSub, hw] using (Option.isSome_iff_ne_none.mpr hsome).symm
  | false =>
    simp only [Bool.false_eq_true, ↓reduceIte]
    obtain ⟨hedit, hret⟩ := deleteExactSub_spec x filter client
    constructor
    · refine hedit.plainChange hw (map_key_filter_nodup _) fun c => ?_
      have hfind := findKey_filter Prod.fst client c (x.subsOf filter)
      rw [hfind]
      split <;> rfl
    · rw [hret]
      simp [plainSub, hw]

theorem inlineSubscribe_spec (o : MapOrder) (inl : InlineSubscription) :
    x.InlineChange (x.inlineSubscribe o inl).1 inl.sub.filter inl.sub.identifier (some inl) ∧
      (x.inlineSubscribe o inl).2 = !(x.inlineSub inl.sub.filter inl.sub.identifier).isSome := by
  unfold inlineSubscribe
  cases hw : isWildcardFilter inl.sub.filter with
  | true =>
    simp only [↓reduceIte]
    constructor
    · exact inlineChange_of_rebuild x o hw fun f j => lookup₂_insertAt _ _ _ _ _ _
    · rw [insertAt_existed]
      simp only [inlineSub, hw, ↓reduceIte]
  | false =>
    simp only [Bool.false_eq_true, ↓reduceIte]
    obtain ⟨hedit, hret⟩ := upsertExactInline_spec x inl.sub.filter inl
    constructor
    · exact hedit.inlineChange hw map_key_upsert_nodup fun j => findKey_upsert _ inl j _
    · rw [hret]
      simp [inlineSub, hw]

theorem inlineUnsubscribe_spec (o : MapOrder) (id : ℤ) (filter : Bytes) :
    x.InlineChange (x.inlineUnsubscribe o id filter).1 filter id none ∧
      (x.inlineUnsubscribe o id filter).2 = (x.inlineSub filter id).isSome := by
  unfold inlineUnsubscribe
  cases hw : isWildcardFilter filter with
  | true =>
    simp only [↓reduceIte]
    cases he : eraseAt x.wildcardInline filter id with
    | none =>
      have hnone := (eraseAt_eq_none_iff).mp he
      have hp : x.inlineSub filter id = none := by simp only [inlineSub, hw, ↓reduceIte, hnone]
      rw [hp]
      exact ⟨inlineChange_none x hp, rfl⟩
    | some m =>
      refine ⟨inlineChange_of_rebuild x o hw (lookup₂_eraseAt he), ?_⟩
      have hsome : lookup₂ x.wildcardInline filter id ≠ none := by
        rw [Ne, ← eraseAt_eq_none_iff, he]
        exact Option.some_ne_none m
      simpa [inlineSub, hw] using (Option.isSome_iff_ne_none.mpr hsome).symm
  | false =>
    simp only [Bool.false_eq_true, ↓reduceIte]
    obtain ⟨hedit, hret⟩ := deleteExactInline_spec x filter id
    constructor
    · exact hedit.inlineChange hw (map_key_filter_nodup _) fun j => findKey_filter _ id j _
    · rw [hret]
      simp [inlineSub, hw]

end TopicsIndex

/-- A subscription by what it is for: a client's own filter, or membership in a group. -/
inductive Key where
  | plain (client filter : Bytes)
  | shared (client group filter : Bytes)
  deriving DecidableEq, Repr

def Key.pair : Key → Option (Bytes × Bytes)
  | .plain _ _ => none
  | .shared _ group filter => some (group, filter)

def keyFor (client filter : Bytes) : Key :=
  if isSharedFilter filter then .shared client (splitShared filter).1 (splitShared filter).2
  else .plain client filter

structure Holdings where
  subs : FMap Key Subscription
  inline : FMap (Bytes × ℤ) InlineSubscription

inductive Call where
  | subscribe (o : MapOrder) (client : Bytes) (sub : Subscription)
  | unsubscribe (o : MapOrder) (filter client : Bytes)
  | inlineSubscribe (o : MapOrder) (inl : InlineSubscription)
  | inlineUnsubscribe (o : MapOrder) (id : ℤ) (filter : Bytes)

@[grind =] def Holdings.step (h : Holdings) : Call → Holdings
  | .subscribe _ client sub => { h with subs := h.subs.insert (keyFor client sub.filter) sub }
  | .unsubscribe _ filter client => { h with subs := h.subs.erase (keyFor client filter) }
  | .inlineSubscribe _ inl => { h with inline := h.inline.insert (inl.sub.filter, inl.sub.identifier) inl }
  | .inlineUnsubscribe _ id filter => { h with inline := h.inline.erase (filter, id) }

@[grind =] def TopicsIndex.call (x : TopicsIndex) : Call → TopicsIndex × Bool
  | .subscribe o client sub => x.subscribe o client sub
  | .unsubscribe o filter client => x.unsubscribe o filter client
  | .inlineSubscribe o inl => x.inlineSubscribe o inl
  | .inlineUnsubscribe o id filter => x.inlineUnsubscribe o id filter

structure IndexSys where
  index : TopicsIndex
  held : Holdings

namespace IndexSys

def start : IndexSys := ⟨newTopicsIndex, ⟨∅, ∅⟩⟩

@[grind =] def step (s : IndexSys) (c : Call) : IndexSys := ⟨(s.index.call c).1, s.held.step c⟩

/-- Filters are valid. A group name holds no NUL, and a client joins a group under the spelling
of the share prefix that its other members use. -/
def Meets (s : IndexSys) : Call → Prop
  | .subscribe _ client sub =>
    isValidFilter sub.filter false = true ∧
      (isSharedFilter sub.filter = true →
        0 ∉ (splitShared sub.filter).1 ∧
          ∀ e ∈ s.held.subs.entries, e.1.pair = (keyFor client sub.filter).pair →
            e.1 ≠ keyFor client sub.filter → e.2.filter = sub.filter)
  | .unsubscribe _ filter _ =>
    isValidFilter filter false = true ∧ (isSharedFilter filter = true → 0 ∉ (splitShared filter).1)
  | .inlineSubscribe _ inl => isValidFilter inl.sub.filter false = true
  | .inlineUnsubscribe _ _ filter => isValidFilter filter false = true

instance (s : IndexSys) : (c : Call) → Decidable (s.Meets c)
  | .subscribe _ _ _ => inferInstanceAs (Decidable (_ ∧ (_ → _ ∧ _)))
  | .unsubscribe _ _ _ => inferInstanceAs (Decidable (_ ∧ (_ → _)))
  | .inlineSubscribe _ _ => inferInstanceAs (Decidable (_ = _))
  | .inlineUnsubscribe _ _ _ => inferInstanceAs (Decidable (_ = _))

/-- The subscriptions held: each under its own key, members of a group under one spelling. -/
structure HeldWell (h : Holdings) : Prop where
  plain : ∀ c f s, h.subs.lookup (.plain c f) = some s →
    s.filter = f ∧ isSharedFilter f = false ∧ isValidFilter f false = true
  shared : ∀ c g p s, h.subs.lookup (.shared c g p) = some s →
    splitShared s.filter = (g, p) ∧ isSharedFilter s.filter = true ∧
      isValidFilter s.filter false = true ∧ 0 ∉ g
  uniform : ∀ c c' g p s s', h.subs.lookup (.shared c g p) = some s →
    h.subs.lookup (.shared c' g p) = some s' → s.filter = s'.filter
  inline : ∀ f id i, h.inline.lookup (f, id) = some i →
    i.sub.filter = f ∧ i.sub.identifier = id ∧ isValidFilter f false = true

structure Represents (s : IndexSys) : Prop where
  plain : ∀ c f, s.held.subs.lookup (.plain c f) = s.index.plainSub c f
  shared : ∀ c g p, 0 ∉ g → s.held.subs.lookup (.shared c g p) = s.index.sharedSub (shareKey g p) c
  groups : ∀ k c m, s.index.sharedSub k c = some m → ∃ g p, 0 ∉ g ∧ k = shareKey g p
  inline : ∀ f id, s.held.inline.lookup (f, id) = s.index.inlineSub f id
  coherent : s.index.Coherent
  held : HeldWell s.held

theorem shareKey_injective {g g' p p' : Bytes} (hg : 0 ∉ g) (hg' : 0 ∉ g')
    (h : shareKey g p = shareKey g' p') : g = g' ∧ p = p' := by
  induction g generalizing g' with
  | nil =>
    cases g' with
    | nil => exact ⟨rfl, by simpa [shareKey] using h⟩
    | cons b g' =>
      simp only [shareKey, List.nil_append, List.cons_append, List.cons.injEq] at h
      exact absurd (h.1 ▸ List.mem_cons_self) hg'
  | cons a g ih =>
    cases g' with
    | nil =>
      simp only [shareKey, List.nil_append, List.cons_append, List.cons.injEq] at h
      exact absurd (h.1 ▸ List.mem_cons_self) hg
    | cons b g' =>
      simp only [shareKey, List.cons_append, List.cons.injEq] at h
      simp only [List.mem_cons, not_or] at hg hg'
      obtain ⟨hgg, hpp⟩ := ih hg.2 hg'.2 h.2
      exact ⟨by rw [h.1, hgg], hpp⟩

variable {client filter : Bytes}

theorem keyFor_shared (h : isSharedFilter filter = true) :
    keyFor client filter = .shared client (splitShared filter).1 (splitShared filter).2 := if_pos h

theorem keyFor_plain (h : isSharedFilter filter = false) :
    keyFor client filter = .plain client filter := by
  rw [keyFor, if_neg (by rw [h]; decide)]

variable {h' : Holdings}

theorem HeldWell.of_le {h : Holdings} (hw : HeldWell h)
    (hs : ∀ k s, h'.subs.lookup k = some s → h.subs.lookup k = some s)
    (hi : ∀ k i, h'.inline.lookup k = some i → h.inline.lookup k = some i) : HeldWell h' :=
  ⟨fun c f s hl => hw.plain c f s (hs _ _ hl), fun c g p s hl => hw.shared c g p s (hs _ _ hl),
    fun c c' g p s s' hl hl' => hw.uniform c c' g p s s' (hs _ _ hl) (hs _ _ hl'),
    fun f id i hl => hw.inline f id i (hi _ _ hl)⟩

theorem lookup_of_erase {κ β : Type} [DecidableEq κ] {m : FMap κ β} {a k : κ} {v : β}
    (h : (m.erase a).lookup k = some v) : m.lookup k = some v := by
  rw [lookup_erase_if] at h
  split at h
  · cases h
  · exact h

variable {s : IndexSys}

theorem heldWell_step {c : Call} (hw : HeldWell s.held) (hc : s.Meets c) :
    HeldWell (s.held.step c) := by
  cases c with
  | subscribe o client sub =>
    obtain ⟨hv, hsh⟩ := hc
    simp only [Holdings.step]
    refine ⟨?_, ?_, ?_, hw.inline⟩
    · intro c f m hl
      simp only [lookup_insert_if] at hl
      split at hl
      · rename_i hk
        cases hl
        cases hs : isSharedFilter sub.filter with
        | true => rw [keyFor_shared hs] at hk; cases hk
        | false =>
          rw [keyFor_plain hs] at hk
          cases hk
          exact ⟨rfl, hs, hv⟩
      · exact hw.plain c f m hl
    · intro c g p m hl
      simp only [lookup_insert_if] at hl
      split at hl
      · rename_i hk
        cases hl
        cases hs : isSharedFilter sub.filter with
        | false => rw [keyFor_plain hs] at hk; cases hk
        | true =>
          rw [keyFor_shared hs] at hk
          cases hk
          exact ⟨rfl, rfl, hv, (hsh hs).1⟩
      · exact hw.shared c g p m hl
    · have hother : ∀ {c g p m}, (.shared c g p : Key) ≠ keyFor client sub.filter →
          ∀ {c'}, (.shared c' g p : Key) = keyFor client sub.filter →
            s.held.subs.lookup (.shared c g p) = some m → m.filter = sub.filter := by
        intro c g p m hne c' hk hl
        have hs : isSharedFilter sub.filter = true := by
          by_contra hn
          rw [keyFor_plain (by simpa using hn)] at hk
          cases hk
        refine (hsh hs).2 ⟨_, m⟩ (AList.mem_lookup_iff.mp hl) ?_ hne
        rw [← hk]
        rfl
      intro c c' g p m m' hl hl'
      simp only [lookup_insert_if] at hl hl'
      split at hl
      · rename_i hk
        cases hl
        split at hl'
        · cases hl'
          rfl
        · rename_i hk'
          exact (hother hk' hk hl').symm
      · rename_i hk
        split at hl'
        · rename_i hk'
          cases hl'
          exact hother hk hk' hl
        · exact hw.uniform c c' g p m m' hl hl'
  | unsubscribe o filter client =>
    exact hw.of_le (fun _ _ hl => lookup_of_erase hl) (fun _ _ hl => hl)
  | inlineSubscribe o inl =>
    refine ⟨hw.plain, hw.shared, hw.uniform, ?_⟩
    intro f id i hl
    simp only [Holdings.step, lookup_insert_if] at hl
    split at hl
    · rename_i hk
      cases hl
      cases hk
      exact ⟨rfl, rfl, hc⟩
    · exact hw.inline f id i hl
  | inlineUnsubscribe o id filter =>
    exact hw.of_le (fun _ _ hl => hl) (fun _ _ hl => lookup_of_erase hl)

theorem Represents.plainChange {x' : TopicsIndex}
    {m : Option Subscription} (hr : s.Represents) (hx : s.index.PlainChange x' client filter m)
    (hs : ∀ k, h'.subs.lookup k = if k = .plain client filter then m else s.held.subs.lookup k)
    (hi : h'.inline = s.held.inline) (hw : HeldWell h') : (⟨x', h'⟩ : IndexSys).Represents := by
  refine ⟨?_, ?_, ?_, ?_, hx.coherent hr.coherent, hw⟩
  · intro c f
    simp only [hs, hx.plain, hr.plain, Key.plain.injEq]
  · intro c g p hg
    simp only [hs, reduceCtorEq, ↓reduceIte, hx.shared]
    exact hr.shared c g p hg
  · intro k c m' hl
    simp only [hx.shared] at hl
    exact hr.groups k c m' hl
  · intro f id
    simp only [hi, hx.inline]
    exact hr.inline f id

theorem Represents.sharedChange {x' : TopicsIndex} {g p : Bytes}
    {m : Option Subscription} (hr : s.Represents) (hx : s.index.SharedChange x' (shareKey g p) client m)
    (hg : 0 ∉ g) (hs : ∀ k, h'.subs.lookup k = if k = .shared client g p then m else s.held.subs.lookup k)
    (hi : h'.inline = s.held.inline) (hw : HeldWell h') : (⟨x', h'⟩ : IndexSys).Represents := by
  refine ⟨?_, ?_, ?_, ?_, hx.coherent hr.coherent, hw⟩
  · intro c f
    simp only [hs, reduceCtorEq, ↓reduceIte, hx.plain]
    exact hr.plain c f
  · intro c g' p' hg'
    have hiff : ((.shared c g' p' : Key) = .shared client g p) ↔ shareKey g' p' = shareKey g p ∧ c = client := by
      constructor
      · intro h
        cases h
        exact ⟨rfl, rfl⟩
      · rintro ⟨hk, rfl⟩
        obtain ⟨rfl, rfl⟩ := shareKey_injective hg' hg hk
        rfl
    simp only [hs, hx.shared, hiff]
    split
    · rfl
    · exact hr.shared c g' p' hg'
  · intro k c m' hl
    simp only [hx.shared] at hl
    split at hl
    · rename_i hkc
      exact ⟨g, p, hg, hkc.1⟩
    · exact hr.groups k c m' hl
  · intro f id
    simp only [hi, hx.inline]
    exact hr.inline f id

theorem Represents.inlineChange {x' : TopicsIndex} {id : ℤ}
    {i : Option InlineSubscription} (hr : s.Represents) (hx : s.index.InlineChange x' filter id i)
    (hs : h'.subs = s.held.subs)
    (hi : ∀ k, h'.inline.lookup k = if k = (filter, id) then i else s.held.inline.lookup k)
    (hw : HeldWell h') : (⟨x', h'⟩ : IndexSys).Represents := by
  refine ⟨?_, ?_, ?_, ?_, hx.coherent hr.coherent, hw⟩
  · intro c f
    simp only [hs, hx.plain]
    exact hr.plain c f
  · intro c g p hg
    simp only [hs, hx.shared]
    exact hr.shared c g p hg
  · intro k c m' hl
    simp only [hx.shared] at hl
    exact hr.groups k c m' hl
  · intro f j
    simp only [hi, hx.inline, hr.inline, Prod.mk.injEq]

theorem step_represents {c : Call} (hr : s.Represents) (hc : s.Meets c) :
    (s.step c).Represents := by
  have hw := heldWell_step hr.held hc
  cases c with
  | subscribe o client sub =>
    cases hs : isSharedFilter sub.filter with
    | true =>
      refine hr.sharedChange (s.index.subscribe_shared o client hs).1 (hc.2 hs).1 ?_ rfl hw
      intro k
      simp only [Holdings.step, lookup_insert_if, keyFor_shared hs]
    | false =>
      refine hr.plainChange (s.index.subscribe_plain o client hs).1 ?_ rfl hw
      intro k
      simp only [Holdings.step, lookup_insert_if, keyFor_plain hs]
  | unsubscribe o filter client =>
    cases hs : isSharedFilter filter with
    | true =>
      refine hr.sharedChange (s.index.unsubscribe_shared o client hs).1 (hc.2 hs) ?_ rfl hw
      intro k
      simp only [Holdings.step, lookup_erase_if, keyFor_shared hs]
    | false =>
      refine hr.plainChange (s.index.unsubscribe_plain o client hs).1 ?_ rfl hw
      intro k
      simp only [Holdings.step, lookup_erase_if, keyFor_plain hs]
  | inlineSubscribe o inl =>
    refine hr.inlineChange (s.index.inlineSubscribe_spec o inl).1 rfl ?_ hw
    intro k
    simp only [Holdings.step, lookup_insert_if]
  | inlineUnsubscribe o id filter =>
    refine hr.inlineChange (s.index.inlineUnsubscribe_spec o id filter).1 rfl ?_ hw
    intro k
    simp only [Holdings.step, lookup_erase_if]

theorem start_represents : start.Represents := by
  refine ⟨?_, ?_, ?_, ?_, ⟨fun _ => rfl, ⟨.stored, rfl⟩, ?_, ?_, ?_, ?_⟩, ⟨?_, ?_, ?_, ?_⟩⟩
  · intro c f
    simp only [TopicsIndex.plainSub]
    split <;> rfl
  · intro c g p _
    rfl
  · intro k c m h
    cases h
  · intro f id
    simp only [TopicsIndex.inlineSub]
    split <;> rfl
  · intro t
    exact List.nodup_nil
  · intro t
    exact List.nodup_nil
  · intro c f m h
    cases h
  · intro f id i h
    cases h
  · intro c f m h
    cases h
  · intro c g p m h
    cases h
  · intro c c' g p m m' h
    cases h
  · intro f id i h
    cases h

theorem run_represents {calls : List Call} (h : Along step Meets start calls) :
    (run step start calls).Represents :=
  run_invariant (fun _ _ hs hc => step_represents hs hc) start_represents h

theorem size_insert {κ β : Type} [DecidableEq κ] (m : FMap κ β) (k : κ) (v : β) :
    size (m.insert k v) ≠ size m ↔ m.lookup k = none := by
  have h := count_insert (fun _ => true) m k v
  rw [← size_eq_count, ← size_eq_count] at h
  cases hl : m.lookup k with
  | none =>
    simp only [hl, weight_none, weight_some, ↓reduceIte] at h
    simp only [ne_eq, iff_true]
    omega
  | some b =>
    simp only [hl, weight_some, ↓reduceIte] at h
    simp only [reduceCtorEq, iff_false, ne_eq, not_not]
    omega

theorem size_erase {κ β : Type} [DecidableEq κ] (m : FMap κ β) (k : κ) :
    size (m.erase k) ≠ size m ↔ m.lookup k ≠ none := by
  have h := count_erase (fun _ => true) m k
  rw [← size_eq_count, ← size_eq_count] at h
  cases hl : m.lookup k with
  | none =>
    simp only [hl, weight_none] at h
    simp only [ne_eq, not_true_eq_false, iff_false, not_not]
    omega
  | some b =>
    simp only [hl, weight_some, ↓reduceIte] at h
    simp only [reduceCtorEq, ne_eq, not_false_eq_true, iff_true]
    omega

def heldSize (h : Holdings) : ℕ := size h.subs + size h.inline

theorem call_returns {c : Call} (hr : s.Represents) (hc : s.Meets c) :
    (s.index.call c).2 = true ↔ heldSize (s.step c).held ≠ heldSize s.held := by
  cases c with
  | subscribe o client sub =>
    have hsz : heldSize (s.step (.subscribe o client sub)).held ≠ heldSize s.held ↔
        s.held.subs.lookup (keyFor client sub.filter) = none := by
      rw [← size_insert s.held.subs _ sub]
      simp [heldSize, step, Holdings.step]
    rw [hsz]
    cases hs : isSharedFilter sub.filter with
    | true =>
      rw [keyFor_shared hs, hr.shared _ _ _ (hc.2 hs).1]
      simp [TopicsIndex.call, (s.index.subscribe_shared o client hs).2, keyOfFilter]
    | false =>
      rw [keyFor_plain hs, hr.plain]
      simp [TopicsIndex.call, (s.index.subscribe_plain o client hs).2]
  | unsubscribe o filter client =>
    have hsz : heldSize (s.step (.unsubscribe o filter client)).held ≠ heldSize s.held ↔
        s.held.subs.lookup (keyFor client filter) ≠ none := by
      rw [← size_erase s.held.subs]
      simp [heldSize, step, Holdings.step]
    rw [hsz, ← Option.isSome_iff_ne_none]
    cases hs : isSharedFilter filter with
    | true =>
      rw [keyFor_shared hs, hr.shared _ _ _ (hc.2 hs)]
      simp [TopicsIndex.call, (s.index.unsubscribe_shared o client hs).2, keyOfFilter]
    | false =>
      rw [keyFor_plain hs, hr.plain]
      simp [TopicsIndex.call, (s.index.unsubscribe_plain o client hs).2]
  | inlineSubscribe o inl =>
    have hsz : heldSize (s.step (.inlineSubscribe o inl)).held ≠ heldSize s.held ↔
        s.held.inline.lookup (inl.sub.filter, inl.sub.identifier) = none := by
      rw [← size_insert s.held.inline _ inl]
      simp [heldSize, step, Holdings.step]
    rw [hsz, hr.inline]
    simp [TopicsIndex.call, (s.index.inlineSubscribe_spec o inl).2]
  | inlineUnsubscribe o id filter =>
    have hsz : heldSize (s.step (.inlineUnsubscribe o id filter)).held ≠ heldSize s.held ↔
        s.held.inline.lookup (filter, id) ≠ none := by
      rw [← size_erase s.held.inline]
      simp [heldSize, step, Holdings.step]
    rw [hsz, ← Option.isSome_iff_ne_none, hr.inline]
    simp [TopicsIndex.call, (s.index.inlineUnsubscribe_spec o id filter).2]

end IndexSys

end MonsterMQ.Topics
