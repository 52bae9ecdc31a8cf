import MonsterMQ.TopicIndexHoldings

/-!
# The subscribers of a topic

What the snapshots list and what `Subscribers` collects from them: for each client the merge of
its matching subscriptions, and the members of the matching groups.
-/

namespace MonsterMQ.Topics

open LittleEndian PeerLink Auth FiniteMaps StateRuns List

namespace TopicsIndex

variable (x : TopicsIndex)

@[grind =] def snapClients : List (Bytes × List Subscription) := (x.wildcardSnap.map (·.clients)).getD []

@[grind =] def snapInline : List InlineSubscription := (x.wildcardSnap.map (·.inline)).getD []

@[grind =] def snapShared : List (Bytes × FMap Bytes Subscription) := (x.wildcardSnap.map (·.shared)).getD []

theorem lists_of_snapshot {x : TopicsIndex} {o : MapOrder} (ho : x.wildcardSnap = buildSnapshot o x) :
    x.snapInline = (o.visit x.wildcardInline.entries).flatMap
        (fun byID => (o.visit byID.2.entries).map (·.2)) ∧
      x.snapClients = (o.visit x.wildcardClients.entries).filterMap (fun e =>
        if size e.2 = 0 then none else some (e.1, (o.visit e.2.entries).map (·.2))) ∧
      x.snapShared = (o.visit x.shared.entries).filterMap (fun e =>
        if size e.2 = 0 then none else (plainOfKey e.1).map fun plain => (plain, e.2)) := by
  unfold snapInline snapClients snapShared
  rw [ho, buildSnapshot]
  split
  · rename_i he
    simp only [Bool.and_eq_true, decide_eq_true_eq] at he
    have hnil : ∀ {β : Type} {m : FMap Bytes β}, size m = 0 → o.visit m.entries = [] := by
      intro β m hm
      have := (o.perm m.entries)
      rw [length_eq_zero_iff.mp hm] at this ⊢
      exact this.eq_nil
    rw [hnil he.1.1, hnil he.1.2, hnil he.2]
    exact ⟨rfl, rfl, rfl⟩
  · exact ⟨rfl, rfl, rfl⟩

theorem snapshot_lists {x : TopicsIndex} (h : x.Coherent) : ∃ o : MapOrder,
    x.snapInline = (o.visit x.wildcardInline.entries).flatMap
        (fun byID => (o.visit byID.2.entries).map (·.2)) ∧
      x.snapClients = (o.visit x.wildcardClients.entries).filterMap (fun e =>
        if size e.2 = 0 then none else some (e.1, (o.visit e.2.entries).map (·.2))) ∧
      x.snapShared = (o.visit x.shared.entries).filterMap (fun e =>
        if size e.2 = 0 then none else (plainOfKey e.1).map fun plain => (plain, e.2)) := by
  obtain ⟨o, ho⟩ := h.snapshot
  exact ⟨o, lists_of_snapshot ho⟩

theorem mem_visit_map {κ β : Type} [DecidableEq κ] {o : MapOrder} {m : FMap κ β} {v : β} :
    v ∈ (o.visit m.entries).map (·.2) ↔ ∃ k, m.lookup k = some v := by
  rw [mem_map]
  constructor
  · rintro ⟨⟨k, b⟩, he, rfl⟩
    exact ⟨k, AList.mem_lookup_iff.mpr (o.mem_visit.mp he)⟩
  · rintro ⟨k, hk⟩
    exact ⟨⟨k, v⟩, o.mem_visit.mpr (AList.mem_lookup_iff.mp hk), rfl⟩

theorem size_ne_zero_of_lookup {κ β : Type} [DecidableEq κ] {m : FMap κ β} {k : κ} {v : β}
    (h : m.lookup k = some v) : size m ≠ 0 := by
  intro h0
  rw [lookup_eq_none_of_size h0] at h
  cases h

theorem mem_snapClients {x : TopicsIndex} (h : x.Coherent) {c : Bytes} {s : Subscription} :
    (∃ subs, (c, subs) ∈ x.snapClients ∧ s ∈ subs) ↔ ∃ f, lookup₂ x.wildcardClients c f = some s := by
  obtain ⟨o, -, hc, -⟩ := snapshot_lists h
  rw [hc]
  constructor
  · rintro ⟨subs, hm, hs⟩
    obtain ⟨⟨a, inner⟩, he, hif⟩ := mem_filterMap.mp hm
    simp only at hif
    split at hif
    · cases hif
    · simp only [Option.some.injEq, Prod.mk.injEq] at hif
      obtain ⟨rfl, rfl⟩ := hif
      obtain ⟨f, hf⟩ := (mem_visit_map).mp hs
      have ha : x.wildcardClients.lookup a = some inner :=
        AList.mem_lookup_iff.mpr (o.mem_visit.mp he)
      exact ⟨f, by rw [lookup₂, ha]; exact hf⟩
  · rintro ⟨f, hf⟩
    obtain ⟨inner, ha, hk⟩ := Option.bind_eq_some_iff.mp hf
    refine ⟨(o.visit inner.entries).map (·.2), mem_filterMap.mpr ⟨⟨c, inner⟩, ?_, ?_⟩, ?_⟩
    · exact o.mem_visit.mpr (AList.mem_lookup_iff.mp ha)
    · simp only [size_ne_zero_of_lookup hk, ↓reduceIte]
    · exact (mem_visit_map).mpr ⟨f, hk⟩

theorem visit_keys_nodup {κ β : Type} (o : MapOrder) (m : FMap κ β) :
    ((o.visit m.entries).map Sigma.fst).Nodup :=
  ((o.perm m.entries).map Sigma.fst).nodup_iff.mpr m.nodupKeys

theorem snapClients_nodup {x : TopicsIndex} (h : x.Coherent) : (x.snapClients.map Prod.fst).Nodup := by
  obtain ⟨o, -, hc, -⟩ := snapshot_lists h
  rw [hc]
  refine (visit_keys_nodup o x.wildcardClients).sublist ?_
  induction o.visit x.wildcardClients.entries with
  | nil => exact List.Sublist.refl _
  | cons e l ih =>
    rw [filterMap_cons]
    split
    · exact (ih).cons _
    · rename_i hif
      split at hif
      · cases hif
      · simp only [Option.some.injEq] at hif
        subst hif
        exact ih.cons_cons _

theorem mem_snapShared {x : TopicsIndex} (h : x.Coherent) {plain c : Bytes} {s : Subscription} :
    (∃ members, (plain, members) ∈ x.snapShared ∧ members.lookup c = some s) ↔
      ∃ key, plainOfKey key = some plain ∧ x.sharedSub key c = some s := by
  obtain ⟨o, -, -, hs⟩ := snapshot_lists h
  rw [hs]
  constructor
  · rintro ⟨members, hm, hc⟩
    obtain ⟨⟨key, inner⟩, he, hif⟩ := mem_filterMap.mp hm
    simp only at hif
    split at hif
    · cases hif
    · obtain ⟨p, hp, heq⟩ := Option.map_eq_some_iff.mp hif
      simp only [Prod.mk.injEq] at heq
      obtain ⟨rfl, rfl⟩ := heq
      have ha : x.shared.lookup key = some inner :=
        AList.mem_lookup_iff.mpr (o.mem_visit.mp he)
      exact ⟨key, hp, by rw [sharedSub, lookup₂, ha]; exact hc⟩
  · rintro ⟨key, hp, hk⟩
    obtain ⟨inner, ha, hc⟩ := Option.bind_eq_some_iff.mp hk
    refine ⟨inner, mem_filterMap.mpr ⟨⟨key, inner⟩, ?_, ?_⟩, hc⟩
    · exact o.mem_visit.mpr (AList.mem_lookup_iff.mp ha)
    · simp only [size_ne_zero_of_lookup hc, ↓reduceIte, hp, Option.map_some]

end TopicsIndex

theorem plainOfKey_shareKey {g p : Bytes} (hg : 0 ∉ g) : plainOfKey (shareKey g p) = some p := by
  have hd : (shareKey g p).dropWhile (· ≠ 0) = 0 :: p := by
    rw [shareKey, dropWhile_append_of_pos]
    · simp
    · intro b hb
      simpa using fun h : b = 0 => hg (h ▸ hb)
  rw [plainOfKey, hd]

@[grind =] def mergeAll (s : Option Subscription) (subs : List Subscription) : Option Subscription :=
  subs.foldl (fun s n => some (mergeOnto s n)) s

theorem mergeAll_cons (s : Option Subscription) (n : Subscription) (subs : List Subscription) :
    mergeAll s (n :: subs) = mergeAll (some (mergeOnto s n)) subs := rfl

theorem mergeAll_isSome (s : Option Subscription) (subs : List Subscription) :
    (mergeAll s subs).isSome = (s.isSome || !subs.isEmpty) := by
  induction subs generalizing s with
  | nil => simp [mergeAll]
  | cons n subs ih =>
    rw [mergeAll_cons, ih]
    simp

theorem lookup_gatherClient (topic : Bytes) (m : FMap Bytes Subscription) (wc : Bytes × List Subscription)
    (c : Bytes) : (gatherClient topic m wc).lookup c =
      if c = wc.1 then mergeAll (m.lookup c) (wc.2.filter fun s => matchMQTTTopic s.filter topic)
      else m.lookup c := by
  obtain ⟨client, subs⟩ := wc
  simp only [gatherClient]
  induction subs generalizing m with
  | nil => simp [mergeAll]
  | cons s subs ih =>
    rw [foldl_cons, ih, filter_cons]
    cases hm : matchMQTTTopic s.filter topic with
    | false => simp
    | true =>
      simp only [↓reduceIte, mergeInto, lookup_insert_if, mergeAll_cons]
      split
      · rename_i hc
        rw [hc]
      · rfl

@[grind =] def TopicsIndex.matching (x : TopicsIndex) (topic c : Bytes) : List Subscription :=
  ((findKey Prod.fst c x.snapClients).map fun wc =>
    wc.2.filter fun s => matchMQTTTopic s.filter topic).getD []

theorem lookup_foldl_gatherClient (topic : Bytes) {clients : List (Bytes × List Subscription)}
    (hn : (clients.map Prod.fst).Nodup) (m : FMap Bytes Subscription) (c : Bytes) :
    (clients.foldl (gatherClient topic) m).lookup c =
      mergeAll (m.lookup c) (((findKey Prod.fst c clients).map fun wc =>
        wc.2.filter fun s => matchMQTTTopic s.filter topic).getD []) := by
  induction clients generalizing m with
  | nil => rfl
  | cons wc clients ih =>
    rw [map_cons, nodup_cons] at hn
    rw [foldl_cons, ih hn.2, lookup_gatherClient]
    by_cases hc : c = wc.1
    · subst hc
      have hnone : findKey Prod.fst wc.1 clients = none := by
        rw [findKey_eq_none_iff]
        intro e he heq
        exact hn.1 (heq ▸ mem_map_of_mem he)
      have hsome : findKey Prod.fst wc.1 (wc :: clients) = some wc := by simp [findKey]
      rw [hnone, hsome, if_pos rfl]
      rfl
    · have hne : wc.1 ≠ c := Ne.symm hc
      have hskip : findKey Prod.fst c (wc :: clients) = findKey Prod.fst c clients := by
        simp [findKey, hne]
      rw [hskip, if_neg hc]

theorem lookup_foldl_insert {κ β γ : Type} [DecidableEq κ] (key : γ → κ) (val : γ → β) {l : List γ}
    (hn : (l.map key).Nodup) (m : FMap κ β) (k : κ) :
    (l.foldl (fun m e => m.insert (key e) (val e)) m).lookup k =
      match findKey key k l with
      | some e => some (val e)
      | none => m.lookup k := by
  induction l generalizing m with
  | nil => rfl
  | cons a l ih =>
    rw [map_cons, nodup_cons] at hn
    rw [foldl_cons, ih hn.2]
    by_cases hk : key a = k
    · have hnone : findKey key k l = none := by
        rw [findKey_eq_none_iff]
        intro e he heq
        exact hn.1 ((hk.trans heq.symm) ▸ mem_map_of_mem he)
      have hsome : findKey key k (a :: l) = some a := by simp [findKey, hk]
      rw [hnone, hsome]
      simp only
      rw [hk, AList.lookup_insert]
    · have hskip : findKey key k (a :: l) = findKey key k l := by simp [findKey, hk]
      rw [hskip]
      split
      · rfl
      · rw [AList.lookup_insert_ne (Ne.symm hk)]

theorem lookup_subscriptions {x : TopicsIndex} (h : x.Coherent) {topic : Bytes} (ht : topic ≠ []) (c : Bytes) :
    (x.subscribers topic).subscriptions.lookup c =
      mergeAll ((findKey Prod.fst c (x.subsOf topic)).map Prod.snd) (x.matching topic c) := by
  have hex : ∀ c, ((((x.getExact topic).map (·.subs)).getD []).foldl
      (fun (m : FMap Bytes Subscription) cs => m.insert cs.1 cs.2) ∅).lookup c =
        (findKey Prod.fst c (x.subsOf topic)).map Prod.snd := by
    intro c
    rw [TopicsIndex.getExact_of_fresh h.fresh]
    have hfold := lookup_foldl_insert Prod.fst Prod.snd (h.subsNodup topic) (∅ : FMap Bytes Subscription) c
    refine hfold.trans ?_
    cases findKey Prod.fst c (x.subsOf topic) <;> rfl
  have hsnap := lookup_foldl_gatherClient topic (TopicsIndex.snapClients_nodup h)
    ((((x.getExact topic).map (·.subs)).getD []).foldl
      (fun (m : FMap Bytes Subscription) cs => m.insert cs.1 cs.2) ∅) c
  rw [hex] at hsnap
  unfold TopicsIndex.subscribers TopicsIndex.matching
  have hne : topic.isEmpty = false := by simpa using ht
  rw [hne]
  simp only [Bool.false_eq_true, ↓reduceIte]
  unfold TopicsIndex.snapClients at hsnap ⊢
  cases hw : x.wildcardSnap with
  | none | some snap =>
    rw [hw] at hsnap
    exact hsnap

end MonsterMQ.Topics
