import Mathlib.Data.List.Rotate
import MonsterMQ.TopicMerge
import MonsterMQ.TopicIndexCorrect

/-!
# Fan-out of a publish

The fast path of `deliverToSubscribers` and the path through `Subscribers` hand the same clients the same
merged subscriptions, except for the retain flag of wildcard subscriptions and for inline subscriptions that
share an identifier.
-/

namespace MonsterMQ.Topics

open LittleEndian PeerLink Auth FiniteMaps StateRuns List

def matchClientWildcards (subs : List Subscription) (topic : Bytes) : Option Subscription :=
  subs.foldl (fun matched s => if matchMQTTTopic s.filter topic then some (mergeOnto matched s) else matched) none

structure Fanout where
  inline : List InlineSubscription
  clients : List (Bytes × Subscription)

@[grind =] def fastClients (subs : List (Bytes × Subscription)) (clients : List (Bytes × List Subscription))
    (topic : Bytes) : List (Bytes × Subscription) :=
  if !subs.isEmpty && clients.isEmpty then subs
  else if subs.isEmpty && !clients.isEmpty then
    clients.filterMap fun wc => (matchClientWildcards wc.2 topic).map fun sub => (wc.1, sub)
  else if !subs.isEmpty && !clients.isEmpty then
    (subs.map fun cs => (cs.1, match clients.find? (fun wc => wc.1 = cs.1) with
      | none => cs.2
      | some wc => match matchClientWildcards wc.2 topic with
        | none => cs.2
        | some wsub => cs.2.merge wsub)) ++
    clients.filterMap fun wc =>
      if subs.any (fun cs => cs.1 = wc.1) then none
      else (matchClientWildcards wc.2 topic).map fun sub => (wc.1, sub)
  else []

namespace TopicsIndex

@[grind =] def fastPath (x : TopicsIndex) (topic : Bytes) (inline : Bool) : Fanout :=
  let entry := x.getExact topic
  { inline :=
      if inline then ((entry.map (·.inline)).getD []) ++
        x.snapInline.filter fun inl => matchMQTTTopic inl.sub.filter topic
      else []
    clients := fastClients ((entry.map (·.subs)).getD []) x.snapClients topic }

def generalPath (x : TopicsIndex) (o : MapOrder) (topic : Bytes) (inline : Bool) : Fanout :=
  let subscribers := x.subscribers topic
  let subscribers :=
    if size subscribers.shared > 0 then (subscribers.selectShared o).mergeSharedSelected else subscribers
  { inline := if inline then (o.visit subscribers.inlineSubscriptions.entries).map (·.2) else []
    clients := (o.visit subscribers.subscriptions.entries).map fun e => (e.1, e.2) }

/-- The calls one publish makes; `registered` are the clients found in the client map. -/
@[grind =] def deliverToSubscribers (x : TopicsIndex) (o : MapOrder) (registered : Bytes → Bool) (topic : Bytes)
    (inline : Bool) : Fanout :=
  if topic.isEmpty then ⟨[], []⟩
  else
    let f := if x.snapShared.isEmpty then x.fastPath topic inline else x.generalPath o topic inline
    { f with clients := f.clients.filter fun e => registered e.1 }

end TopicsIndex

structure SubscriptionView where
  qos : UInt8
  noLocal : Bool
  retainAsPublished : Bool
  identifiers : List ℤ
  deriving DecidableEq

def Subscription.view (s : Subscription) : SubscriptionView :=
  ⟨s.qos, s.noLocal, s.retainAsPublished, s.subscriptionIdentifiers⟩

structure SameCalls (a b : Fanout) : Prop where
  clients : (a.clients.map fun e => (e.1, e.2.view)).Perm (b.clients.map fun e => (e.1, e.2.view))
  inline : a.inline.Perm b.inline

private theorem matchClientWildcards_eq (subs : List Subscription) (topic : Bytes) :
    matchClientWildcards subs topic = mergeAll none (subs.filter fun s => matchMQTTTopic s.filter topic) := by
  have h : ∀ acc : Option Subscription,
      subs.foldl (fun matched s => if matchMQTTTopic s.filter topic then some (mergeOnto matched s) else matched)
        acc = mergeAll acc (subs.filter fun s => matchMQTTTopic s.filter topic) := by
    induction subs with
    | nil => exact fun _ => rfl
    | cons s subs ih =>
      intro acc
      rw [foldl_cons, filter_cons]
      split
      · rw [ih, mergeAll_cons]
      · rw [ih]
  exact h none

/-- What the fast path hands a client: its exact subscription, its merged wildcard ones, or both
merged. -/
@[grind =] def joined (exact wild : Option Subscription) : Option Subscription :=
  match exact, wild with
  | none, w => w
  | some e, none => some e
  | some e, some w => some (e.merge w)

@[grind =] def wildOf (clients : List (Bytes × List Subscription)) (topic c : Bytes) : Option Subscription :=
  (findKey Prod.fst c clients).bind fun wc => matchClientWildcards wc.2 topic

private theorem wildOf_eq (x : TopicsIndex) (topic c : Bytes) :
    wildOf x.snapClients topic c = mergeAll none (x.matching topic c) := by
  unfold wildOf TopicsIndex.matching
  cases findKey Prod.fst c x.snapClients with
  | none => rfl
  | some wc => exact matchClientWildcards_eq wc.2 topic

variable {clients : List (Bytes × List Subscription)}

theorem mem_filterMap_wild (hn : (clients.map Prod.fst).Nodup)
    {topic c : Bytes} {sub : Subscription} {p : Bytes → Bool} : (c, sub) ∈ (clients.filterMap fun wc =>
        if p wc.1 then none else (matchClientWildcards wc.2 topic).map fun sub => (wc.1, sub)) ↔
      p c = false ∧ wildOf clients topic c = some sub := by
  rw [mem_filterMap]
  constructor
  · rintro ⟨wc, hm, hif⟩
    split at hif
    · cases hif
    · rename_i hp
      obtain ⟨w, hw, heq⟩ := Option.map_eq_some_iff.mp hif
      simp only [Prod.mk.injEq] at heq
      obtain ⟨rfl, rfl⟩ := heq
      refine ⟨by simpa using hp, ?_⟩
      rw [wildOf, (findKey_iff_mem hn).mpr ⟨hm, rfl⟩]
      exact hw
  · rintro ⟨hp, hw⟩
    obtain ⟨wc, hf, hm⟩ := Option.bind_eq_some_iff.mp hw
    obtain ⟨hmem, rfl⟩ := findKey_mem hf
    refine ⟨wc, hmem, ?_⟩
    rw [hp, hm]
    rfl

theorem mem_fastClients {subs : List (Bytes × Subscription)}
    (hs : (subs.map Prod.fst).Nodup) (hn : (clients.map Prod.fst).Nodup) {topic c : Bytes}
    {sub : Subscription} : (c, sub) ∈ fastClients subs clients topic ↔
      joined ((findKey Prod.fst c subs).map Prod.snd) (wildOf clients topic c) = some sub := by
  have hexact : ∀ {m}, (findKey Prod.fst c subs).map Prod.snd = some m ↔ (c, m) ∈ subs := by
    intro m
    rw [Option.map_eq_some_iff]
    constructor
    · rintro ⟨⟨c', m'⟩, hk, rfl⟩
      obtain ⟨hmem, hc⟩ := findKey_mem hk
      simp only at hc
      exact hc ▸ hmem
    · intro hm
      exact ⟨(c, m), (findKey_iff_mem hs).mpr ⟨hm, rfl⟩, rfl⟩
  have hwild := @mem_filterMap_wild clients hn topic c sub
  unfold fastClients
  cases hse : subs.isEmpty <;> cases hce : clients.isEmpty
  · simp only [Bool.not_false, Bool.and_false, Bool.false_eq_true, ↓reduceIte, Bool.and_true,
      mem_append, mem_map, Prod.mk.injEq]
    rw [hwild (p := fun c => subs.any fun cs => cs.1 = c), any_eq_isSome_findKey Prod.fst]
    have hfind : ∀ c', (clients.find? fun wc => decide (wc.1 = c')) = findKey Prod.fst c' clients := fun _ => rfl
    cases hf : findKey Prod.fst c subs with
    | none =>
      have hno : ∀ cs ∈ subs, cs.1 ≠ c := (findKey_eq_none_iff).mp hf
      simp only [Option.isSome_none, Option.map_none, joined, true_and]
      constructor
      · rintro (⟨cs, hcs, hc, -⟩ | hw)
        · exact absurd hc (hno cs hcs)
        · exact hw
      · exact fun hw => .inr hw
    | some cs =>
      obtain ⟨hmem, rfl⟩ := findKey_mem hf
      simp only [Option.isSome_some, reduceCtorEq, false_and, or_false, Option.map_some, hfind]
      have huniq : ∀ cs' ∈ subs, cs'.1 = cs.1 → cs' = cs := by
        intro cs' hm' hk
        have h' := (findKey_iff_mem hs).mpr ⟨hm', hk⟩
        rw [hf] at h'
        exact (Option.some.inj h').symm
      have hval : (match findKey Prod.fst cs.1 clients with
          | none => cs.2
          | some wc => match matchClientWildcards wc.2 topic with
            | none => cs.2
            | some wsub => cs.2.merge wsub) = sub ↔
            joined (some cs.2) (wildOf clients topic cs.1) = some sub := by
        unfold wildOf
        cases findKey Prod.fst cs.1 clients with
        | none => simp [joined]
        | some wc => cases hm : matchClientWildcards wc.2 topic <;> simp [joined, hm]
      rw [← hval]
      constructor
      · rintro ⟨cs', hm', hk, hv⟩
        obtain rfl := huniq cs' hm' hk
        exact hv
      · intro hv
        exact ⟨cs, hmem, rfl, hv⟩
  · have hnil : clients = [] := List.isEmpty_iff.mp hce
    subst hnil
    simp only [Bool.not_false, Bool.and_self, ↓reduceIte, ← hexact, wildOf, findKey, List.find?_nil,
      Option.bind_none]
    cases (subs.find? fun e => decide (e.1 = c)).map Prod.snd <;> simp [joined]
  · have hnil : subs = [] := List.isEmpty_iff.mp hse
    subst hnil
    simp only [Bool.not_true, Bool.false_eq_true, ↓reduceIte, Bool.not_false, Bool.and_self]
    have := hwild (p := fun _ => false)
    simp only [Bool.false_eq_true, ↓reduceIte, true_and] at this
    rw [this]
    simp [findKey, joined]
  · have hnil : subs = [] := List.isEmpty_iff.mp hse
    have hnil' : clients = [] := List.isEmpty_iff.mp hce
    subst hnil hnil'
    simp [findKey, joined, wildOf]

theorem filterMap_keys_sublist (f : Bytes × List Subscription → Option (Bytes × Subscription))
    (hf : ∀ wc e, f wc = some e → e.1 = wc.1) :
    ((clients.filterMap f).map Prod.fst).Sublist (clients.map Prod.fst) := by
  induction clients with
  | nil => exact List.Sublist.refl _
  | cons wc clients ih =>
    rw [filterMap_cons]
    cases h : f wc with
    | none => exact ih.cons _
    | some e =>
      simp only [map_cons, hf wc e h]
      exact ih.cons_cons _

theorem fastClients_nodup {subs : List (Bytes × Subscription)}
    (hs : (subs.map Prod.fst).Nodup) (hn : (clients.map Prod.fst).Nodup) (topic : Bytes) :
    ((fastClients subs clients topic).map Prod.fst).Nodup := by
  have hkey : ∀ (p : Bytes → Bool) (wc : Bytes × List Subscription) (e : Bytes × Subscription),
      (if p wc.1 then none else (matchClientWildcards wc.2 topic).map fun sub => (wc.1, sub)) = some e →
        e.1 = wc.1 := by
    intro p wc e h
    split at h
    · cases h
    · obtain ⟨w, -, rfl⟩ := Option.map_eq_some_iff.mp h
      rfl
  unfold fastClients
  split
  · exact hs
  · split
    · exact hn.sublist (filterMap_keys_sublist _ (by simp))
    · split
      · rw [map_append, nodup_append]
        refine ⟨?_, hn.sublist (filterMap_keys_sublist _ (hkey fun c => subs.any fun cs => cs.1 = c)), ?_⟩
        · rw [map_map]
          exact hs
        · intro a ha b hb hab
          subst hab
          rw [map_map] at ha
          obtain ⟨cs, hcs, hca⟩ := mem_map.mp ha
          obtain ⟨e, he, hea⟩ := mem_map.mp hb
          obtain ⟨wc, -, hif⟩ := mem_filterMap.mp he
          have hwc : e.1 = wc.1 := hkey (fun c => subs.any fun cs => cs.1 = c) wc e hif
          have hany : (subs.any fun cs => decide (cs.1 = wc.1)) = true := by
            rw [any_eq_true]
            refine ⟨cs, hcs, ?_⟩
            simp only [Function.comp_apply] at hca
            rw [decide_eq_true_eq, hca, ← hea, hwc]
          rw [hany] at hif
          cases hif
      · exact nodup_nil

/-- Subscriptions as SUBSCRIBE packets bring them: no map of identifiers. -/
def Holdings.Bare (h : Holdings) : Prop := ∀ k m, h.subs.lookup k = some m → m.identifiers = none

namespace IndexSys

variable {s s' : IndexSys} {topic : Bytes}

theorem matching_separate (hr : s.Represents) (hb : s.held.Bare) (c : Bytes) :
    Separate (s.index.matching topic c) := by
  refine ⟨?_, ?_⟩
  · intro m hm
    obtain ⟨⟨f, hf⟩, -⟩ := (mem_matching hr.coherent).mp hm
    exact hb _ _ (held_of_wildcard hr hf)
  · unfold TopicsIndex.matching
    cases hfk : findKey Prod.fst c s.index.snapClients with
    | none => exact List.Pairwise.nil
    | some wc =>
      obtain ⟨hmem, rfl⟩ := findKey_mem hfk
      obtain ⟨o, -, hc, -⟩ := TopicsIndex.snapshot_lists hr.coherent
      rw [hc] at hmem
      obtain ⟨⟨a, inner⟩, he, hif⟩ := mem_filterMap.mp hmem
      simp only at hif
      split at hif
      · cases hif
      · simp only [Option.some.injEq] at hif
        subst hif
        have ha : s.index.wildcardClients.lookup a = some inner :=
          AList.mem_lookup_iff.mpr (o.mem_visit.mp he)
        have hkey : ∀ e ∈ o.visit inner.entries, e.2.filter = e.1 := by
          rintro ⟨f, m⟩ hfm
          have hl : inner.lookup f = some m := AList.mem_lookup_iff.mpr (o.mem_visit.mp hfm)
          have hl₂ : lookup₂ s.index.wildcardClients a f = some m := by
            rw [lookup₂, ha]
            exact hl
          exact (hr.held.plain a f m (held_of_wildcard hr hl₂)).1
        have hnodup := TopicsIndex.visit_keys_nodup o inner
        simp only [Option.map_some, Option.getD_some]
        apply List.Pairwise.filter
        rw [pairwise_map]
        rw [List.Nodup, pairwise_map] at hnodup
        refine hnodup.imp_of_mem fun {e e'} he he' hne => ?_
        rw [hkey e he, hkey e' he']
        exact hne

def exactOf (s : IndexSys) (topic c : Bytes) : Option Subscription :=
  (findKey Prod.fst c (s.index.subsOf topic)).map Prod.snd

theorem exactOf_eq (hr : s.Represents) (ht : TopicName topic) (c : Bytes) :
    s.exactOf topic c = s.held.subs.lookup (.plain c topic) := by
  rw [hr.plain, TopicsIndex.plainSub, isWildcardFilter_of_concrete ht.concrete, if_neg (by decide)]
  rfl

structure Apart (e : Option Subscription) (l : List Subscription) : Prop where
  bare : ∀ m, e = some m → m.identifiers = none
  wild : Separate l
  filters : ∀ m, e = some m → ∀ n ∈ l, m.filter ≠ n.filter

structure Handed (e : Option Subscription) (l : List Subscription) (r : Subscription) : Prop where
  merge : MergeOf (e.toList ++ l) r
  exact : ∀ m, e = some m → r.retainAsPublished = m.retainAsPublished
  first : e = none → ∃ m l', l = m :: l' ∧ r.retainAsPublished = m.retainAsPublished

variable {r : Subscription}

variable {l : List Subscription}

theorem handed_mergeAll {e : Option Subscription} (ha : Apart e l)
    (h : mergeAll e l = some r) : Handed e l r := by
  cases e with
  | none =>
    cases l with
    | nil => cases h
    | cons m l =>
      obtain ⟨hm, hrap⟩ := mergeAll_none ha.wild h
      exact ⟨hm, fun _ he => absurd he (by simp), fun _ => ⟨m, l, rfl, hrap⟩⟩
  | some e =>
    have he : MergeOf [e] e := mergeOf_single (ha.bare e rfl)
    obtain ⟨hm, hrap⟩ := mergeAll_some he ha.wild
      (fun m hm n hn => by rw [mem_singleton.mp hm]; exact ha.filters e rfl n hn) h
    exact ⟨hm, fun m hm => by rw [← Option.some.inj hm]; exact hrap, fun hn => absurd hn (by simp)⟩

theorem handed_joined {e : Option Subscription} (ha : Apart e l)
    (h : joined e (mergeAll none l) = some r) : Handed e l r := by
  cases e with
  | none => exact handed_mergeAll ha h
  | some e =>
    have he : MergeOf [e] e := mergeOf_single (ha.bare e rfl)
    cases l with
    | nil =>
      simp only [mergeAll, foldl_nil, joined, Option.some.injEq] at h
      subst h
      exact ⟨he, fun m hm => by rw [Option.some.inj hm], fun hn => absurd hn (by simp)⟩
    | cons n l =>
      obtain ⟨w, hw⟩ : ∃ w, mergeAll none (n :: l) = some w := by
        rw [← Option.isSome_iff_exists, mergeAll_isSome]
        rfl
      rw [hw, joined, Option.some.injEq] at h
      subst h
      obtain ⟨hm, -⟩ := mergeAll_none ha.wild hw
      have hmerge := he.merge hm fun m hm n hn => by
        rw [mem_singleton.mp hm]
        exact ha.filters e rfl n hn
      exact ⟨hmerge, fun m hm => by rw [← Option.some.inj hm]; rfl, fun hn => absurd hn (by simp)⟩

theorem apart (hr : s.Represents) (hb : s.held.Bare) (ht : TopicName topic) (c : Bytes) :
    Apart (s.exactOf topic c) (s.index.matching topic c) := by
  rw [exactOf_eq hr ht]
  refine ⟨fun m hm => hb _ m hm, matching_separate hr hb c, ?_⟩
  intro m hm n hn heq
  obtain ⟨⟨f, hf⟩, -⟩ := (mem_matching hr.coherent).mp hn
  have hw := hr.coherent.wildcard c f n hf
  rw [← (hr.held.plain c f n (held_of_wildcard hr hf)).1, ← heq, (hr.held.plain c topic m hm).1,
    isWildcardFilter_of_concrete ht.concrete] at hw
  cases hw

structure SamePlain (h h' : Holdings) : Prop where
  plain : ∀ c f, h'.subs.lookup (.plain c f) = h.subs.lookup (.plain c f)
  inline : ∀ k, h'.inline.lookup k = h.inline.lookup k

variable {c : Bytes}

theorem mem_matching_iff (hr : s.Represents) {m : Subscription} : m ∈ s.index.matching topic c ↔
      (∃ f, isWildcardFilter f = true ∧ s.held.subs.lookup (.plain c f) = some m) ∧
        matchMQTTTopic m.filter topic = true := by
  rw [mem_matching hr.coherent]
  refine and_congr_left' ⟨?_, ?_⟩
  · rintro ⟨f, hf⟩
    exact ⟨f, hr.coherent.wildcard c f m hf, held_of_wildcard hr hf⟩
  · rintro ⟨f, hw, hf⟩
    rw [hr.plain, TopicsIndex.plainSub, if_pos hw] at hf
    exact ⟨f, hf⟩

theorem mem_matching_congr (hr : s.Represents) (hr' : s'.Represents) (hsame : SamePlain s.held s'.held)
    (c : Bytes) (m : Subscription) : m ∈ s'.index.matching topic c ↔ m ∈ s.index.matching topic c := by
  rw [mem_matching_iff hr, mem_matching_iff hr']
  simp only [hsame.plain]

/-- The clients whose handed retain flag does not depend on the order of their filters. -/
def RetainAgrees (h : Holdings) (topic c : Bytes) : Prop :=
  h.subs.lookup (.plain c topic) = none → ∀ f f' m m', h.subs.lookup (.plain c f) = some m →
    h.subs.lookup (.plain c f') = some m' → Matches f topic → Matches f' topic →
      m.retainAsPublished = m'.retainAsPublished

/-- Every subscription that `Matches` is among the matching ones. -/
theorem matches_of_mem_matching (hr : s.Represents) (ht : TopicName topic) {m : Subscription}
    (hm : m ∈ s.index.matching topic c) :
    s.held.subs.lookup (.plain c m.filter) = some m ∧ Matches m.filter topic := by
  obtain ⟨⟨f, -, hl⟩, hmatch⟩ := (mem_matching_iff hr).mp hm
  obtain ⟨rfl, -, hv⟩ := hr.held.plain c f m hl
  exact ⟨hl, (matchMQTTTopic_iff (wholeLevels_of_valid hv) ht.concrete).mp hmatch⟩

theorem mem_matching_of_matches (hr : s.Represents) (ht : TopicName topic) {f : Bytes} {m : Subscription}
    (he : s.held.subs.lookup (.plain c topic) = none)
    (hl : s.held.subs.lookup (.plain c f) = some m) (hm : Matches f topic) :
    m ∈ s.index.matching topic c := by
  obtain ⟨hf, -, hv⟩ := hr.held.plain c f m hl
  have hw : isWildcardFilter f = true := by
    by_contra hn
    rw [(matches_exact_iff (by simpa using hn)).mp hm] at hl
    rw [he] at hl
    cases hl
  rw [mem_matching_iff hr]
  refine ⟨⟨f, hw, hl⟩, ?_⟩
  rw [hf]
  exact (matchMQTTTopic_iff (wholeLevels_of_valid hv) ht.concrete).mpr hm

theorem handed_view (hr : s.Represents) (hr' : s'.Represents) (ht : TopicName topic)
    (hsame : SamePlain s.held s'.held) {r' : Subscription}
    (h : Handed (s.exactOf topic c) (s.index.matching topic c) r)
    (h' : Handed (s'.exactOf topic c) (s'.index.matching topic c) r')
    (hrap : RetainAgrees s.held topic c) : r.view = r'.view := by
  have hex : s'.exactOf topic c = s.exactOf topic c := by
    rw [exactOf_eq hr ht, exactOf_eq hr' ht, hsame.plain]
  rw [hex] at h'
  obtain ⟨hq, hn, hi⟩ := h.merge.unique h'.merge fun m => by
    rw [mem_append, mem_append, mem_matching_congr hr hr' hsame]
  have hretain : r.retainAsPublished = r'.retainAsPublished := by
    cases he : s.exactOf topic c with
    | some e => rw [h.exact e he, h'.exact e he]
    | none =>
      obtain ⟨m, l, hm, hrm⟩ := h.first he
      obtain ⟨m', l', hm', hrm'⟩ := h'.first he
      have hin : m ∈ s.index.matching topic c := hm ▸ mem_cons_self
      have hin' : m' ∈ s.index.matching topic c :=
        (mem_matching_congr hr hr' hsame c m').mp (hm' ▸ mem_cons_self)
      obtain ⟨hl, hmt⟩ := matches_of_mem_matching hr ht hin
      obtain ⟨hl', hmt'⟩ := matches_of_mem_matching hr ht hin'
      rw [hrm, hrm']
      rw [exactOf_eq hr ht] at he
      exact hrap he _ _ m m' hl hl' hmt hmt'
  unfold Subscription.view
  rw [hq, hn, hi, hretain]

@[grind =] def inlineMatching (s : IndexSys) (topic : Bytes) : List InlineSubscription :=
  s.index.inlineOf topic ++ s.index.snapInline.filter fun inl => matchMQTTTopic inl.sub.filter topic

variable {i : InlineSubscription}

section

variable (hr : s.Represents)
include hr

theorem mem_snapInline :
    i ∈ s.index.snapInline ↔ ∃ f id, isWildcardFilter f = true ∧ s.held.inline.lookup (f, id) = some i := by
  obtain ⟨o, hi, -, -⟩ := TopicsIndex.snapshot_lists hr.coherent
  rw [hi, mem_flatMap]
  constructor
  · rintro ⟨⟨f, byID⟩, hf, hm⟩
    obtain ⟨id, hid⟩ := (TopicsIndex.mem_visit_map).mp hm
    have ha : s.index.wildcardInline.lookup f = some byID :=
      AList.mem_lookup_iff.mpr (o.mem_visit.mp hf)
    have hl : lookup₂ s.index.wildcardInline f id = some i := by
      rw [lookup₂, ha]
      exact hid
    have hw := hr.coherent.wildcardInline f id i hl
    refine ⟨f, id, hw, ?_⟩
    rw [hr.inline, TopicsIndex.inlineSub, if_pos hw, hl]
  · rintro ⟨f, id, hw, hl⟩
    rw [hr.inline, TopicsIndex.inlineSub, if_pos hw] at hl
    obtain ⟨byID, ha, hid⟩ := Option.bind_eq_some_iff.mp hl
    exact ⟨⟨f, byID⟩, o.mem_visit.mpr (AList.mem_lookup_iff.mp ha), (TopicsIndex.mem_visit_map).mpr ⟨id, hid⟩⟩

theorem mem_inlineOf {f : Bytes} (hf : isWildcardFilter f = false) :
    i ∈ s.index.inlineOf f ↔ s.held.inline.lookup (f, i.sub.identifier) = some i := by
  rw [hr.inline, TopicsIndex.inlineSub, hf, if_neg (by decide), findKey_iff_mem (hr.coherent.inlineNodup f)]
  simp

theorem mem_inlineMatching (ht : TopicName topic) :
    i ∈ s.inlineMatching topic ↔ ∃ f id, s.held.inline.lookup (f, id) = some i ∧ Matches f topic := by
  have hwt := isWildcardFilter_of_concrete ht.concrete
  rw [inlineMatching, mem_append, mem_inlineOf hr hwt, mem_filter, mem_snapInline hr]
  constructor
  · rintro (hex | ⟨⟨f, id, hw, hl⟩, hm⟩)
    · exact ⟨topic, _, hex, (matches_exact_iff hwt).mpr rfl⟩
    · obtain ⟨rfl, -, hv⟩ := hr.held.inline f id i hl
      exact ⟨_, id, hl, (matchMQTTTopic_iff (wholeLevels_of_valid hv) ht.concrete).mp hm⟩
  · rintro ⟨f, id, hl, hm⟩
    obtain ⟨rfl, rfl, hv⟩ := hr.held.inline f id i hl
    cases hw : isWildcardFilter i.sub.filter with
    | false =>
      rw [(matches_exact_iff hw).mp hm] at hl
      exact .inl hl
    | true =>
      exact .inr ⟨⟨_, _, hw, hl⟩, (matchMQTTTopic_iff (wholeLevels_of_valid hv) ht.concrete).mpr hm⟩

theorem inlineMatching_nodup (ht : TopicName topic) : (s.inlineMatching topic).Nodup := by
  have hwt := isWildcardFilter_of_concrete ht.concrete
  rw [inlineMatching, nodup_append]
  refine ⟨List.Nodup.of_map _ (hr.coherent.inlineNodup topic), List.Nodup.filter _ ?_, ?_⟩
  · obtain ⟨o, hi, -, -⟩ := TopicsIndex.snapshot_lists hr.coherent
    have hkeyed : ∀ e ∈ o.visit s.index.wildcardInline.entries, ∀ b ∈ o.visit e.2.entries,
        b.2.sub.filter = e.1 ∧ b.2.sub.identifier = b.1 := by
      rintro ⟨f, byID⟩ hf ⟨id, i⟩ hid
      have ha : s.index.wildcardInline.lookup f = some byID :=
        AList.mem_lookup_iff.mpr (o.mem_visit.mp hf)
      have hb : byID.lookup id = some i := AList.mem_lookup_iff.mpr (o.mem_visit.mp hid)
      have hl : lookup₂ s.index.wildcardInline f id = some i := by
        rw [lookup₂, ha]
        exact hb
      have hheld : s.held.inline.lookup (f, id) = some i := by
        rw [hr.inline, TopicsIndex.inlineSub, if_pos (hr.coherent.wildcardInline f id i hl), hl]
      obtain ⟨h1, h2, -⟩ := hr.held.inline f id i hheld
      exact ⟨h1, h2⟩
    rw [hi, nodup_flatMap]
    constructor
    · intro e he
      have hn := TopicsIndex.visit_keys_nodup o e.2
      rw [List.Nodup, pairwise_map] at hn ⊢
      refine hn.imp_of_mem fun {b b'} hb hb' hne heq => hne ?_
      rw [← (hkeyed e he b hb).2, ← (hkeyed e he b' hb').2, heq]
    · have hn := TopicsIndex.visit_keys_nodup o s.index.wildcardInline
      rw [List.Nodup, pairwise_map] at hn
      refine hn.imp_of_mem fun {e e'} he he' hne => ?_
      intro i hin hin'
      obtain ⟨b, hb, rfl⟩ := mem_map.mp hin
      obtain ⟨b', hb', heq⟩ := mem_map.mp hin'
      refine hne ?_
      rw [← (hkeyed e he b hb).1, ← (hkeyed e' he' b' hb').1, heq]
  · intro a ha b hb hab
    subst hab
    have hl := (mem_inlineOf hr hwt).mp ha
    obtain ⟨f, id, hw, hl'⟩ := (mem_snapInline hr).mp (mem_filter.mp hb).1
    have h1 := (hr.held.inline topic _ a hl).1
    have h2 := (hr.held.inline f id a hl').1
    rw [← h2, h1, hwt] at hw
    cases hw

private theorem inlineMatching_perm (hr' : s'.Represents) (ht : TopicName topic)
    (hsame : SamePlain s.held s'.held) : (s.inlineMatching topic).Perm (s'.inlineMatching topic) := by
  rw [perm_ext_iff_of_nodup (inlineMatching_nodup hr ht) (inlineMatching_nodup hr' ht)]
  intro i
  rw [mem_inlineMatching hr ht, mem_inlineMatching hr' ht]
  simp only [hsame.inline]

end

theorem foldl_gatherInline (topic : Bytes) (l : List InlineSubscription) (m : FMap ℤ InlineSubscription) :
    l.foldl (gatherInline topic) m =
      (l.filter fun inl => matchMQTTTopic inl.sub.filter topic).foldl
        (fun m inl => m.insert inl.sub.identifier inl) m := by
  induction l generalizing m with
  | nil => rfl
  | cons i l ih =>
    rw [foldl_cons, ih, filter_cons, gatherInline]
    split
    · rfl
    · rfl

/-- `Subscribers` keeps one handler for each identifier. -/
theorem subscribers_inline (hr : s.Represents) (ht : topic ≠ []) :
    (s.index.subscribers topic).inlineSubscriptions =
      (s.inlineMatching topic).foldl (fun (m : FMap ℤ InlineSubscription) i => m.insert i.sub.identifier i) ∅ := by
  rw [inlineMatching, foldl_append, ← foldl_gatherInline]
  unfold TopicsIndex.subscribers TopicsIndex.snapInline TopicsIndex.inlineOf
  rw [TopicsIndex.getExact_of_fresh hr.coherent.fresh]
  have hne : topic.isEmpty = false := by simpa using ht
  rw [hne]
  cases s.index.wildcardSnap <;> rfl

private theorem inline_entries_keyed (l : List InlineSubscription) (m : FMap ℤ InlineSubscription)
    (hm : ∀ k i, m.lookup k = some i → i.sub.identifier = k) (k : ℤ) (i : InlineSubscription)
    (h : (l.foldl (fun (m : FMap ℤ InlineSubscription) i => m.insert i.sub.identifier i) m).lookup k = some i) :
    i.sub.identifier = k := by
  induction l generalizing m with
  | nil => exact hm k i h
  | cons a l ih =>
    refine ih (m.insert a.sub.identifier a) ?_ h
    intro k' i' hl
    rw [lookup_insert_if] at hl
    split at hl
    · rename_i hk
      rw [← Option.some.inj hl, hk]
    · exact hm k' i' hl

theorem inline_entries_perm {l : List InlineSubscription} (hn : (l.map fun i => i.sub.identifier).Nodup) :
    ((l.foldl (fun (m : FMap ℤ InlineSubscription) i => m.insert i.sub.identifier i) ∅).entries.map
      (·.2)).Perm l := by
  set m := l.foldl (fun (m : FMap ℤ InlineSubscription) i => m.insert i.sub.identifier i) ∅ with hm
  have hlook : ∀ k i, m.lookup k = some i ↔ i ∈ l ∧ i.sub.identifier = k := by
    intro k i
    have hfold := lookup_foldl_insert (fun i : InlineSubscription => i.sub.identifier) (fun i => i) hn ∅ k
    rw [hm, hfold, ← findKey_iff_mem hn]
    cases findKey (fun i : InlineSubscription => i.sub.identifier) k l <;> simp
  have hnod : (m.entries.map (·.2)).Nodup := by
    have hk := m.nodupKeys
    rw [List.NodupKeys, List.keys, List.Nodup, pairwise_map] at hk
    rw [List.Nodup, pairwise_map]
    refine hk.imp_of_mem fun {e e'} he he' hne heq => hne ?_
    have h1 := ((hlook e.1 e.2).mp (AList.mem_lookup_iff.mpr he)).2
    have h2 := ((hlook e'.1 e'.2).mp (AList.mem_lookup_iff.mpr he')).2
    rw [← h1, ← h2, heq]
  rw [perm_ext_iff_of_nodup hnod (List.Nodup.of_map _ hn)]
  intro i
  rw [mem_map]
  constructor
  · rintro ⟨⟨k, i'⟩, he, rfl⟩
    exact ((hlook k i').mp (AList.mem_lookup_iff.mpr he)).1
  · intro hi
    exact ⟨⟨i.sub.identifier, i⟩, AList.mem_lookup_iff.mp ((hlook _ i).mpr ⟨hi, rfl⟩), rfl⟩

/-- The inline subscriptions that match have identifiers of their own. -/
def InlineDistinct (h : Holdings) (topic : Bytes) : Prop :=
  ∀ f f' id i i', h.inline.lookup (f, id) = some i → h.inline.lookup (f', id) = some i' →
    Matches f topic → Matches f' topic → f = f'

theorem inlineDistinct_iff (hr : s.Represents) (ht : TopicName topic) :
    InlineDistinct s.held topic ↔ ((s.inlineMatching topic).map fun i => i.sub.identifier).Nodup := by
  constructor
  · intro h
    refine List.Nodup.map_on ?_ (inlineMatching_nodup hr ht)
    intro i hi i' hi' hid
    obtain ⟨f, id, hl, hm⟩ := (mem_inlineMatching hr ht).mp hi
    obtain ⟨f', id', hl', hm'⟩ := (mem_inlineMatching hr ht).mp hi'
    obtain ⟨-, rfl, -⟩ := hr.held.inline f id i hl
    obtain ⟨-, rfl, -⟩ := hr.held.inline f' id' i' hl'
    rw [← hid] at hl'
    obtain rfl := h f f' _ i i' hl hl' hm hm'
    rw [hl] at hl'
    exact Option.some.inj hl'
  · intro h f f' id i i' hl hl' hm hm'
    obtain ⟨hf, hid, -⟩ := hr.held.inline f id i hl
    obtain ⟨hf', hid', -⟩ := hr.held.inline f' id i' hl'
    have hi := (mem_inlineMatching hr ht).mpr ⟨f, id, hl, hm⟩
    have hi' := (mem_inlineMatching hr ht).mpr ⟨f', id, hl', hm'⟩
    have heq := inj_on_of_nodup_map h hi hi' (by rw [hid, hid'])
    rw [← hf, ← hf', heq]

theorem inline_perm_iff (hr : s.Represents) (hr' : s'.Represents) (ht : TopicName topic)
    (hsame : SamePlain s.held s'.held) (o : MapOrder) : (s.inlineMatching topic).Perm
        ((o.visit (s'.index.subscribers topic).inlineSubscriptions.entries).map (·.2)) ↔
      InlineDistinct s.held topic := by
  rw [inlineDistinct_iff hr ht]
  have hperm := inlineMatching_perm hr hr' ht hsame
  have hvisit := (o.perm (s'.index.subscribers topic).inlineSubscriptions.entries).map
    (fun e : (Σ _ : ℤ, InlineSubscription) => e.2)
  have hinl := subscribers_inline hr' ht.nonempty
  constructor
  · intro h
    have h' := h.trans hvisit
    rw [hinl] at h'
    rw [(h'.map fun i => i.sub.identifier).nodup_iff, map_map]
    set m := (s'.inlineMatching topic).foldl
      (fun (m : FMap ℤ InlineSubscription) i => m.insert i.sub.identifier i) ∅ with hm
    have hkeys : m.entries.map ((fun i => i.sub.identifier) ∘ fun e : (Σ _ : ℤ, InlineSubscription) => e.2) =
        m.entries.map Sigma.fst := by
      apply map_congr_left
      rintro ⟨k, i⟩ he
      exact inline_entries_keyed (s'.inlineMatching topic) ∅ (by simp) k i (AList.mem_lookup_iff.mpr he)
    rw [hkeys]
    exact m.nodupKeys
  · intro h
    rw [hinl] at hvisit ⊢
    have hn : ((s'.inlineMatching topic).map fun i => i.sub.identifier).Nodup :=
      (hperm.map fun i => i.sub.identifier).nodup_iff.mp h
    exact hperm.trans ((inline_entries_perm hn).symm.trans hvisit.symm)

theorem mem_fastPath (hr : s.Represents) {inline : Bool} :
    (c, r) ∈ (s.index.fastPath topic inline).clients ↔
      joined (s.exactOf topic c) (mergeAll none (s.index.matching topic c)) = some r := by
  rw [← wildOf_eq]
  simp only [TopicsIndex.fastPath]
  rw [TopicsIndex.getExact_of_fresh hr.coherent.fresh]
  exact mem_fastClients (hr.coherent.subsNodup topic) (TopicsIndex.snapClients_nodup hr.coherent)

private theorem fastPath_nodup (hr : s.Represents) (inline : Bool) :
    ((s.index.fastPath topic inline).clients.map Prod.fst).Nodup := by
  simp only [TopicsIndex.fastPath]
  rw [TopicsIndex.getExact_of_fresh hr.coherent.fresh]
  exact fastClients_nodup (hr.coherent.subsNodup topic) (TopicsIndex.snapClients_nodup hr.coherent) topic

def NoGroup (h : Holdings) (topic : Bytes) : Prop :=
  ∀ c g p m, h.subs.lookup (.shared c g p) = some m → ¬ Matches p topic

private theorem shared_empty (hr : s.Represents) (ht : TopicName topic) (hno : NoGroup s.held topic) :
    (s.index.subscribers topic).shared = ∅ := by
  have hnil : placed topic s.index.snapShared = [] := by
    rw [eq_nil_iff_forall_not_mem]
    rintro ⟨k, c, m⟩ hm
    obtain ⟨-, g, p, hl, hp⟩ := (mem_placed hr ht).mp hm
    exact hno c g p m hl hp
  rw [subscribers_shared ht.nonempty, foldl_gatherShared, hnil]
  rfl

theorem generalPath_eq (hr : s.Represents) (ht : TopicName topic) (hno : NoGroup s.held topic) (o : MapOrder)
    (inline : Bool) : s.index.generalPath o topic inline =
      { inline := if inline then
          (o.visit (s.index.subscribers topic).inlineSubscriptions.entries).map (·.2) else []
        clients := (o.visit (s.index.subscribers topic).subscriptions.entries).map fun e => (e.1, e.2) } := by
  have hsz : ¬ (size (s.index.subscribers topic).shared > 0) := by
    rw [shared_empty hr ht hno]
    decide
  simp only [TopicsIndex.generalPath, if_neg hsz]

theorem mem_generalPath (hr : s.Represents) (ht : TopicName topic) (hno : NoGroup s.held topic) {o : MapOrder}
    {inline : Bool} : (c, r) ∈ (s.index.generalPath o topic inline).clients ↔
      mergeAll (s.exactOf topic c) (s.index.matching topic c) = some r := by
  rw [generalPath_eq hr ht hno, exactOf, ← lookup_subscriptions hr.coherent ht.nonempty, mem_map]
  constructor
  · rintro ⟨⟨c', r'⟩, he, heq⟩
    simp only [Prod.mk.injEq] at heq
    obtain ⟨rfl, rfl⟩ := heq
    exact AList.mem_lookup_iff.mpr (o.mem_visit.mp he)
  · intro hl
    exact ⟨⟨c, r⟩, o.mem_visit.mpr (AList.mem_lookup_iff.mp hl), rfl⟩

theorem generalPath_nodup (hr : s.Represents) (ht : TopicName topic) (hno : NoGroup s.held topic) (o : MapOrder)
    (inline : Bool) : ((s.index.generalPath o topic inline).clients.map Prod.fst).Nodup := by
  rw [generalPath_eq hr ht hno, map_map]
  exact TopicsIndex.visit_keys_nodup o _

theorem joined_isSome (e : Option Subscription) (l : List Subscription) :
    (joined e (mergeAll none l)).isSome = (mergeAll e l).isSome := by
  rw [mergeAll_isSome]
  cases e with
  | none =>
    rw [joined, mergeAll_isSome]
  | some e => cases mergeAll none l <;> rfl

variable {registered : Bytes → Bool}

theorem mem_views {l : List (Bytes × Subscription)} {v : SubscriptionView} :
    (c, v) ∈ ((l.filter fun e => registered e.1).map fun e => (e.1, e.2.view)) ↔
      registered c = true ∧ ∃ r, (c, r) ∈ l ∧ r.view = v := by
  rw [mem_map]
  constructor
  · rintro ⟨⟨c', r⟩, hm, heq⟩
    simp only [Prod.mk.injEq] at heq
    obtain ⟨rfl, rfl⟩ := heq
    obtain ⟨hin, hreg⟩ := mem_filter.mp hm
    exact ⟨hreg, r, hin, rfl⟩
  · rintro ⟨hreg, r, hin, rfl⟩
    exact ⟨(c, r), mem_filter.mpr ⟨hin, hreg⟩, rfl⟩

theorem views_nodup {l : List (Bytes × Subscription)} (hn : (l.map Prod.fst).Nodup) (registered : Bytes → Bool) :
    ((l.filter fun e => registered e.1).map fun e => (e.1, e.2.view)).Nodup := by
  have hk : ((l.filter fun e => registered e.1).map Prod.fst).Nodup :=
    hn.sublist (filter_sublist.map Prod.fst)
  refine List.Nodup.of_map Prod.fst ?_
  rw [map_map]
  exact hk

theorem clients_perm (hr : s.Represents) (hr' : s'.Represents) (hb : s.held.Bare) (hb' : s'.held.Bare)
    (ht : TopicName topic) (hsame : SamePlain s.held s'.held) (hno : NoGroup s'.held topic)
    (o : MapOrder) (inline : Bool) (hrap : ∀ c, registered c = true → RetainAgrees s.held topic c) :
    (((s.index.fastPath topic inline).clients.filter fun e => registered e.1).map
        fun e => (e.1, e.2.view)).Perm
      (((s'.index.generalPath o topic inline).clients.filter fun e => registered e.1).map
        fun e => (e.1, e.2.view)) := by
  rw [perm_ext_iff_of_nodup (views_nodup (fastPath_nodup hr inline) _)
    (views_nodup (generalPath_nodup hr' ht hno o inline) _)]
  rintro ⟨c, v⟩
  rw [mem_views, mem_views]
  simp only [mem_fastPath hr, mem_generalPath hr' ht hno]
  have hex : s'.exactOf topic c = s.exactOf topic c := by
    rw [exactOf_eq hr ht, exactOf_eq hr' ht, hsame.plain]
  have hsome : (joined (s.exactOf topic c) (mergeAll none (s.index.matching topic c))).isSome =
      (mergeAll (s'.exactOf topic c) (s'.index.matching topic c)).isSome := by
    rw [joined_isSome, mergeAll_isSome, mergeAll_isSome, hex]
    congr 2
    rw [Bool.eq_iff_iff, List.isEmpty_iff, List.isEmpty_iff, eq_nil_iff_forall_not_mem,
      eq_nil_iff_forall_not_mem]
    simp only [mem_matching_congr hr hr' hsame]
  constructor
  · rintro ⟨hreg, r, hj, rfl⟩
    rw [hj] at hsome
    obtain ⟨r', hr'm⟩ := Option.isSome_iff_exists.mp hsome.symm
    exact ⟨hreg, r', hr'm, (handed_view hr hr' ht hsame (handed_joined (apart hr hb ht c) hj)
      (handed_mergeAll (apart hr' hb' ht c) hr'm) (hrap c hreg)).symm⟩
  · rintro ⟨hreg, r', hm, rfl⟩
    rw [hm] at hsome
    obtain ⟨r, hj⟩ := Option.isSome_iff_exists.mp hsome
    exact ⟨hreg, r, hj, handed_view hr hr' ht hsame (handed_joined (apart hr hb ht c) hj)
      (handed_mergeAll (apart hr' hb' ht c) hm) (hrap c hreg)⟩

/-- A call as the server makes it: a subscription of a packet has no map of identifiers. -/
def MeetsBare (s : IndexSys) (c : Call) : Prop :=
  s.Meets c ∧ match c with
    | .subscribe _ _ sub => sub.identifiers = none
    | _ => True

instance (s : IndexSys) : (c : Call) → Decidable (s.MeetsBare c)
  | .subscribe _ _ _ => inferInstanceAs (Decidable (_ ∧ _ = _))
  | .unsubscribe _ _ _ => inferInstanceAs (Decidable (_ ∧ True))
  | .inlineSubscribe _ _ => inferInstanceAs (Decidable (_ ∧ True))
  | .inlineUnsubscribe _ _ _ => inferInstanceAs (Decidable (_ ∧ True))

def Reached (s : IndexSys) : Prop := ∃ calls, Along step MeetsBare start calls ∧ run step start calls = s

private theorem bare_step {c : Call} (hb : s.held.Bare) (hc : s.MeetsBare c) : (s.step c).held.Bare := by
  cases c with
  | subscribe o client sub =>
    intro k m hl
    simp only [step, Holdings.step, lookup_insert_if] at hl
    split at hl
    · rw [← Option.some.inj hl]
      exact hc.2
    · exact hb k m hl
  | unsubscribe o filter client => exact fun k m hl => hb k m (lookup_of_erase hl)
  | inlineSubscribe o inl => exact hb
  | inlineUnsubscribe o id filter => exact hb

theorem Reached.represents (h : Reached s) : s.Represents ∧ s.held.Bare := by
  obtain ⟨calls, ha, rfl⟩ := h
  refine run_invariant (P := fun s => s.Represents ∧ s.held.Bare)
    (fun s c hs hc => ⟨step_represents hs.1 hc.1, bare_step hs.2 hc⟩) ⟨start_represents, ?_⟩ ha
  intro k m hl
  cases hl

theorem Reached.step (h : Reached s) {c : Call} (hc : s.MeetsBare c) : Reached (s.step c) := by
  obtain ⟨calls, ha, rfl⟩ := h
  exact ⟨calls ++ [c], along_concat ha hc, run_concat start calls c⟩

def NoShared (h : Holdings) : Prop := ∀ c g p, h.subs.lookup (.shared c g p) = none

theorem snapShared_isEmpty_iff (hr : s.Represents) : s.index.snapShared.isEmpty = true ↔ NoShared s.held := by
  rw [List.isEmpty_iff, eq_nil_iff_forall_not_mem]
  constructor
  · intro h c g p
    by_contra hne
    obtain ⟨m, hm⟩ := Option.ne_none_iff_exists'.mp hne
    obtain ⟨members, hin, -⟩ := (shared_snapshot hr p c m).mpr ⟨g, hm⟩
    exact h _ hin
  · rintro h ⟨plain, members⟩ hin
    obtain ⟨o, -, -, hsh⟩ := TopicsIndex.snapshot_lists hr.coherent
    have hne : size members ≠ 0 := by
      rw [hsh] at hin
      obtain ⟨e, -, hif⟩ := mem_filterMap.mp hin
      split at hif
      · cases hif
      · rename_i hz
        obtain ⟨p, -, heq⟩ := Option.map_eq_some_iff.mp hif
        rw [← (Prod.mk.inj heq).2]
        exact hz
    obtain ⟨⟨c, m⟩, he⟩ := exists_mem_of_length_pos (Nat.pos_of_ne_zero hne)
    obtain ⟨g, hg⟩ := (shared_snapshot hr plain c m).mp ⟨members, hin, AList.mem_lookup_iff.mpr he⟩
    rw [h] at hg
    cases hg

/-- A shared filter whose plain filter is not the topic. -/
def elsewhere (topic : Bytes) : Bytes :=
  if topic = ascii "a" then ascii "$share/g/b" else ascii "$share/g/a"

theorem elsewhere_spec (topic : Bytes) :
    isValidFilter (elsewhere topic) false = true ∧ isSharedFilter (elsewhere topic) = true ∧
      0 ∉ (splitShared (elsewhere topic)).1 ∧ ¬ Matches (splitShared (elsewhere topic)).2 topic := by
  unfold elsewhere
  split
  · rename_i h
    refine ⟨by decide, by decide, by decide, ?_⟩
    rw [matches_exact_iff (by decide), h]
    decide
  · rename_i h
    refine ⟨by decide, by decide, by decide, ?_⟩
    rw [matches_exact_iff (by decide)]
    exact fun heq => h (heq.symm.trans (by decide))

@[grind =] def withShared (s : IndexSys) (o : MapOrder) (topic : Bytes) : IndexSys :=
  s.step (.subscribe o (ascii "x") (bare (elsewhere topic)))

theorem withShared_lookup (o : MapOrder) (topic : Bytes) (k : Key) :
    (s.withShared o topic).held.subs.lookup k =
      if k = .shared (ascii "x") (splitShared (elsewhere topic)).1 (splitShared (elsewhere topic)).2
      then some (bare (elsewhere topic)) else s.held.subs.lookup k := by
  have hk : keyFor (ascii "x") (bare (elsewhere topic)).filter =
      .shared (ascii "x") (splitShared (elsewhere topic)).1 (splitShared (elsewhere topic)).2 :=
    keyFor_shared (elsewhere_spec topic).2.1
  simp only [withShared, step, Holdings.step, lookup_insert_if, hk]

theorem withShared_reached (hs : Reached s) (hno : NoShared s.held) (o : MapOrder) (topic : Bytes) :
    Reached (s.withShared o topic) := by
  obtain ⟨hv, hsh, hg, -⟩ := elsewhere_spec topic
  refine hs.step ⟨⟨hv, fun _ => ⟨hg, ?_⟩⟩, rfl⟩
  rintro ⟨k, m⟩ he hp -
  have hl : s.held.subs.lookup k = some m := AList.mem_lookup_iff.mpr he
  have hkey : keyFor (ascii "x") (bare (elsewhere topic)).filter =
      .shared (ascii "x") (splitShared (elsewhere topic)).1 (splitShared (elsewhere topic)).2 :=
    keyFor_shared hsh
  rw [hkey] at hp
  cases k with
  | plain c f => cases hp
  | shared c g p =>
    rw [hno] at hl
    cases hl

theorem withShared_same (o : MapOrder) (topic : Bytes) : SamePlain s.held (s.withShared o topic).held := by
  refine ⟨?_, fun _ => rfl⟩
  intro c f
  rw [withShared_lookup]
  simp

theorem withShared_noGroup (hno : NoShared s.held) (o : MapOrder) (topic : Bytes) :
    NoGroup (s.withShared o topic).held topic := by
  intro c g p m hl
  rw [withShared_lookup] at hl
  split at hl
  · rename_i hk
    cases hk
    exact (elsewhere_spec topic).2.2.2
  · rw [hno] at hl
    cases hl

def startingAt (j : ℕ) : MapOrder := ⟨fun l => l.rotate j, fun l => rotate_perm l j⟩

theorem exists_first (hs : Reached s) (hno : NoShared s.held) {n : Subscription}
    (hn : n ∈ s.index.matching topic c) : ∃ o l, (s.withShared o topic).index.matching topic c = n :: l := by
  obtain ⟨⟨f, hf⟩, hmatch⟩ := (mem_matching hs.represents.1.coherent).mp hn
  obtain ⟨inner, ha, hin⟩ := Option.bind_eq_some_iff.mp hf
  obtain ⟨j, hj, hget⟩ := getElem_of_mem (AList.mem_lookup_iff.mp hin)
  refine ⟨startingAt j, ?_⟩
  have hrot : inner.entries.rotate j = ⟨f, n⟩ :: (inner.entries.drop (j + 1) ++ inner.entries.take j) := by
    rw [rotate_eq_drop_append_take hj.le, drop_eq_getElem_cons hj, hget]
    rfl
  have hsh := (elsewhere_spec topic).2.1
  have hclients : (s.withShared (startingAt j) topic).index.wildcardClients = s.index.wildcardClients := by
    simp only [withShared, step, TopicsIndex.call, TopicsIndex.subscribe, bare, hsh, ↓reduceIte]
    rfl
  have hsnap : (s.withShared (startingAt j) topic).index.wildcardSnap =
      buildSnapshot (startingAt j) (s.withShared (startingAt j) topic).index := by
    simp only [withShared, step, TopicsIndex.call, TopicsIndex.subscribe, bare, hsh, ↓reduceIte]
    rfl
  obtain ⟨-, hlist, -⟩ := TopicsIndex.lists_of_snapshot hsnap
  have hcoh := (withShared_reached hs hno (startingAt j) topic).represents.1.coherent
  have hfind : findKey Prod.fst c (s.withShared (startingAt j) topic).index.snapClients =
      some (c, (inner.entries.rotate j).map (·.2)) := by
    refine (findKey_iff_mem (TopicsIndex.snapClients_nodup hcoh)).mpr ⟨?_, rfl⟩
    rw [hlist, hclients]
    refine mem_filterMap.mpr ⟨⟨c, inner⟩, ?_, ?_⟩
    · exact ((startingAt j).perm _).mem_iff.mpr (AList.mem_lookup_iff.mp ha)
    · simp only [TopicsIndex.size_ne_zero_of_lookup hin, ↓reduceIte]
      rfl
  unfold TopicsIndex.matching
  rw [hfind, hrot]
  simp only [Option.map_some, Option.getD_some, map_cons, filter_cons, hmatch, ↓reduceIte]
  exact ⟨_, rfl⟩

theorem deliver_fast (hr : s.Represents) (hno : NoShared s.held) (ht : TopicName topic) (o : MapOrder)
    (registered : Bytes → Bool) : s.index.deliverToSubscribers o registered topic true =
      { inline := s.inlineMatching topic
        clients := (s.index.fastPath topic true).clients.filter fun e => registered e.1 } := by
  have hne : topic.isEmpty = false := by simpa using ht.nonempty
  simp only [TopicsIndex.deliverToSubscribers, hne, (snapShared_isEmpty_iff hr).mpr hno, ↓reduceIte,
    Bool.false_eq_true]
  simp only [TopicsIndex.fastPath, ↓reduceIte]
  rw [TopicsIndex.getExact_of_fresh hr.coherent.fresh]
  rfl

theorem deliver_general (hr : s.Represents) (hsome : ¬ NoShared s.held) (hgroup : NoGroup s.held topic)
    (ht : TopicName topic) (o : MapOrder) (registered : Bytes → Bool) :
    s.index.deliverToSubscribers o registered topic true =
      { inline := (o.visit (s.index.subscribers topic).inlineSubscriptions.entries).map (·.2)
        clients := (s.index.generalPath o topic true).clients.filter fun e => registered e.1 } := by
  have hne : topic.isEmpty = false := by simpa using ht.nonempty
  have hsnap : s.index.snapShared.isEmpty = false := by
    rw [← Bool.not_eq_true, snapShared_isEmpty_iff hr]
    exact hsome
  simp only [TopicsIndex.deliverToSubscribers, hne, hsnap, Bool.false_eq_true, ↓reduceIte]
  rw [generalPath_eq hr ht hgroup]
  rfl

theorem withShared_shared (o : MapOrder) (topic : Bytes) : ¬ NoShared (s.withShared o topic).held := by
  intro hnone
  obtain ⟨c, g, p, m, hl⟩ : ∃ c g p m, (s.withShared o topic).held.subs.lookup (.shared c g p) = some m :=
    ⟨ascii "x", _, _, bare (elsewhere topic), by rw [withShared_lookup, if_pos rfl]⟩
  rw [hnone] at hl
  cases hl

/-- The retain flag a client is handed on the general path, in a state that visits `n` first. -/
theorem general_retain {n r' : Subscription} {o : MapOrder}
    (hs : Reached s) (hno : NoShared s.held) (ht : TopicName topic)
    (hex : s.held.subs.lookup (.plain c topic) = none)
    (hfirst : (s.withShared o topic).index.matching topic c = n :: l)
    (hg : (c, r') ∈ ((s.withShared o topic).index.generalPath o topic true).clients) :
    r'.retainAsPublished = n.retainAsPublished := by
  obtain ⟨hr', hb'⟩ := (withShared_reached hs hno o topic).represents
  have hgroup := withShared_noGroup hno o topic
  have hhand := handed_mergeAll (apart hr' hb' ht c) ((mem_generalPath hr' ht hgroup).mp hg)
  have hexact : (s.withShared o topic).exactOf topic c = none := by
    rw [exactOf_eq hr' ht, (withShared_same o topic).plain, hex]
  obtain ⟨n', l', hnl, hrn⟩ := hhand.first hexact
  rw [hfirst] at hnl
  cases hnl
  exact hrn

/-- The fast path agrees with the general path of every state that differs in shared
subscriptions elsewhere. -/
def AgreesEverywhere (s : IndexSys) (registered : Bytes → Bool) (topic : Bytes) : Prop :=
  ∀ s' o, Reached s' → SamePlain s.held s'.held → ¬ NoShared s'.held → NoGroup s'.held topic →
    SameCalls (s.index.deliverToSubscribers o registered topic true)
      (s'.index.deliverToSubscribers o registered topic true)

theorem AgreesEverywhere.withShared (h : s.AgreesEverywhere registered topic)
    (hs : Reached s) (hno : NoShared s.held) (ht : TopicName topic) (o : MapOrder) : SameCalls
      { inline := s.inlineMatching topic
        clients := (s.index.fastPath topic true).clients.filter fun e => registered e.1 }
      { inline := (o.visit ((s.withShared o topic).index.subscribers topic).inlineSubscriptions.entries).map (·.2)
        clients := ((s.withShared o topic).index.generalPath o topic true).clients.filter
          fun e => registered e.1 } := by
  have hreach := withShared_reached hs hno o topic
  have hgroup := withShared_noGroup hno o topic
  have hsame := h _ o hreach (withShared_same o topic) (withShared_shared o topic) hgroup
  rw [deliver_fast hs.represents.1 hno ht,
    deliver_general hreach.represents.1 (withShared_shared o topic) hgroup ht] at hsame
  exact hsame

theorem AgreesEverywhere.retain (h : s.AgreesEverywhere registered topic)
    (hs : Reached s) (hno : NoShared s.held) (ht : TopicName topic) (hreg : registered c = true) :
    RetainAgrees s.held topic c := by
  obtain ⟨hr, -⟩ := hs.represents
  intro hex f f' m m' hl hl' hm hm'
  by_contra hrap
  have hin := mem_matching_of_matches hr ht hex hl hm
  have hin' := mem_matching_of_matches hr ht hex hl' hm'
  obtain ⟨r, hj⟩ : ∃ r, joined (s.exactOf topic c) (mergeAll none (s.index.matching topic c)) = some r := by
    rw [← Option.isSome_iff_exists, joined_isSome, mergeAll_isSome]
    simp [ne_nil_of_mem hin]
  obtain ⟨n, hn, hne⟩ : ∃ n ∈ s.index.matching topic c, n.retainAsPublished ≠ r.retainAsPublished := by
    by_cases h1 : m.retainAsPublished = r.retainAsPublished
    · exact ⟨m', hin', fun h2 => hrap (h1.trans h2.symm)⟩
    · exact ⟨m, hin, h1⟩
  obtain ⟨o, l, hfirst⟩ := exists_first hs hno hn
  have hsame := h.withShared hs hno ht o
  have hmem : (c, r.view) ∈ (((s.index.fastPath topic true).clients.filter fun e => registered e.1).map
      fun e => (e.1, e.2.view)) := (mem_views).mpr ⟨hreg, r, (mem_fastPath hr).mpr hj, rfl⟩
  obtain ⟨-, r', hg, hview⟩ := (mem_views).mp (hsame.clients.mem_iff.mp hmem)
  have hflag : r'.retainAsPublished = r.retainAsPublished := congrArg SubscriptionView.retainAsPublished hview
  exact hne ((general_retain hs hno ht hex hfirst hg).symm.trans hflag)

/-- The fast path makes the calls of the general path, whatever shared subscription elsewhere
makes the server take that one, exactly when no client's retain flag depends on the order of its
wildcard filters and the matching inline subscriptions have distinct identifiers. -/
theorem fanout_same_iff (hs : Reached s) (hno : NoShared s.held) (ht : TopicName topic)
    (registered : Bytes → Bool) : s.AgreesEverywhere registered topic ↔
      (∀ c, registered c = true → RetainAgrees s.held topic c) ∧ InlineDistinct s.held topic := by
  obtain ⟨hr, hb⟩ := hs.represents
  constructor
  · intro h
    refine ⟨fun c hreg => h.retain hs hno ht hreg, ?_⟩
    have hr' := (withShared_reached hs hno .stored topic).represents.1
    exact (inline_perm_iff hr hr' ht (withShared_same _ topic) .stored).mp (h.withShared hs hno ht .stored).inline
  · rintro ⟨hrap, hinl⟩ s' o hs' hsame hsome hgroup
    obtain ⟨hr', hb'⟩ := hs'.represents
    rw [deliver_fast hr hno ht, deliver_general hr' hsome hgroup ht]
    exact ⟨clients_perm hr hr' hb hb' ht hsame hgroup o true hrap,
      (inline_perm_iff hr hr' ht hsame o).mpr hinl⟩

/-- An exact and a wildcard subscription of one client, one of another, and two handlers. -/
def mixedCalls : List Call :=
  [.subscribe .stored (ascii "a") { bare (ascii "t") with identifier := 1 },
   .subscribe .stored (ascii "a") { bare (ascii "+") with qos := 1 },
   .subscribe .stored (ascii "b") (bare (ascii "#")),
   .inlineSubscribe .stored ⟨{ bare (ascii "t") with identifier := 1 }, 0⟩,
   .inlineSubscribe .stored ⟨{ bare (ascii "+") with identifier := 2 }, 1⟩]

theorem noShared_of_entries {h : Holdings} (he : ∀ e ∈ h.subs.entries, e.1.pair = none) : NoShared h := by
  intro c g p
  by_contra hne
  obtain ⟨m, hm⟩ := Option.ne_none_iff_exists'.mp hne
  have := he _ (AList.mem_lookup_iff.mp hm)
  cases this

theorem mixedCalls_agree : (run step start mixedCalls).AgreesEverywhere (fun _ => true) (ascii "t") := by
  refine (fanout_same_iff ⟨mixedCalls, by decide, rfl⟩ (noShared_of_entries (by decide)) ⟨by decide, by decide⟩
    fun _ => true).mpr ⟨?_, ?_⟩
  · have hflag : ∀ e ∈ (run step start mixedCalls).held.subs.entries, e.2.retainAsPublished = false := by decide
    intro c _ _ f f' m m' hl hl' _ _
    rw [hflag _ (AList.mem_lookup_iff.mp hl), hflag _ (AList.mem_lookup_iff.mp hl')]
  · have hid : ∀ e ∈ (run step start mixedCalls).held.inline.entries,
        ∀ e' ∈ (run step start mixedCalls).held.inline.entries, e.1.2 = e'.1.2 → e.1.1 = e'.1.1 := by decide
    intro f f' id i i' hl hl' _ _
    exact hid _ (AList.mem_lookup_iff.mp hl) _ (AList.mem_lookup_iff.mp hl') rfl

/-- Two wildcard subscriptions of one client, one of them Retain As Published. -/
def retainCalls : List Call :=
  [.subscribe .stored (ascii "a") { bare (ascii "+") with retainAsPublished := true },
   .subscribe .stored (ascii "a") (bare (ascii "#"))]

/-- The flag a client is handed depends on which of its filters is visited first. -/
theorem retainCalls_disagree :
    ¬ ∀ (s : IndexSys) (topic : Bytes) (registered : Bytes → Bool), Reached s → NoShared s.held →
      TopicName topic → s.AgreesEverywhere registered topic := by
  intro h
  have hs : Reached (run step start retainCalls) := ⟨retainCalls, by decide, rfl⟩
  have hno : NoShared (run step start retainCalls).held := noShared_of_entries (by decide)
  have ht : TopicName (ascii "t") := ⟨by decide, by decide⟩
  have hret := (h _ (ascii "t") (fun _ => true) hs hno ht).retain hs hno ht (c := ascii "a") rfl
  have hplus : Matches (ascii "+") (ascii "t") := ⟨.any _ .done, by decide⟩
  have hhash : Matches (ascii "#") (ascii "t") := ⟨.rest _, by decide⟩
  have heq := hret (by decide) (ascii "+") (ascii "#") { bare (ascii "+") with retainAsPublished := true }
    (bare (ascii "#")) (by decide) (by decide) hplus hhash
  cases heq

end IndexSys

end MonsterMQ.Topics
