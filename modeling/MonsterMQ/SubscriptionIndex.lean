import MonsterMQ.TopicTreeEntries
import MonsterMQ.TopicValidity
import MonsterMQ.NestedMaps
import Mathlib.Order.Bounds.Basic

/-!
# The subscription index

The index of `internal/topic/index.go` that the queue hook asks for the subscribers of a
message: filters without wildcards in a hash index, the others in a topic tree. After any calls
it answers like the table of the subscriptions that are held.
-/

namespace MonsterMQ.TopicTree

open LittleEndian PeerLink Auth Topics FiniteMaps List

section ExactIndex

variable {V : Type}

@[grind =] def exactFind (m : FMap Bytes (FMap Bytes V)) (topic : Bytes) : List (Bytes × V) :=
  match m.lookup topic with
  | none => []
  | some bucket => bucket.entries.map fun e => (e.1, e.2)

def exactHas (m : FMap Bytes (FMap Bytes V)) (topic : Bytes) : Bool :=
  match m.lookup topic with
  | none => false
  | some bucket => 0 < size bucket

@[grind =] def removeFrom (key : Bytes) (s : FMap Bytes (FMap Bytes V) × List Bytes) (topic : Bytes) :
    FMap Bytes (FMap Bytes V) × List Bytes :=
  match eraseAt s.1 topic key with
  | none => s
  | some m => (m, s.2 ++ [topic])

@[grind =]
def exactRemoveKey (m : FMap Bytes (FMap Bytes V)) (key : Bytes) : FMap Bytes (FMap Bytes V) × List Bytes :=
  m.keys.foldl (removeFrom key) (m, [])

variable {m : FMap Bytes (FMap Bytes V)}

theorem mem_entries_map {m : FMap Bytes V} {k : Bytes} {v : V} :
    (k, v) ∈ (m.entries.map fun e => (e.1, e.2)) ↔ m.lookup k = some v := by
  change _ ↔ v ∈ m.lookup k
  rw [AList.mem_lookup_iff, mem_map]
  constructor
  · rintro ⟨e, he, heq⟩
    obtain ⟨rfl, rfl⟩ := Prod.mk.inj heq
    exact he
  · exact fun he => ⟨⟨k, v⟩, he, rfl⟩

theorem nodup_entries_map (m : FMap Bytes V) : ((m.entries.map fun e => (e.1, e.2)).map Prod.fst).Nodup := by
  rw [map_map]
  exact m.keys_nodup

theorem mem_exactFind {topic k : Bytes} {v : V} : (k, v) ∈ exactFind m topic ↔ lookup₂ m topic k = some v := by
  rw [exactFind, lookup₂]
  cases m.lookup topic with
  | none => simp
  | some bucket =>
    rw [Option.bind_some]
    exact mem_entries_map

private theorem exactHas_iff {topic : Bytes} : exactHas m topic = true ↔ exactFind m topic ≠ [] := by
  rw [exactHas, exactFind]
  cases m.lookup topic with
  | none => simp
  | some bucket => simp [size, length_pos_iff]

theorem lookup₂_removeFrom (key : Bytes) (s : FMap Bytes (FMap Bytes V) × List Bytes) (topic a k : Bytes) :
    lookup₂ (removeFrom key s topic).1 a k = if a = topic ∧ k = key then none else lookup₂ s.1 a k := by
  rw [removeFrom]
  split
  · rename_i h
    rw [eraseAt_eq_none_iff] at h
    split
    · rename_i heq
      rw [heq.1, heq.2, h]
    · rfl
  · rename_i h
    exact lookup₂_eraseAt h a k

private theorem removeFrom_topics (key : Bytes) (s : FMap Bytes (FMap Bytes V) × List Bytes) (topic : Bytes) :
    (removeFrom key s topic).2 = if (lookup₂ s.1 topic key).isSome then s.2 ++ [topic] else s.2 := by
  rw [removeFrom]
  split
  · rename_i h
    rw [eraseAt_eq_none_iff] at h
    simp [h]
  · rename_i m h
    have hsome : lookup₂ s.1 topic key ≠ none := by
      rw [Ne, ← eraseAt_eq_none_iff, h]
      simp
    rw [if_pos (Option.isSome_iff_ne_none.mpr hsome)]

private theorem lookup₂_removeLoop (key : Bytes) (ts : List Bytes) (a k : Bytes) :
    ∀ s : FMap Bytes (FMap Bytes V) × List Bytes,
      lookup₂ (ts.foldl (removeFrom key) s).1 a k = if a ∈ ts ∧ k = key then none else lookup₂ s.1 a k := by
  induction ts with
  | nil => simp
  | cons t ts ih =>
    intro s
    rw [foldl_cons, ih, lookup₂_removeFrom]
    by_cases hk : k = key
    · by_cases hat : a = t
      · simp [hk, hat]
      · simp [hk, hat]
    · simp [hk]

theorem removeLoop_topics (key : Bytes) {ts : List Bytes} (hts : ts.Nodup) :
    ∀ s : FMap Bytes (FMap Bytes V) × List Bytes,
      (ts.foldl (removeFrom key) s).2 = s.2 ++ ts.filter fun t => (lookup₂ s.1 t key).isSome := by
  induction ts with
  | nil => simp
  | cons t ts ih =>
    intro s
    rw [nodup_cons] at hts
    have hrest : (ts.filter fun a => (lookup₂ (removeFrom key s t).1 a key).isSome) =
        ts.filter fun a => (lookup₂ s.1 a key).isSome := by
      apply filter_congr
      intro a ha
      have hne : a ≠ t := fun h => hts.1 (h ▸ ha)
      rw [lookup₂_removeFrom, if_neg (fun h => hne h.1)]
    rw [foldl_cons, ih hts.2, hrest, removeFrom_topics, filter_cons]
    split <;> simp

theorem mem_keys_of_lookup₂ {a k : Bytes} (h : (lookup₂ m a k).isSome) : a ∈ m.keys := by
  rw [lookup₂] at h
  cases ha : m.lookup a with
  | none => simp [ha] at h
  | some bucket => exact AList.mem_keys.mp (AList.lookup_isSome.mp (by simp [ha]))

private theorem lookup₂_exactRemoveKey (key a k : Bytes) :
    lookup₂ (exactRemoveKey m key).1 a k = if k = key then none else lookup₂ m a k := by
  rw [exactRemoveKey, lookup₂_removeLoop]
  by_cases ha : a ∈ m.keys
  · simp [ha]
  · have hnone : lookup₂ m a k = none := by
      rw [← Option.not_isSome_iff_eq_none]
      exact fun h => ha (mem_keys_of_lookup₂ h)
    simp [ha, hnone]

private theorem exactRemoveKey_topics (key : Bytes) :
    (exactRemoveKey m key).2.Nodup ∧ ∀ a, a ∈ (exactRemoveKey m key).2 ↔ (lookup₂ m a key).isSome := by
  rw [exactRemoveKey, removeLoop_topics key m.keys_nodup, nil_append]
  refine ⟨m.keys_nodup.filter _, ?_⟩
  intro a
  rw [mem_filter]
  exact and_iff_right_of_imp mem_keys_of_lookup₂

end ExactIndex

structure SubscriptionIndex where
  exactIndex : FMap Bytes (FMap Bytes UInt8)
  wildcardIndex : Tree UInt8

namespace SubscriptionIndex

def newSubscriptionIndex : SubscriptionIndex := ⟨∅, newTree⟩

def subscribe (s : SubscriptionIndex) (client filter : Bytes) (qos : UInt8) : SubscriptionIndex :=
  if isWildcardFilter filter then { s with wildcardIndex := s.wildcardIndex.addData filter client qos }
  else { s with exactIndex := (insertAt s.exactIndex filter client qos).1 }

def unsubscribe (s : SubscriptionIndex) (client filter : Bytes) : SubscriptionIndex × Bool :=
  if isWildcardFilter filter then ({ s with wildcardIndex := s.wildcardIndex.delData filter client }, true)
  else
    match eraseAt s.exactIndex filter client with
    | none => (s, false)
    | some m => ({ s with exactIndex := m }, true)

/-- One entry of the wildcard index in the merge of `FindSubscribers`. -/
def keepHighest (merged : FMap Bytes UInt8) (e : Bytes × UInt8) : FMap Bytes UInt8 :=
  match merged.lookup e.1 with
  | none => merged.insert e.1 e.2
  | some cur => if cur < e.2 then merged.insert e.1 e.2 else merged

@[grind =] def findSubscribers (s : SubscriptionIndex) (topic : Bytes) : List (Bytes × UInt8) :=
  let exacts := exactFind s.exactIndex topic
  let wild := s.wildcardIndex.findData topic
  if exacts.length = 0 && wild.length = 0 then []
  else
    let merged : FMap Bytes UInt8 := exacts.foldl (fun merged e => merged.insert e.1 e.2) ∅
    let merged := wild.foldl keepHighest merged
    merged.entries.map fun e => (e.1, e.2)

def hasSubscribers (s : SubscriptionIndex) (topic : Bytes) : Bool :=
  exactHas s.exactIndex topic || s.wildcardIndex.isMatching topic

def disconnectClient (s : SubscriptionIndex) (client : Bytes) : SubscriptionIndex × List Bytes :=
  let (exacts, out) := exactRemoveKey s.exactIndex client
  let (wild, patterns) := s.wildcardIndex.removeKey client
  (⟨exacts, wild⟩, out ++ patterns)

theorem isGreatest_insert_of_le {S : Set UInt8} {a b q : UInt8} (hb : b ∈ S) (hab : a ≤ b) :
    IsGreatest (insert a S) q ↔ IsGreatest S q := by
  constructor
  · rintro ⟨hq, hu⟩
    refine ⟨?_, fun x hx => hu (.inr hx)⟩
    rcases hq with rfl | hq
    · exact UInt8.le_antisymm hab (hu (.inr hb)) ▸ hb
    · exact hq
  · rintro ⟨hq, hu⟩
    refine ⟨.inr hq, ?_⟩
    rintro x (rfl | hx)
    · exact UInt8.le_trans hab (hu hb)
    · exact hu hx

theorem lookup_mergeExact {es : List (Bytes × UInt8)} (hes : (es.map Prod.fst).Nodup) (c : Bytes) (q : UInt8) :
    ∀ m : FMap Bytes UInt8, (es.foldl (fun merged e => merged.insert e.1 e.2) m).lookup c = some q ↔
      (c, q) ∈ es ∨ (c ∉ es.map Prod.fst ∧ m.lookup c = some q) := by
  induction es with
  | nil => simp
  | cons e es ih =>
    intro m
    rw [map_cons, nodup_cons] at hes
    rw [foldl_cons, ih hes.2, lookup_insert_if, map_cons, mem_cons, mem_cons]
    by_cases hc : c = e.1
    · subst hc
      have hno : (e.1, q) ∉ es := fun h => hes.1 (mem_map.mpr ⟨_, h, rfl⟩)
      have hq : (e.1, q) = e ↔ e.2 = q := by
        rw [Prod.ext_iff, eq_comm (a := q)]
        exact and_iff_right rfl
      simp [hes.1, hno, hq]
    · have hne : (c, q) ≠ e := fun h => hc (congrArg Prod.fst h)
      simp [hc, hne]

theorem lookup_keepOne (m : FMap Bytes UInt8) (e : Bytes × UInt8) (c : Bytes) : (keepHighest m e).lookup c =
      if c = e.1 then some (((m.lookup e.1).map fun cur => if cur < e.2 then e.2 else cur).getD e.2)
      else m.lookup c := by
  rw [keepHighest]
  cases hm : m.lookup e.1 with
  | none => exact lookup_insert_if m e.1 c e.2
  | some cur =>
    dsimp only [Option.map_some, Option.getD_some]
    split
    · exact lookup_insert_if m e.1 c e.2
    · split
      · rename_i hc
        rw [hc, hm]
      · rfl

theorem lookup_keepHighest (c : Bytes) (q : UInt8) (ws : List (Bytes × UInt8)) : ∀ m : FMap Bytes UInt8,
    (ws.foldl keepHighest m).lookup c = some q ↔
      IsGreatest {q | m.lookup c = some q ∨ (c, q) ∈ ws} q := by
  induction ws with
  | nil =>
    intro m
    rw [foldl_nil]
    constructor
    · intro h
      refine ⟨.inl h, ?_⟩
      rintro x (hx | hx)
      · exact (Option.some.inj (hx.symm.trans h)) ▸ UInt8.le_refl x
      · cases hx
    · rintro ⟨h | h, -⟩
      · exact h
      · cases h
  | cons e ws ih =>
    intro m
    rw [foldl_cons, ih, lookup_keepOne]
    by_cases hc : c = e.1
    · subst hc
      have hmem : ∀ x, (e.1, x) ∈ e :: ws ↔ x = e.2 ∨ (e.1, x) ∈ ws := by
        intro x
        rw [mem_cons, Prod.ext_iff]
        simp
      simp only [hmem, if_pos]
      cases hm : m.lookup e.1 with
      | none => simp [eq_comm]
      | some cur =>
        dsimp only [Option.map_some, Option.getD_some]
        split
        · rename_i hlt
          have hset : {x | some cur = some x ∨ x = e.2 ∨ (e.1, x) ∈ ws} =
              insert cur {x | x = e.2 ∨ (e.1, x) ∈ ws} := by
            ext x
            simp [eq_comm]
          rw [hset, isGreatest_insert_of_le (.inl rfl) (UInt8.le_of_lt hlt)]
          simp [eq_comm]
        · rename_i hge
          have hset : {x | some cur = some x ∨ x = e.2 ∨ (e.1, x) ∈ ws} =
              insert e.2 {x | some cur = some x ∨ (e.1, x) ∈ ws} := by
            ext x
            simp [or_left_comm]
          rw [hset, isGreatest_insert_of_le (.inl rfl) (UInt8.not_lt.mp hge)]
    · have hmem : ∀ x, (c, x) ∈ e :: ws ↔ (c, x) ∈ ws := by
        intro x
        rw [mem_cons]
        exact or_iff_right (fun h => hc (congrArg Prod.fst h))
      simp only [hmem, if_neg hc]

private theorem keepHighest_isSome {c : Bytes} (ws : List (Bytes × UInt8)) : ∀ m : FMap Bytes UInt8,
    ((m.lookup c).isSome ∨ ∃ q, (c, q) ∈ ws) → ((ws.foldl keepHighest m).lookup c).isSome := by
  induction ws with
  | nil =>
    rintro m (h | ⟨q, hq⟩)
    · exact h
    · cases hq
  | cons e ws ih =>
    intro m h
    rw [foldl_cons]
    apply ih
    rw [lookup_keepOne]
    rcases h with h | ⟨q, hq⟩
    · left
      split
      · rfl
      · exact h
    · rcases mem_cons.mp hq with rfl | hq
      · left
        rw [if_pos rfl]
        rfl
      · exact .inr ⟨q, hq⟩

theorem exactFind_nodup (m : FMap Bytes (FMap Bytes UInt8)) (topic : Bytes) :
    ((exactFind m topic).map Prod.fst).Nodup := by
  rw [exactFind]
  split
  · exact nodup_nil
  · exact nodup_entries_map _

theorem mem_findSubscribers (s : SubscriptionIndex) (topic c : Bytes) (q : UInt8) :
    (c, q) ∈ s.findSubscribers topic ↔
      IsGreatest {q | (c, q) ∈ exactFind s.exactIndex topic ∨ (c, q) ∈ s.wildcardIndex.findData topic} q := by
  rw [findSubscribers]
  dsimp only
  split
  · rename_i hnone
    simp only [Bool.and_eq_true, decide_eq_true_eq, length_eq_zero_iff] at hnone
    rw [hnone.1, hnone.2]
    refine iff_of_false not_mem_nil ?_
    rintro ⟨hq, -⟩
    simp at hq
  · rw [mem_entries_map, lookup_keepHighest]
    simp only [lookup_mergeExact (exactFind_nodup s.exactIndex topic), AList.lookup_empty, reduceCtorEq,
      and_false, or_false]

theorem exists_findSubscribers {s : SubscriptionIndex} {topic c : Bytes} {q : UInt8}
    (h : (c, q) ∈ exactFind s.exactIndex topic ∨ (c, q) ∈ s.wildcardIndex.findData topic) :
    ∃ q, (c, q) ∈ s.findSubscribers topic := by
  rw [findSubscribers]
  dsimp only
  split
  · rename_i hnone
    simp only [Bool.and_eq_true, decide_eq_true_eq, length_eq_zero_iff] at hnone
    rw [hnone.1, hnone.2] at h
    simp at h
  · simp only [mem_entries_map]
    apply Option.isSome_iff_exists.mp
    apply keepHighest_isSome
    refine h.imp ?_ (fun hw => ⟨q, hw⟩)
    intro he
    apply Option.isSome_iff_exists.mpr
    exact ⟨q, (lookup_mergeExact (exactFind_nodup s.exactIndex topic) c q ∅).mpr (.inl he)⟩

private theorem findSubscribers_nodup (s : SubscriptionIndex) (topic : Bytes) :
    ((s.findSubscribers topic).map Prod.fst).Nodup := by
  rw [findSubscribers]
  dsimp only
  split
  · exact nodup_nil
  · exact nodup_entries_map _

theorem hasSubscribers_iff (s : SubscriptionIndex) (topic : Bytes) :
    s.hasSubscribers topic = true ↔ s.findSubscribers topic ≠ [] := by
  rw [hasSubscribers, Bool.or_eq_true, exactHas_iff, isMatching_iff]
  constructor
  · intro h hnil
    have hentry : ∃ e : Bytes × UInt8, e ∈ exactFind s.exactIndex topic ∨ e ∈ s.wildcardIndex.findData topic := by
      rcases h with h | h
      · obtain ⟨e, he⟩ := exists_mem_of_ne_nil _ h
        exact ⟨e, .inl he⟩
      · obtain ⟨e, he⟩ := exists_mem_of_ne_nil _ h
        exact ⟨e, .inr he⟩
    obtain ⟨e, he⟩ := hentry
    obtain ⟨q, hq⟩ := exists_findSubscribers he
    rw [hnil] at hq
    cases hq
  · intro h
    obtain ⟨⟨c, q⟩, he⟩ := exists_mem_of_ne_nil _ h
    rw [mem_findSubscribers] at he
    exact he.1.imp ne_nil_of_mem ne_nil_of_mem

/-- The QoS of each subscription, by client and filter. -/
abbrev Held := Bytes → Bytes → Option UInt8

inductive Call where
  | subscribe (client filter : Bytes) (qos : UInt8)
  | unsubscribe (client filter : Bytes)
  | disconnectClient (client : Bytes)

/-- Clients have an id, and only filters that the engine accepts are subscribed. -/
def Call.Allowed : Call → Prop
  | .subscribe client filter _ => client ≠ [] ∧ isValidFilter filter false = true
  | .unsubscribe client _ => client ≠ []
  | .disconnectClient client => client ≠ []

@[grind =] def Held.set (h : Held) (client filter : Bytes) (qos : Option UInt8) : Held :=
  fun c f => if c = client ∧ f = filter then qos else h c f

def Held.remove (h : Held) (client : Bytes) : Held := fun c f => if c = client then none else h c f

def Call.held (h : Held) : Call → Held
  | .subscribe client filter qos => h.set client filter (some qos)
  | .unsubscribe client filter => h.set client filter none
  | .disconnectClient client => h.remove client

def step (s : SubscriptionIndex) : Call → SubscriptionIndex
  | .subscribe client filter qos => s.subscribe client filter qos
  | .unsubscribe client filter => (s.unsubscribe client filter).1
  | .disconnectClient client => (s.disconnectClient client).1

def run (calls : List Call) : SubscriptionIndex := calls.foldl step newSubscriptionIndex

def heldAfter (calls : List Call) : Held := calls.foldl Call.held fun _ _ => none

structure Stores (s : SubscriptionIndex) (h : Held) : Prop where
  tidy : Tidy s.wildcardIndex.root
  wild : ∀ ls c q, Holds s.wildcardIndex.root ls c q ↔
    ∃ f, levels f = ls ∧ isWildcardFilter f = true ∧ h c f = some q
  plain : ∀ f c, lookup₂ s.exactIndex f c = if isWildcardFilter f = true then none else h c f
  valid : ∀ c f q, h c f = some q → HashLast (levels f)

private theorem stores_new : Stores newSubscriptionIndex fun _ _ => none where
  tidy := tidy_newNode
  wild ls c q := iff_of_false (not_holds_of_isEmpty rfl ls c q) (by simp)
  plain f c := by
    rw [ite_self]
    rfl
  valid c f q h := by cases h

private theorem ne_nil_of_wildcard {f : Bytes} (h : isWildcardFilter f = true) : f ≠ [] := by
  rintro rfl
  cases h

theorem splitTopic_wildcard {f : Bytes} (h : isWildcardFilter f = true) : splitTopic f = levels f := by
  rw [splitTopic, if_neg (ne_nil_of_wildcard h)]

theorem addData_root {t : Tree UInt8} {f key : Bytes} {q : UInt8} (h : isWildcardFilter f = true) :
    (t.addData f key q).root = t.root.addLevels key (some q) (levels f) := by
  rw [Tree.addData, splitTopic_wildcard h]
  split
  · rename_i hnil
    exact absurd hnil (levels_ne_nil f)
  · rfl

theorem delData_root {t : Tree UInt8} {f key : Bytes} (h : isWildcardFilter f = true) :
    (t.delData f key).root = (t.root.delLevels key (levels f)).1 := by
  rw [Tree.delData, splitTopic_wildcard h]
  split
  · rename_i hnil
    exact absurd hnil (levels_ne_nil f)
  · rfl

theorem hashLast_of_valid {f : Bytes} (h : isValidFilter f false = true) : HashLast (levels f) := by
  rcases (isValidFilter_subscribe_iff f).mp h with ⟨hw, -⟩ | ⟨group, plain, hp, hw⟩
  · exact hw.levels.hashLast
  · exact ((wholeLevels_of_parts hp).mpr hw.levels).hashLast

section Steps

variable {s : SubscriptionIndex} {h : Held} {client filter : Bytes} {qos : Option UInt8}

section

variable (hs : Stores s h)
include hs

theorem hashLast_set (hf : qos ≠ none → HashLast (levels filter)) (c f : Bytes) (q : UInt8)
    (hq : h.set client filter qos c f = some q) : HashLast (levels f) := by
  unfold Held.set at hq
  split at hq
  · rename_i heq
    rw [heq.2]
    apply hf
    simp [hq]
  · exact hs.valid c f q hq

theorem stores_wild (hw : isWildcardFilter filter = true)
    (hf : qos ≠ none → HashLast (levels filter)) {t : Tree UInt8} (ht : Tidy t.root)
    (hroot : ∀ ls c q, Holds t.root ls c q ↔ (ls = levels filter ∧ c = client ∧ qos = some q) ∨
      (¬ (ls = levels filter ∧ c = client) ∧ Holds s.wildcardIndex.root ls c q)) :
    Stores { s with wildcardIndex := t } (h.set client filter qos) := by
  refine ⟨ht, ?_, ?_, hashLast_set hs hf⟩
  · intro ls c q
    rw [hroot, hs.wild]
    unfold Held.set
    constructor
    · rintro (⟨rfl, rfl, hq⟩ | ⟨hne, f, rfl, hfw, hq⟩)
      · exact ⟨filter, rfl, hw, by rw [if_pos ⟨rfl, rfl⟩, hq]⟩
      · refine ⟨f, rfl, hfw, ?_⟩
        rw [if_neg, hq]
        rintro ⟨rfl, rfl⟩
        exact hne ⟨rfl, rfl⟩
    · rintro ⟨f, rfl, hfw, hq⟩
      split at hq
      · rename_i heq
        exact .inl ⟨by rw [heq.2], heq.1, hq⟩
      · rename_i hne
        exact .inr ⟨fun heq => hne ⟨heq.2, levels_injective heq.1⟩, f, rfl, hfw, hq⟩
  · intro f c
    rw [hs.plain]
    split
    · rfl
    · rename_i hplain
      unfold Held.set
      rw [if_neg]
      rintro ⟨-, rfl⟩
      exact hplain hw

theorem stores_plain (hw : ¬ isWildcardFilter filter = true)
    (hf : qos ≠ none → HashLast (levels filter)) {m : FMap Bytes (FMap Bytes UInt8)}
    (hm : ∀ f c, lookup₂ m f c = if f = filter ∧ c = client then qos else lookup₂ s.exactIndex f c) :
    Stores { s with exactIndex := m } (h.set client filter qos) := by
  refine ⟨hs.tidy, ?_, ?_, hashLast_set hs hf⟩
  · intro ls c q
    rw [hs.wild]
    apply exists_congr
    intro f
    apply and_congr_right
    intro _
    apply and_congr_right
    intro hfw
    unfold Held.set
    rw [if_neg]
    rintro ⟨-, rfl⟩
    exact hw hfw
  · intro f c
    rw [hm, hs.plain]
    unfold Held.set
    by_cases heq : f = filter ∧ c = client
    · rw [if_pos heq, if_pos heq.symm, heq.1, if_neg hw]
    · rw [if_neg heq]
      split
      · rfl
      · rw [if_neg (fun hsym => heq hsym.symm)]

private theorem stores_subscribe (hc : client ≠ []) (hf : isValidFilter filter false = true)
    (q : UInt8) : Stores (s.subscribe client filter q) (h.set client filter (some q)) := by
  rw [subscribe]
  split
  · rename_i hw
    apply stores_wild hs hw (fun _ => hashLast_of_valid hf)
    · rw [addData_root hw]
      exact (tidy_addLevels hc q _ hs.tidy).1
    · intro ls c q'
      rw [addData_root hw, holds_addLevels hc q _ hs.tidy, Option.some.injEq, eq_comm (a := q')]
  · rename_i hw
    apply stores_plain hs hw (fun _ => hashLast_of_valid hf)
    exact fun f c => lookup₂_insertAt s.exactIndex filter f client c q

theorem stores_unsubscribe (hc : client ≠ []) :
    Stores (s.unsubscribe client filter).1 (h.set client filter none) := by
  rw [unsubscribe]
  split
  · rename_i hw
    apply stores_wild hs hw (fun hne => absurd rfl hne)
    · rw [delData_root hw]
      exact (tidy_delLevels hc _ hs.tidy).1
    · intro ls c q
      rw [delData_root hw, holds_delLevels hc _ hs.tidy]
      simp [and_comm]
  · rename_i hw
    split
    · rename_i hnone
      apply stores_plain hs hw (fun hne => absurd rfl hne)
      intro f c
      rw [eraseAt_eq_none_iff] at hnone
      split
      · rename_i heq
        rw [heq.1, heq.2, hnone]
      · rfl
    · rename_i m hm
      exact stores_plain hs hw (fun hne => absurd rfl hne) (lookup₂_eraseAt hm)

theorem stores_disconnectClient : Stores (s.disconnectClient client).1 (h.remove client) := by
  have hremove : ∀ c f q, h.remove client c f = some q ↔ h c f = some q ∧ c ≠ client := by
    intro c f q
    unfold Held.remove
    by_cases heq : c = client
    · simp [heq]
    · simp [heq]
  refine ⟨tidy_removeWalk client hs.tidy [], ?_, ?_, ?_⟩
  · intro ls c q
    have hwalk := holds_removeWalk client hs.tidy [] ls c q
    rw [hs.wild] at hwalk
    refine hwalk.trans ?_
    simp only [hremove]
    constructor
    · rintro ⟨⟨f, hls, hw, hq⟩, hne⟩
      exact ⟨f, hls, hw, hq, hne⟩
    · rintro ⟨f, hls, hw, hq, hne⟩
      exact ⟨⟨f, hls, hw, hq⟩, hne⟩
  · intro f c
    refine (lookup₂_exactRemoveKey client f c).trans ?_
    rw [hs.plain]
    unfold Held.remove
    by_cases heq : c = client
    · simp [heq]
    · simp [heq]
  · intro c f q hq
    exact hs.valid c f q ((hremove c f q).mp hq).1

private theorem stores_step {call : Call} (hcall : call.Allowed) : Stores (s.step call) (call.held h) := by
  cases call with
  | subscribe client filter qos => exact stores_subscribe hs hcall.1 hcall.2 qos
  | unsubscribe client filter => exact stores_unsubscribe hs hcall
  | disconnectClient client => exact stores_disconnectClient hs

end

end Steps

private theorem stores_run {calls : List Call} (hcalls : ∀ call ∈ calls, call.Allowed) :
    Stores (run calls) (heldAfter calls) := by
  have hgo : ∀ (s : SubscriptionIndex) (h : Held), Stores s h →
      Stores (calls.foldl step s) (calls.foldl Call.held h) := by
    induction calls with
    | nil => exact fun s h hs => hs
    | cons call calls ih =>
      intro s h hs
      have hrest := forall_mem_cons.mp hcalls
      exact ih hrest.2 _ _ (stores_step hs hrest.1)
  exact hgo _ _ stores_new

structure Answers (s : SubscriptionIndex) (h : Held) : Prop where
  once : ∀ topic, ((s.findSubscribers topic).map Prod.fst).Nodup
  found : ∀ topic, topic ≠ [] → ∀ c,
    (∃ q, (c, q) ∈ s.findSubscribers topic) ↔ ∃ f q, h c f = some q ∧ Matches f topic
  highest : ∀ topic, topic ≠ [] → ∀ c q, (c, q) ∈ s.findSubscribers topic →
    IsGreatest {q | ∃ f, h c f = some q ∧ Matches f topic} q
  has : ∀ topic, s.hasSubscribers topic = true ↔ s.findSubscribers topic ≠ []
  /-- `DisconnectClient` returns the filters of the client. -/
  filters : ∀ c, (s.disconnectClient c).2.Nodup ∧
    ∀ f, f ∈ (s.disconnectClient c).2 ↔ (h c f).isSome
  /-- The tree is pruned. -/
  pruned : (∀ c f, h c f = none) → s.wildcardIndex.root = .newNode

section Answers

variable {s : SubscriptionIndex} {h : Held}

section

variable (hs : Stores s h)
include hs

theorem entry_iff {topic : Bytes} (ht : topic ≠ []) (c : Bytes) (q : UInt8) :
    (c, q) ∈ exactFind s.exactIndex topic ∨ (c, q) ∈ s.wildcardIndex.findData topic ↔
      ∃ f, h c f = some q ∧ Matches f topic := by
  have hlast : ∀ fs, Holds s.wildcardIndex.root fs c q → HashLast fs := by
    intro fs hv
    obtain ⟨f, rfl, -, hq⟩ := (hs.wild fs c q).mp hv
    exact hs.valid c f q hq
  have hroot : s.wildcardIndex.root.dataset = [] := by
    rw [eq_nil_iff_forall_not_mem]
    intro e he
    obtain ⟨f, hnil, -⟩ := (hs.wild [] e.1 e.2).mp he
    exact levels_ne_nil f hnil
  rw [mem_exactFind, hs.plain, mem_findData hs.tidy hlast hroot ht]
  constructor
  · rintro (hq | ⟨fs, hv, hcovers⟩)
    · split at hq
      · cases hq
      · rename_i hw
        exact ⟨topic, hq, (matches_exact_iff (Bool.eq_false_iff.mpr hw)).mpr rfl⟩
    · obtain ⟨f, rfl, -, hq⟩ := (hs.wild fs c q).mp hv
      exact ⟨f, hq, (matches_iff_levels).mpr hcovers⟩
  · rintro ⟨f, hq, hm⟩
    by_cases hw : isWildcardFilter f = true
    · exact .inr ⟨levels f, (hs.wild _ c q).mpr ⟨f, rfl, hw, hq⟩, (matches_iff_levels).mp hm⟩
    · have heq := (matches_exact_iff (Bool.eq_false_iff.mpr hw)).mp hm
      subst heq
      exact .inl (by rw [if_neg hw, hq])

theorem mem_patterns {c p : Bytes} :
    p ∈ (s.wildcardIndex.removeKey c).2 ↔ isWildcardFilter p = true ∧ (h c p).isSome := by
  have hpaths := mem_removeWalk_paths c hs.tidy []
  rw [Tree.removeKey, mem_map]
  constructor
  · rintro ⟨ls, hls, rfl⟩
    obtain ⟨ls, rfl, q, hv⟩ := (hpaths _).mp hls
    obtain ⟨f, rfl, hw, hq⟩ := (hs.wild ls c q).mp hv
    rw [joinLevels_levels, hq]
    exact ⟨hw, rfl⟩
  · rintro ⟨hw, hsome⟩
    obtain ⟨q, hq⟩ := Option.isSome_iff_exists.mp hsome
    have hv := (hs.wild (levels p) c q).mpr ⟨p, rfl, hw, hq⟩
    exact ⟨levels p, (hpaths _).mpr ⟨levels p, rfl, q, hv⟩, joinLevels_levels p⟩

private theorem patterns_nodup (c : Bytes) : (s.wildcardIndex.removeKey c).2.Nodup := by
  have hpaths := mem_removeWalk_paths c hs.tidy []
  rw [Tree.removeKey]
  refine List.Nodup.map_on ?_ (nodup_removeWalk_paths c hs.tidy [])
  intro p hp p' hp' heq
  obtain ⟨_, rfl, q, hv⟩ := (hpaths _).mp hp
  obtain ⟨_, rfl, q', hv'⟩ := (hpaths _).mp hp'
  obtain ⟨f, hf, -⟩ := (hs.wild _ c q).mp hv
  obtain ⟨f', hf', -⟩ := (hs.wild _ c q').mp hv'
  rw [← hf, ← hf', joinLevels_levels, joinLevels_levels] at heq
  rw [← hf, ← hf', heq]

theorem disconnectClient_filters (c : Bytes) :
    (s.disconnectClient c).2.Nodup ∧ ∀ f, f ∈ (s.disconnectClient c).2 ↔ (h c f).isSome := by
  obtain ⟨hnodup, hmem⟩ := exactRemoveKey_topics (m := s.exactIndex) c
  have hplain : ∀ f, f ∈ (exactRemoveKey s.exactIndex c).2 ↔
      ¬ isWildcardFilter f = true ∧ (h c f).isSome := by
    intro f
    rw [hmem, hs.plain]
    by_cases hw : isWildcardFilter f = true
    · simp [hw]
    · simp [hw]
  have hout : (s.disconnectClient c).2 =
      (exactRemoveKey s.exactIndex c).2 ++ (s.wildcardIndex.removeKey c).2 := rfl
  rw [hout]
  constructor
  · rw [nodup_append]
    refine ⟨hnodup, patterns_nodup hs c, ?_⟩
    rintro f hf _ hp rfl
    exact ((hplain f).mp hf).1 ((mem_patterns hs).mp hp).1
  · intro f
    rw [mem_append, hplain, mem_patterns hs]
    by_cases hw : isWildcardFilter f = true
    · simp [hw]
    · simp [hw]

private theorem root_pruned (hnone : ∀ c f, h c f = none) : s.wildcardIndex.root = .newNode := by
  have hempty : s.wildcardIndex.root.isEmpty = true := by
    by_contra hne
    obtain ⟨ls, c, q, hv⟩ := exists_holds hs.tidy (Bool.eq_false_iff.mpr hne)
    obtain ⟨f, -, -, hq⟩ := (hs.wild ls c q).mp hv
    rw [hnone] at hq
    cases hq
  rcases hroot : s.wildcardIndex.root with ⟨children, dataset⟩
  rw [hroot, Node.isEmpty, Bool.and_eq_true, List.isEmpty_iff, List.isEmpty_iff] at hempty
  exact congrArg₂ Node.mk hempty.1 hempty.2

private theorem answers_of_stores : Answers s h where
  once := findSubscribers_nodup s
  found topic ht c := by
    constructor
    · rintro ⟨q, hq⟩
      obtain ⟨f, hf⟩ := (entry_iff hs ht c q).mp ((mem_findSubscribers s topic c q).mp hq).1
      exact ⟨f, q, hf⟩
    · rintro ⟨f, q, hf⟩
      exact exists_findSubscribers ((entry_iff hs ht c q).mpr ⟨f, hf⟩)
  highest topic ht c q hq := by
    have hbest := (mem_findSubscribers s topic c q).mp hq
    simp only [entry_iff hs ht] at hbest
    exact hbest
  has := hasSubscribers_iff s
  filters := disconnectClient_filters hs
  pruned := root_pruned hs

end

end Answers

/-- After any calls the index answers like the table of the subscriptions that are held. -/
theorem run_answers (calls : List Call) (hcalls : ∀ call ∈ calls, call.Allowed) :
    Answers (run calls) (heldAfter calls) :=
  answers_of_stores (stores_run hcalls)

def parentCalls : List Call :=
  [.subscribe (ascii "c") (ascii "a/#") 1, .subscribe (ascii "c") (ascii "a") 0]

theorem run_answers_parent : (∀ call ∈ parentCalls, call.Allowed) ∧
    Answers (run parentCalls) (heldAfter parentCalls) := by
  have hcalls : ∀ call ∈ parentCalls, call.Allowed := by
    intro call hcall
    rw [parentCalls, mem_cons, mem_singleton] at hcall
    rcases hcall with rfl | rfl
    · exact ⟨by decide, by decide⟩
    · exact ⟨by decide, by decide⟩
  exact ⟨hcalls, run_answers parentCalls hcalls⟩

end SubscriptionIndex

end MonsterMQ.TopicTree
