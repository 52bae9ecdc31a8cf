import MonsterMQ.TopicNames

/-!
# The topic matchers

The functions of the broker that compare a filter with a topic, next to `matchMQTTTopic`: `MatchFilter` of
`internal/topic`, the matchers of the bus, the virtual trees and the SQLite store, and those of the memory
store and the archive groups.
-/

namespace MonsterMQ.Topics

open LittleEndian PeerLink Auth List

/-- A leading wildcard against a topic that starts with `$`, by the first bytes. -/
def dollarTopic (pattern topic : Bytes) : Bool :=
  topic.head? = some dollarByte && (pattern.head? = some 0x2B || pattern.head? = some 0x23)

def matchFilterLevels : List Bytes → List Bytes → Bool
  | [], tl => tl.isEmpty
  | f :: fl, tl =>
    if f = hashLevel then fl.isEmpty
    else match tl with
      | [] => false
      | t :: tl =>
        if f = plusLevel then matchFilterLevels fl tl
        else if f ≠ t then false
        else matchFilterLevels fl tl

def matchFilter (filter topic : Bytes) : Bool :=
  if filter = topic then true
  else if !(filter.contains 0x2B || filter.contains 0x23) then false
  else
    let fl := levels filter
    let tl := levels topic
    if (tl.headD []).head? = some dollarByte && (fl.headD []).head? ≠ some dollarByte then false
    else matchFilterLevels fl tl

def segmentEnd (s : Bytes) (i : ℕ) : ℕ := i + ((s.drop i).takeWhile (· ≠ slashByte)).length

def segment (s : Bytes) (i : ℕ) : Bytes := (s.drop i).take (segmentEnd s i - i)

/-- The loop of `matchTopic` in `internal/pubsub/bus.go` over the indices `pi` and `ti`. -/
def segmentLoop (pattern topic : Bytes) : ℕ → ℕ → ℕ → Bool
  | 0, _, _ => false
  | fuel + 1, pi, ti =>
    if pi ≤ pattern.length then
      let pseg := segment pattern pi
      if pseg = hashLevel then true
      else if ti > topic.length then false
      else if pseg ≠ plusLevel && pseg ≠ segment topic ti then false
      else segmentLoop pattern topic fuel (segmentEnd pattern pi + 1) (segmentEnd topic ti + 1)
    else ti > topic.length

def busMatchTopic (pattern topic : Bytes) : Bool :=
  if dollarTopic pattern topic then false
  else if pattern = hashLevel || pattern = topic then true
  else segmentLoop pattern topic (pattern.length + 2) 0 0

/-- The loop of `virtualtrees.Match`, which cuts the first level off both texts. -/
def virtualMatchLoop : ℕ → Bytes → Bytes → Bool
  | 0, _, _ => false
  | fuel + 1, filter, topic =>
    let (fp, frest) := splitLevel filter
    let (tp, trest) := splitLevel topic
    if fp = hashLevel then frest.isNone
    else if fp ≠ plusLevel && fp ≠ tp then false
    else match frest, trest with
      | none, none => true
      | none, some _ => false
      | some frest, none => frest = hashLevel
      | some frest, some trest => virtualMatchLoop fuel frest trest

def virtualMatch (filter topic : Bytes) : Bool :=
  if dollarTopic filter topic then false
  else virtualMatchLoop (filter.length + 1) filter topic

/-- The loop of `sqlite.MatchTopic` over the levels of the pattern. -/
def sqliteLevels : List Bytes → List Bytes → Bool
  | [], tt => tt.isEmpty
  | p :: pp, tt =>
    if p = hashLevel then true
    else match tt with
      | [] => false
      | t :: tt =>
        if p = plusLevel then sqliteLevels pp tt
        else if p ≠ t then false
        else sqliteLevels pp tt

def sqliteMatchTopic (pattern topic : Bytes) : Bool :=
  if dollarTopic pattern topic then false
  else sqliteLevels (levels pattern) (levels topic)

/-- The loop of the two `matchTopic` functions, which cuts the first level off both texts. -/
@[grind =] def cutLoop : ℕ → Bytes → Bytes → Bool
  | 0, _, _ => false
  | fuel + 1, pattern, topic =>
    let (pSeg, prest) := splitLevel pattern
    let (tSeg, trest) := splitLevel topic
    if pSeg = hashLevel then true
    else if pSeg ≠ plusLevel && pSeg ≠ tSeg then false
    else match prest, trest with
      | some prest, some trest => cutLoop fuel prest trest
      | prest, trest => prest.isNone && trest.isNone

def cutMatch (pattern topic : Bytes) : Bool :=
  if dollarTopic pattern topic then false
  else if pattern = hashLevel then true
  else cutLoop (pattern.length + 1) pattern topic

/-- `matchTopic` of `internal/stores/memory/message_store.go`. -/
def memoryMatchTopic (pattern topic : Bytes) : Bool := cutMatch pattern topic

def archiveMatchTopic (pattern topic : Bytes) : Bool := cutMatch pattern topic

theorem matchFilterLevels_iff {fl tl : List Bytes} (h : HashLast fl) :
    matchFilterLevels fl tl = true ↔ Covers fl tl := by
  induction fl generalizing tl with
  | nil =>
    cases tl with
    | nil => exact iff_of_true rfl .done
    | cons t tl => exact iff_of_false (by simp [matchFilterLevels]) (by intro h; cases h)
  | cons f fl ih =>
    rw [matchFilterLevels.eq_def]
    dsimp only
    by_cases hh : f = hashLevel
    · rw [if_pos hh, h.1 hh, hh]
      exact iff_of_true rfl (.rest tl)
    rw [if_neg hh]
    cases tl with
    | nil => exact iff_of_false (by simp) (not_covers_nil hh)
    | cons t tl =>
      rw [covers_cons_iff hh, ← ih h.2]
      by_cases hp : f = plusLevel
      · simp [hp]
      · by_cases ht : f = t <;> simp [hp, ht]

theorem sqliteLevels_iff {pp tt : List Bytes} (h : HashLast pp) :
    sqliteLevels pp tt = true ↔ Covers pp tt := by
  induction pp generalizing tt with
  | nil =>
    cases tt with
    | nil => exact iff_of_true rfl .done
    | cons t tt => exact iff_of_false (by simp [sqliteLevels]) (by intro h; cases h)
  | cons p pp ih =>
    rw [sqliteLevels.eq_def]
    dsimp only
    by_cases hh : p = hashLevel
    · rw [if_pos hh, h.1 hh, hh]
      exact iff_of_true rfl (.rest tt)
    rw [if_neg hh]
    cases tt with
    | nil => exact iff_of_false (by simp) (not_covers_nil hh)
    | cons t tt =>
      rw [covers_cons_iff hh, ← ih h.2]
      by_cases hp : p = plusLevel
      · simp [hp]
      · by_cases ht : p = t <;> simp [hp, ht]

/-- The levels of a text from an index on; there are none after the end. -/
@[grind =] def restLevels (s : Bytes) (i : ℕ) : List Bytes := if i ≤ s.length then levels (s.drop i) else []

theorem restLevels_eq_nil_iff {s : Bytes} {i : ℕ} : restLevels s i = [] ↔ s.length < i := by
  rw [restLevels]
  split
  · rename_i h
    exact iff_of_false (levels_ne_nil _) (by omega)
  · rename_i h
    exact iff_of_true rfl (by omega)

theorem restLevels_step {s : Bytes} {i : ℕ} (h : i ≤ s.length) :
    restLevels s i = segment s i :: restLevels s (segmentEnd s i + 1) := by
  have hlen : (s.drop i).length = s.length - i := length_drop
  have htake : segment s i = (s.drop i).takeWhile (· ≠ slashByte) := by
    rw [segment, segmentEnd, Nat.add_sub_cancel_left]
    exact prefix_iff_eq_take.mp (List.takeWhile_prefix _) |>.symm
  have hsum := congrArg List.length (takeWhile_append_dropWhile (p := (· ≠ slashByte))
    (l := s.drop i))
  rw [length_append, hlen] at hsum
  rw [restLevels, if_pos h, levels_eq_splitLevel, splitLevel, htake]
  rcases hd : (s.drop i).dropWhile (· ≠ slashByte) with _ | ⟨b, rest⟩
  · rw [hd] at hsum
    have hnil : restLevels s (segmentEnd s i + 1) = [] := by
      rw [restLevels_eq_nil_iff, segmentEnd]
      simp only [length_nil] at hsum
      omega
    have hall : (s.drop i).takeWhile (· ≠ slashByte) = s.drop i := by
      have := takeWhile_append_dropWhile (p := (· ≠ slashByte)) (l := s.drop i)
      rwa [hd, append_nil] at this
    dsimp only
    rw [hnil, hall]
  · rw [hd, length_cons] at hsum
    have hrest : rest = s.drop (segmentEnd s i + 1) := by
      have happ := takeWhile_append_dropWhile (p := (· ≠ slashByte)) (l := s.drop i)
      rw [hd] at happ
      rw [segmentEnd]
      generalize (s.drop i).takeWhile (· ≠ slashByte) = w at happ ⊢
      rw [Nat.add_assoc, ← drop_drop, ← happ, ← drop_drop, drop_left]
      rfl
    have hle : segmentEnd s i + 1 ≤ s.length := by
      rw [segmentEnd]
      omega
    dsimp only
    rw [restLevels, if_pos hle, ← hrest]

theorem segmentEnd_ge (s : Bytes) (i : ℕ) : i ≤ segmentEnd s i := Nat.le_add_right _ _

/-- The loop over indices is the one over levels, with an iteration for each byte at most. -/
theorem segmentLoop_eq (pattern topic : Bytes) (fuel : ℕ) : ∀ pi ti, pattern.length + 1 < fuel + pi →
    segmentLoop pattern topic fuel pi ti =
      if 0 < fuel then matchSegments (restLevels pattern pi) (restLevels topic ti) else false := by
  induction fuel with
  | zero =>
    intro pi ti _
    rfl
  | succ fuel ih =>
    intro pi ti hfuel
    rw [segmentLoop, if_pos (Nat.succ_pos fuel)]
    by_cases hpi : pi ≤ pattern.length
    · have hge := segmentEnd_ge pattern pi
      have ih' := ih (segmentEnd pattern pi + 1) (segmentEnd topic ti + 1) (by omega)
      rw [if_pos (by omega)] at ih'
      rw [if_pos hpi, restLevels_step hpi, matchSegments.eq_def]
      dsimp only
      by_cases hh : segment pattern pi = hashLevel
      · rw [if_pos hh, if_pos hh]
      rw [if_neg hh, if_neg hh, ih']
      by_cases hti : ti > topic.length
      · rw [if_pos hti, (restLevels_eq_nil_iff).mpr hti]
      · rw [if_neg hti, restLevels_step (by omega : ti ≤ topic.length)]
    · rw [if_neg hpi, (restLevels_eq_nil_iff).mpr (by omega)]
      by_cases hti : ti > topic.length
      · rw [(restLevels_eq_nil_iff).mpr hti]
        simp [hti, matchSegments]
      · have hne : restLevels topic ti ≠ [] := fun h => hti ((restLevels_eq_nil_iff).mp h)
        rcases hts : restLevels topic ti with _ | ⟨t, ts⟩
        · exact absurd hts hne
        · simp [hti, matchSegments]

theorem busMatchTopic_eq (pattern topic : Bytes) :
    busMatchTopic pattern topic = matchMQTTTopic pattern topic := by
  have hloop := segmentLoop_eq pattern topic (pattern.length + 2) 0 0 (by omega)
  rw [if_pos (by omega)] at hloop
  rw [busMatchTopic, matchMQTTTopic, hloop]
  rfl

theorem covers_nil_iff {ls : List Bytes} : Covers ls [] ↔ ls = [] ∨ ls = [hashLevel] := by
  constructor
  · intro h
    cases h with
    | done => exact .inl rfl
    | rest => exact .inr rfl
  · rintro (rfl | rfl)
    · exact .done
    · exact .rest []

theorem levels_of_split {s l : Bytes} {r : Option Bytes} (h : splitLevel s = (l, r)) :
    levels s = l :: (r.map levels).getD [] := by
  rw [levels_eq_splitLevel, h]
  cases r <;> rfl

private theorem levels_eq_hash_iff {s : Bytes} : levels s = [hashLevel] ↔ s = hashLevel := by
  have h : levels hashLevel = [hashLevel] := by decide
  rw [← h]
  exact ⟨levels_injective, congrArg levels⟩

theorem level_test_iff {f t : Bytes} : (f ≠ plusLevel && f ≠ t) = false ↔ f = plusLevel ∨ f = t := by
  rw [Bool.and_eq_false_iff, decide_eq_false_iff_not, decide_eq_false_iff_not, not_not, not_not]

theorem not_covers_of_test {f t : Bytes} {fs ts : List Bytes} (hh : f ≠ hashLevel)
    (h : (f ≠ plusLevel && f ≠ t) = true) : ¬ Covers (f :: fs) (t :: ts) := by
  intro hc
  have := (level_test_iff).mpr ((covers_cons_iff hh).mp hc).1
  rw [h] at this
  cases this

theorem virtualMatchLoop_iff (fuel : ℕ) : ∀ filter topic : Bytes, filter.length < fuel →
    HashLast (levels filter) →
    (virtualMatchLoop fuel filter topic = true ↔ Covers (levels filter) (levels topic)) := by
  induction fuel with
  | zero =>
    intro filter topic h
    exact absurd h (Nat.not_lt_zero _)
  | succ fuel ih =>
    intro filter topic hfuel hlast
    rw [virtualMatchLoop]
    rcases hf : splitLevel filter with ⟨fp, frest⟩
    rcases ht : splitLevel topic with ⟨tp, trest⟩
    rw [levels_of_split hf] at hlast ⊢
    rw [levels_of_split ht]
    dsimp only
    by_cases hh : fp = hashLevel
    · rw [if_pos hh, hlast.1 hh, hh]
      refine iff_of_true ?_ (.rest _)
      cases frest with
      | none => rfl
      | some r => exact absurd (hlast.1 hh) (levels_ne_nil r)
    rw [if_neg hh]
    cases htest : (fp ≠ plusLevel && fp ≠ tp) with
    | true =>
      rw [if_pos rfl]
      exact iff_of_false (by decide) (not_covers_of_test hh htest)
    | false =>
      rw [if_neg (by decide), covers_cons_iff hh, and_iff_right ((level_test_iff).mp htest)]
      cases frest with
      | none =>
        cases trest with
        | none => exact iff_of_true rfl .done
        | some tr =>
          refine iff_of_false Bool.false_ne_true ?_
          intro hc
          rcases htr : levels tr with _ | ⟨u, us⟩
          · exact levels_ne_nil tr htr
          · rw [Option.map_some, Option.getD_some, htr] at hc
            cases hc
      | some fr =>
        have hlen := length_of_splitLevel hf
        cases trest with
        | none =>
          rw [Option.map_none, Option.getD_none, covers_nil_iff, Option.map_some,
            Option.getD_some, levels_eq_hash_iff]
          simp [levels_ne_nil]
        | some tr => exact ih fr tr (by omega) hlast.2

/-- The levels end in `#`, and those before it match the topic: the topic is the parent level. -/
def ParentLevels (fs ts : List Bytes) : Prop :=
  ∃ qs, qs ≠ [] ∧ fs = qs ++ [hashLevel] ∧ Covers qs ts

theorem parentLevels_cons_iff {f t : Bytes} {fs ts : List Bytes} (hh : f ≠ hashLevel) :
    ParentLevels (f :: fs) (t :: ts) ↔
      (f = plusLevel ∨ f = t) ∧ ((fs = [hashLevel] ∧ ts = []) ∨ ParentLevels fs ts) := by
  constructor
  · rintro ⟨qs, hne, heq, hc⟩
    cases qs with
    | nil => exact absurd rfl hne
    | cons q qs =>
      rw [cons_append] at heq
      obtain ⟨hq, hfs⟩ := List.cons.inj heq
      subst hq
      obtain ⟨hsame, hc⟩ := (covers_cons_iff hh).mp hc
      refine ⟨hsame, ?_⟩
      cases qs with
      | nil =>
        left
        refine ⟨hfs, ?_⟩
        cases hc
        rfl
      | cons q' qs => exact .inr ⟨q' :: qs, cons_ne_nil _ _, hfs, hc⟩
  · rintro ⟨hsame, ⟨rfl, rfl⟩ | ⟨qs, -, rfl, hc⟩⟩
    · exact ⟨[f], cons_ne_nil _ _, rfl, (covers_cons_iff hh).mpr ⟨hsame, .done⟩⟩
    · exact ⟨f :: qs, cons_ne_nil _ _, rfl, (covers_cons_iff hh).mpr ⟨hsame, hc⟩⟩

/-- The two functions that cut both texts miss the parent level of a `#`. -/
theorem cutLoop_iff (fuel : ℕ) : ∀ pattern topic : Bytes, pattern.length < fuel → HashLast (levels pattern) →
    (cutLoop fuel pattern topic = true ↔ Covers (levels pattern) (levels topic) ∧
      ¬ ParentLevels (levels pattern) (levels topic)) := by
  induction fuel with
  | zero =>
    intro pattern topic h
    exact absurd h (Nat.not_lt_zero _)
  | succ fuel ih =>
    intro pattern topic hfuel hlast
    rw [cutLoop]
    rcases hp : splitLevel pattern with ⟨pSeg, prest⟩
    rcases ht : splitLevel topic with ⟨tSeg, trest⟩
    rw [levels_of_split hp] at hlast ⊢
    rw [levels_of_split ht]
    dsimp only
    by_cases hh : pSeg = hashLevel
    · rw [if_pos hh, hlast.1 hh, hh]
      refine iff_of_true rfl ⟨.rest _, ?_⟩
      rintro ⟨qs, hne, heq, -⟩
      have hlen := congrArg List.length heq
      rw [length_append, length_singleton] at hlen
      exact hne (eq_nil_of_length_eq_zero (by omega))
    rw [if_neg hh]
    cases htest : (pSeg ≠ plusLevel && pSeg ≠ tSeg) with
    | true =>
      rw [if_pos rfl]
      exact iff_of_false (by decide) (fun h => not_covers_of_test hh htest h.1)
    | false =>
      have hsame := (level_test_iff).mp htest
      rw [if_neg (by decide), covers_cons_iff hh, parentLevels_cons_iff hh, and_iff_right hsame,
        and_iff_right hsame]
      cases prest with
      | none =>
        have hno : ∀ ts, ¬ ParentLevels [] ts := by
          rintro ts ⟨qs, -, heq, -⟩
          exact absurd heq (by simp)
        cases trest with
        | none =>
          refine iff_of_true rfl ⟨.done, ?_⟩
          rintro (⟨h, -⟩ | h)
          · cases h
          · exact hno _ h
        | some tr =>
          refine iff_of_false Bool.false_ne_true ?_
          rintro ⟨hc, -⟩
          rcases htr : levels tr with _ | ⟨u, us⟩
          · exact levels_ne_nil tr htr
          · rw [Option.map_some, Option.getD_some, htr] at hc
            cases hc
      | some pr =>
        have hlen := length_of_splitLevel hp
        cases trest with
        | none =>
          refine iff_of_false Bool.false_ne_true ?_
          rintro ⟨hc, hnot⟩
          rcases (covers_nil_iff).mp hc with h | h
          · exact levels_ne_nil pr h
          · exact hnot (.inl ⟨h, rfl⟩)
        | some tr =>
          have hne : (levels tr) ≠ [] := levels_ne_nil tr
          rw [Option.map_some, Option.getD_some, Option.map_some, Option.getD_some]
          dsimp only
          rw [ih pr tr (by omega) hlast.2]
          simp [hne]

end MonsterMQ.Topics
