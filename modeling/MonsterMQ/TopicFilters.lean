import MonsterMQ.AuthPlaceholders

/-!
# Topic filters

The filter functions of `internal/mqtt/topics.go`: which filters are valid, which are shared,
and which topics a filter matches, against the matching rules of MQTT.
-/

namespace MonsterMQ.Topics

open LittleEndian PeerLink Auth List

@[grind =] def upperByte (b : UInt8) : UInt8 := if 0x61 ≤ b ∧ b ≤ 0x7A then b - 0x20 else b

/-- `strings.EqualFold` against an ASCII text: beside the letters of the other case, the long s
and the Kelvin sign fold to ASCII letters. -/
def equalFold : Bytes → Bytes → Bool
  | s, [] => s.isEmpty
  | s, c :: t =>
    match s with
    | [] => false
    | 0xC5 :: 0xBF :: r => upperByte c = 0x53 && equalFold r t
    | 0xE2 :: 0x84 :: 0xAA :: r => upperByte c = 0x4B && equalFold r t
    | b :: r => b < 0x80 && upperByte b = upperByte c && equalFold r t

@[grind =] def sharePrefix : Bytes := ascii "$SHARE"
def sysPrefix : Bytes := ascii "$SYS"

/-- The particle at depth 0 or 1, and whether a separator follows it. -/
@[grind =] def isolateParticle (filter : Bytes) (d : Bool) : Bytes × Bool :=
  match splitLevel filter with
  | (particle, none) => (particle, false)
  | (particle, some rest) =>
    if !d then (particle, true)
    else match splitLevel rest with
      | (particle, none) => (particle, false)
      | (particle, some _) => (particle, true)

@[grind =] def isSharedFilter (filter : Bytes) : Bool := equalFold (isolateParticle filter false).1 sharePrefix

def splitShared (filter : Bytes) : Bytes × Bytes :=
  match splitLevel filter with
  | (_, none) => ([], [])
  | (_, some rest) =>
    match splitLevel rest with
    | (_, none) => (rest, [])
    | (group, some plain) => (group, plain)

@[grind =] def isWildcardFilter (filter : Bytes) : Bool := filter.contains 0x2B || filter.contains 0x23

/-- The loop of `IsValidFilter`: wildcards must occupy an entire level. -/
def wildcardsWhole : List Bytes → Bool
  | [] => true
  | level :: ls =>
    if (level.contains 0x2B && level ≠ plusLevel) || (level.contains 0x23 && level ≠ hashLevel) then false
    else wildcardsWhole ls

/-- The checks of `IsValidFilter` on wildcards and the share prefix. -/
@[grind =] def filterShape (filter : Bytes) : Bool :=
  let wildhash := filter.idxOf 0x23
  if wildhash < filter.length && wildhash ≠ filter.length - 1 then false
  else
    let (name, hasNext) := isolateParticle filter false
    if !hasNext && equalFold name sharePrefix then false
    else if hasNext && equalFold name sharePrefix &&
        (let (group, hasNext) := isolateParticle filter true
         !hasNext || group.isEmpty || group.contains 0x2B || group.contains 0x23 ||
           filter.length ≤ name.length + 1 + group.length + 1) then false
    else wildcardsWhole (levels filter)

@[grind =] def isValidFilter (filter : Bytes) (forPublish : Bool) : Bool :=
  if !forPublish && filter.isEmpty then false
  else if forPublish then
    if filter.contains 0x2B || filter.contains 0x23 then false
    else if filter.isEmpty || (filter.head? ≠ some dollarByte && filter.head? ≠ some slashByte) then true
    else if sysPrefix.length ≤ filter.length && equalFold (filter.take sysPrefix.length) sysPrefix then false
    else filterShape filter
  else filterShape filter

@[grind =] def matchSegments : List Bytes → List Bytes → Bool
  | [], ts => ts.isEmpty
  | pseg :: ps, ts =>
    if pseg = hashLevel then true
    else match ts with
      | [] => false
      | tseg :: ts => if pseg ≠ plusLevel && pseg ≠ tseg then false else matchSegments ps ts

@[grind =] def matchMQTTTopic (pattern topic : Bytes) : Bool :=
  if topic.head? = some dollarByte && (pattern.head? = some 0x2B || pattern.head? = some 0x23) then false
  else if pattern = hashLevel || pattern = topic then true
  else matchSegments (levels pattern) (levels topic)

/-- The levels of a filter match those of a topic: `+` stands for one level, `#` for any number
of levels, the one before it included. -/
inductive Covers : List Bytes → List Bytes → Prop where
  | done : Covers [] []
  | rest (ts : List Bytes) : Covers [hashLevel] ts
  | any (t : Bytes) {fs ts : List Bytes} : Covers fs ts → Covers (plusLevel :: fs) (t :: ts)
  | same (l : Bytes) {fs ts : List Bytes} : Covers fs ts → Covers (l :: fs) (l :: ts)

/-- The matching rules of MQTT: a leading wildcard matches no topic that starts with `$`. -/
def Matches (filter topic : Bytes) : Prop :=
  Covers (levels filter) (levels topic) ∧
    (topic.head? = some dollarByte →
      (levels filter).head? ≠ some plusLevel ∧ (levels filter).head? ≠ some hashLevel)

theorem covers_iff {f : Bytes} {fs : List Bytes} {ts : List Bytes} : Covers (f :: fs) ts ↔
    (f = hashLevel ∧ fs = []) ∨
      ∃ t us, ts = t :: us ∧ (f = plusLevel ∨ f = t) ∧ Covers fs us := by
  constructor
  · intro h
    cases h with
    | rest => exact .inl ⟨rfl, rfl⟩
    | any t h => exact .inr ⟨t, _, rfl, .inl rfl, h⟩
    | same _ h => exact .inr ⟨_, _, rfl, .inr rfl, h⟩
  · rintro (⟨rfl, rfl⟩ | ⟨t, us, rfl, rfl | rfl, h⟩)
    · exact .rest ts
    · exact .any t h
    · exact .same f h

instance decidableCovers : (fs ts : List Bytes) → Decidable (Covers fs ts)
  | [], [] => .isTrue .done
  | [], _ :: _ => .isFalse (by intro h; cases h)
  | f :: fs, [] => decidable_of_iff (f = hashLevel ∧ fs = []) (by simp [covers_iff])
  | f :: fs, t :: ts =>
    have := decidableCovers fs ts
    decidable_of_iff ((f = hashLevel ∧ fs = []) ∨ (f = plusLevel ∨ f = t) ∧ Covers fs ts)
      (by simp [covers_iff])

instance decidableMatches (filter topic : Bytes) : Decidable (Matches filter topic) :=
  inferInstanceAs (Decidable (_ ∧ _))

structure TopicName (topic : Bytes) : Prop where
  nonempty : topic ≠ []
  concrete : Concrete topic

structure WholeLevels (ls : List Bytes) : Prop where
  hashLast : HashLast ls
  plus : ∀ l ∈ ls, 0x2B ∈ l → l = plusLevel
  hash : ∀ l ∈ ls, 0x23 ∈ l → l = hashLevel

theorem WholeLevels.tail {l : Bytes} {ls : List Bytes} (h : WholeLevels (l :: ls)) : WholeLevels ls :=
  ⟨h.hashLast.2, fun k hk => h.plus k (mem_cons_of_mem _ hk),
    fun k hk => h.hash k (mem_cons_of_mem _ hk)⟩

theorem wildcardsWhole_iff {ls : List Bytes} : wildcardsWhole ls = true ↔
      ∀ l ∈ ls, (0x2B ∈ l → l = plusLevel) ∧ (0x23 ∈ l → l = hashLevel) := by
  induction ls with
  | nil => simp [wildcardsWhole]
  | cons l ls ih =>
    rw [wildcardsWhole, forall_mem_cons]
    split
    · rename_i h
      simp only [Bool.or_eq_true, Bool.and_eq_true, contains_iff_mem, decide_eq_true_eq] at h
      constructor
      · intro hf
        cases hf
      · rintro ⟨hl, -⟩
        rcases h with ⟨hm, hne⟩ | ⟨hm, hne⟩
        · exact absurd (hl.1 hm) hne
        · exact absurd (hl.2 hm) hne
    · rename_i h
      simp only [Bool.or_eq_true, Bool.and_eq_true, contains_iff_mem, decide_eq_true_eq, not_or,
        not_and, not_not] at h
      rw [ih]
      constructor
      · exact fun hr => ⟨h, hr⟩
      · exact fun hr => hr.2

def HashEnd (s : Bytes) : Prop := ∀ pre suf, s = pre ++ 0x23 :: suf → suf = []

variable {s filter : Bytes}

theorem hashEnd_of_idxOf (h : ¬ (s.idxOf 0x23 < s.length ∧ s.idxOf 0x23 ≠ s.length - 1)) : HashEnd s := by
  rintro pre suf rfl
  have hle : (pre ++ 0x23 :: suf).idxOf 0x23 ≤ pre.length := by
    rw [idxOf_append]
    split
    · rename_i hm
      exact (idxOf_lt_length_of_mem hm).le
    · simp
  simp only [length_append, length_cons] at h
  have : suf.length = 0 := by omega
  exact length_eq_zero_iff.mp this

theorem HashEnd.tail {b : UInt8} (h : HashEnd (b :: s)) : HashEnd s :=
  fun pre suf hs => h (b :: pre) suf (by rw [hs]; rfl)

theorem hashLast_levels (h : HashEnd s) : HashLast (levels s) := by
  induction s with
  | nil => exact ⟨by decide, trivial⟩
  | cons b s ih =>
    have ih' := ih h.tail
    rw [levels]
    split
    · exact ⟨fun hl => absurd hl (by decide), ih'⟩
    · rcases hls : levels s with _ | ⟨l, ls⟩
      · exact absurd hls (levels_ne_nil s)
      · rw [hls] at ih'
        refine ⟨?_, ih'.2⟩
        intro hl
        have hb : b = 0x23 := (List.cons.inj hl).1
        have hs : s = [] := h [] s (by rw [hb]; rfl)
        rw [hs] at hls
        exact (List.cons.inj hls).2.symm

theorem wholeLevels_of_filterShape (h : filterShape filter = true) : WholeLevels (levels filter) := by
  simp only [filterShape] at h
  split at h
  · cases h
  · rename_i hh
    split at h
    · cases h
    · split at h
      · cases h
      · have hw := (wildcardsWhole_iff).mp h
        simp only [Bool.and_eq_true, decide_eq_true_eq] at hh
        exact ⟨hashLast_levels (hashEnd_of_idxOf hh), fun l hl => (hw l hl).1, fun l hl => (hw l hl).2⟩

theorem filterShape_of_valid (h : isValidFilter filter false = true) :
    filter ≠ [] ∧ filterShape filter = true := by
  simp only [isValidFilter, Bool.not_false, Bool.true_and, List.isEmpty_iff] at h
  split at h
  · cases h
  · rename_i hne
    exact ⟨hne, by simpa using h⟩

theorem wholeLevels_of_valid (h : isValidFilter filter false = true) :
    WholeLevels (levels filter) := wholeLevels_of_filterShape (filterShape_of_valid h).2

structure SharedParts (filter : Bytes) : Prop where
  levels : levels filter =
    (splitLevel filter).1 :: (splitShared filter).1 :: PeerLink.levels (splitShared filter).2
  group : (splitShared filter).1 ≠ []
  plain : (splitShared filter).2 ≠ []

theorem length_of_splitLevel {l r : Bytes} (h : splitLevel s = (l, some r)) :
    s.length = l.length + 1 + r.length := by
  have hs : s = s.takeWhile (· ≠ slashByte) ++ s.dropWhile (· ≠ slashByte) :=
    takeWhile_append_dropWhile.symm
  simp only [splitLevel] at h
  split at h
  · cases h
  · rename_i b rest hd
    simp only [Prod.mk.injEq, Option.some.injEq] at h
    rw [hd] at hs
    have hlen := congrArg List.length hs
    simp only [length_append, length_cons, h.1, h.2] at hlen
    omega

theorem sharedParts_of_valid (h : isValidFilter filter false = true)
    (hs : isSharedFilter filter = true) : SharedParts filter := by
  have h' := (filterShape_of_valid h).2
  simp only [filterShape] at h'
  split at h'
  · cases h'
  · rcases hsl : splitLevel filter with ⟨name, _ | rest⟩
    · simp only [isSharedFilter, isolateParticle, hsl] at hs
      simp [isolateParticle, hsl, hs] at h'
    · simp only [isSharedFilter, isolateParticle, hsl, Bool.not_false, ↓reduceIte] at hs
      rcases hsr : splitLevel rest with ⟨group, _ | plain⟩
      · simp [isolateParticle, hsl, hsr, hs] at h'
      · simp only [isolateParticle, hsl, hsr, hs, Bool.not_false, ↓reduceIte, Bool.not_true,
          Bool.false_and, Bool.false_eq_true, Bool.true_and, Bool.false_or, Bool.or_eq_true,
          List.isEmpty_iff, decide_eq_true_eq] at h'
        split at h'
        · cases h'
        · rename_i hn
          simp only [not_or] at hn
          have hf := length_of_splitLevel hsl
          have hr := length_of_splitLevel hsr
          have hsplit : splitShared filter = (group, plain) := by simp only [splitShared, hsl, hsr]
          have hlen : 0 < plain.length := by
            have := hn.2
            omega
          refine ⟨?_, ?_, ?_⟩
          · rw [levels_eq_splitLevel, hsl, hsplit]
            simp only
            rw [levels_eq_splitLevel, hsr]
          · rw [hsplit]
            exact hn.1.1.1
          · rw [hsplit]
            exact ne_nil_of_length_pos hlen

theorem wholeLevels_plain (h : isValidFilter filter false = true)
    (hs : isSharedFilter filter = true) : WholeLevels (levels (splitShared filter).2) := by
  have hw := wholeLevels_of_valid h
  rw [(sharedParts_of_valid h hs).levels] at hw
  exact hw.tail.tail

theorem covers_self (ls : List Bytes) : Covers ls ls := by
  induction ls with
  | nil => exact .done
  | cons l ls ih => exact .same l ih

theorem matchSegments_iff {fs ts : List Bytes} (hf : HashLast fs) (ht : hashLevel ∉ ts) :
    matchSegments fs ts = true ↔ Covers fs ts := by
  induction fs generalizing ts with
  | nil =>
    cases ts with
    | nil => exact ⟨fun _ => .done, fun _ => rfl⟩
    | cons t ts =>
      constructor
      · intro h
        cases h
      · intro h
        cases h
  | cons f fs ih =>
    by_cases hh : f = hashLevel
    · subst hh
      rw [hf.1 rfl]
      constructor
      · exact fun _ => .rest ts
      · intro _
        simp [matchSegments.eq_def]
    · cases ts with
      | nil =>
        constructor
        · intro h
          simp [matchSegments, hh] at h
        · intro h
          cases h
          exact absurd rfl hh
      | cons t ts =>
        simp only [mem_cons, not_or] at ht
        have ih' := ih hf.2 ht.2
        rw [matchSegments.eq_def]
        simp only [hh, ↓reduceIte]
        split
        · rename_i hne
          simp only [Bool.and_eq_true, decide_eq_true_eq] at hne
          constructor
          · intro h
            cases h
          · intro h
            cases h with
            | rest => exact absurd rfl hh
            | any => exact absurd rfl hne.1
            | same => exact absurd rfl hne.2
        · rename_i hne
          simp only [Bool.and_eq_true, decide_eq_true_eq, not_and, not_not] at hne
          rw [ih']
          constructor
          · intro h
            by_cases hp : f = plusLevel
            · subst hp
              exact .any t h
            · rw [hne hp]
              exact .same t h
          · intro h
            cases h with
            | rest => exact absurd rfl hh
            | any _ h | same _ h => exact h

private theorem hashLevel_not_mem_levels {topic : Bytes} (h : Concrete topic) : hashLevel ∉ levels topic :=
  fun hm => h.1 (mem_of_mem_levels hm (by decide))

theorem head_eq_of_head_levels {b : UInt8} (h : (levels s).head? = some [b]) : s.head? = some b := by
  cases s with
  | nil => simp [levels] at h
  | cons c s =>
    rw [levels] at h
    split at h
    · simp at h
    · split at h
      · simpa using h
      · simp only [List.head?_cons, Option.some.injEq] at h
        simp [(List.cons.inj h).1]

theorem head_levels_of_head (hw : WholeLevels (levels s)) {b : UInt8}
    (hb : b = 0x2B ∨ b = 0x23) (h : s.head? = some b) : (levels s).head? = some [b] := by
  cases s with
  | nil => cases h
  | cons c s =>
    simp only [List.head?_cons, Option.some.injEq] at h
    subst h
    have hne : c ≠ slashByte := by rcases hb with rfl | rfl <;> decide
    rw [levels, if_neg hne] at hw ⊢
    rcases hls : levels s with _ | ⟨l, ls⟩
    · exact absurd hls (levels_ne_nil s)
    · rw [hls] at hw
      simp only at hw ⊢
      have hm : c :: l ∈ (c :: l) :: ls := mem_cons_self
      have hl : c :: l = [c] := by
        rcases hb with rfl | rfl
        · exact hw.plus _ hm mem_cons_self
        · exact hw.hash _ hm mem_cons_self
      rw [hl, List.head?_cons]

theorem matchMQTTTopic_iff {topic : Bytes} (hw : WholeLevels (levels filter))
    (ht : Concrete topic) : matchMQTTTopic filter topic = true ↔ Matches filter topic := by
  have hseg := matchSegments_iff hw.hashLast (hashLevel_not_mem_levels ht)
  have hp : filter.head? = some 0x2B ↔ (levels filter).head? = some plusLevel :=
    ⟨head_levels_of_head hw (.inl rfl), head_eq_of_head_levels⟩
  have hh : filter.head? = some 0x23 ↔ (levels filter).head? = some hashLevel :=
    ⟨head_levels_of_head hw (.inr rfl), head_eq_of_head_levels⟩
  unfold matchMQTTTopic Matches
  split
  · rename_i hd
    simp only [Bool.and_eq_true, Bool.or_eq_true, decide_eq_true_eq, hp, hh] at hd
    constructor
    · intro h
      cases h
    · rintro ⟨-, h⟩
      exact absurd hd.2 (not_or.mpr (h hd.1))
  · rename_i hd
    simp only [Bool.and_eq_true, Bool.or_eq_true, decide_eq_true_eq, hp, hh, not_and, not_or] at hd
    split
    · rename_i he
      simp only [Bool.or_eq_true, decide_eq_true_eq] at he
      refine iff_of_true rfl ⟨?_, hd⟩
      rcases he with rfl | rfl
      · exact Covers.rest _
      · exact covers_self _
    · rw [hseg]
      exact ⟨fun h => ⟨h, hd⟩, fun h => h.1⟩

theorem matches_exact_iff {topic : Bytes} (hf : isWildcardFilter filter = false)  :
    Matches filter topic ↔ filter = topic := by
  have hc : Concrete filter := by
    simp only [isWildcardFilter, Bool.or_eq_false_iff] at hf
    exact ⟨by simpa using hf.2, by simpa using hf.1⟩
  have hlv := concreteLevels_levels hc
  have hplus : plusLevel ∉ levels filter := fun hm => (hlv _ hm).2.2 (by decide)
  have hhash : hashLevel ∉ levels filter := fun hm => (hlv _ hm).2.1 (by decide)
  have hcov : ∀ {fs ts : List Bytes}, plusLevel ∉ fs → hashLevel ∉ fs → Covers fs ts → fs = ts := by
    intro fs ts hp hh h
    induction h with
    | done => rfl
    | rest => exact absurd mem_cons_self hh
    | any => exact absurd mem_cons_self hp
    | same l _ ih =>
      simp only [mem_cons, not_or] at hp hh
      rw [ih hp.2 hh.2]
  constructor
  · rintro ⟨h, -⟩
    exact levels_injective (hcov hplus hhash h)
  · rintro rfl
    refine ⟨covers_self _, fun _ => ⟨?_, ?_⟩⟩
    · exact fun h => hplus (mem_of_mem_head? h)
    · exact fun h => hhash (mem_of_mem_head? h)

end MonsterMQ.Topics
