import MonsterMQ.JsonText
import MonsterMQ.KafkaProduce
import MonsterMQ.KafkaOrchestrator
import MonsterMQ.KafkaQueue
import Mathlib.Data.List.Chain
import Mathlib.Data.List.DropRight
import Mathlib.Tactic.IntervalCases

/-!
# The tables of the streams

The configuration of a Kafka server (`internal/kafka/config.go`) and the tables that its streams are
stored in. `TableSuffix` makes the suffix of a table from the name of a stream, and the store makes
one more from the suffix.
-/

namespace MonsterMQ.Kafka

open LittleEndian Auth JsonText KeyedGroups List

structure StreamMapping where
  streamName : Bytes
  topicFilter : Bytes
  retentionHours : ℤ
  storeType : Option Bytes
  allowWrite : Bool
  deriving DecidableEq, Repr

structure ServerConfig where
  name : Bytes
  port : ℤ
  storeType : Option Bytes
  streams : List StreamMapping
  deriving DecidableEq, Repr

def isNameByte (b : UInt8) : Bool :=
  (97 ≤ b && b ≤ 122) || (65 ≤ b && b ≤ 90) || (48 ≤ b && b ≤ 57) || b = 95 || b = 45

/-- The loop over the streams, with the names that were seen. -/
def validateStreams : List Bytes → List StreamMapping → List Bytes
  | _, [] => []
  | seen, s :: rest =>
    if s.streamName.isEmpty ∨ s.topicFilter.isEmpty then
      ascii "stream needs streamName and topicFilter" :: validateStreams seen rest
    else
      (if s.streamName ∈ seen then [ascii "duplicate streamName " ++ s.streamName] else []) ++
        (if s.retentionHours < 1 then [ascii "retentionHours must be >= 1 for " ++ s.streamName] else []) ++
        validateStreams (s.streamName :: seen) rest

def ServerConfig.validate (c : ServerConfig) : List Bytes :=
  (if c.name ≠ [] ∧ c.name.all isNameByte then [] else [ascii "name must match ^[a-zA-Z0-9_-]+$"]) ++
    (if c.port < 1 ∨ c.port > 65535 then [ascii "port must be 1-65535"] else []) ++
    validateStreams [] c.streams

theorem nodup_of_validateStreams {seen : List Bytes} {l : List StreamMapping} (h : validateStreams seen l = []) :
    (l.map StreamMapping.streamName).Nodup ∧ ∀ s ∈ l, s.streamName ∉ seen := by
  induction l generalizing seen with
  | nil => exact ⟨nodup_nil, fun _ hs => absurd hs not_mem_nil⟩
  | cons s l ih =>
    rw [validateStreams] at h
    split at h
    · cases h
    · rw [append_eq_nil_iff, append_eq_nil_iff] at h
      obtain ⟨⟨hseen, -⟩, hrest⟩ := h
      obtain ⟨hnodup, hnew⟩ := ih hrest
      have hs : s.streamName ∉ seen := by
        intro hmem
        rw [if_pos hmem] at hseen
        cases hseen
      refine ⟨nodup_cons.mpr ⟨?_, hnodup⟩, ?_⟩
      · intro hmem
        obtain ⟨s', hs', heq⟩ := mem_map.mp hmem
        exact hnew s' hs' (heq ▸ mem_cons_self)
      · intro s' hs'
        rcases mem_cons.mp hs' with rfl | hs'
        · exact hs
        · exact fun hmem => hnew s' hs' (mem_cons_of_mem _ hmem)

def StreamMapping.toStream (m : StreamMapping) : Stream := ⟨m.streamName, m.topicFilter, m.allowWrite⟩

/-- The streams of `New`, which refuses what `Validate` objects to. -/
def ServerConfig.new (c : ServerConfig) (h : c.validate = []) : Server where
  streams := c.streams.map StreamMapping.toStream
  names := by
    rw [ServerConfig.validate, append_eq_nil_iff] at h
    rw [map_map]
    exact (nodup_of_validateStreams h.2).1

def ServerConfig.mapping (c : ServerConfig) (st : Stream) : Option StreamMapping :=
  c.streams.find? fun m => m.streamName = st.streamName

def ServerConfig.resolvedType (c : ServerConfig) (m : StreamMapping) : Option Bytes :=
  let storeType := if m.storeType.getD [] = [] then c.storeType else m.storeType
  if storeType = some [] then none else storeType

/-- `strings.ToLower` of a rune, for what becomes a letter or a digit: the dotted capital I and the
Kelvin sign do, too. -/
def lowerAlnum (c : Char) : Option Char :=
  if 'a' ≤ c ∧ c ≤ 'z' ∨ '0' ≤ c ∧ c ≤ '9' then some c
  else if 'A' ≤ c ∧ c ≤ 'Z' then some (Char.ofNat (c.toNat + 32))
  else if c = '\u0130' then some 'i'
  else if c = '\u212a' then some 'k'
  else none

/-- A rune of the name in lower case, a `_` where it is no letter and no digit. -/
@[grind =] def suffixChar (r : Option Char) : Char := (r.bind lowerAlnum).getD '_'

/-- Runs of `_` become one; `last` tells that one was written before. -/
@[grind =] def collapse : Bool → List Char → List Char
  | _, [] => []
  | last, c :: s =>
    if c = '_' then if last then collapse true s else c :: collapse true s
    else c :: collapse false s

def trim (s : List Char) : List Char := (s.dropWhile (· = '_')).rdropWhile (· = '_')

@[grind =] def orDefault (s : List Char) : Bytes := if s.isEmpty then ascii "default" else utf8 s

@[grind =]
def tableSuffix (name : Bytes) : Bytes := orDefault (trim (collapse false ((runes name).map suffixChar)))

/-- The loop of `SanitizeKafkaSuffix` over the runes in lower case. -/
def sanitizeLoop : Bool → List (Option Char) → List Char
  | _, [] => []
  | lastUnderscore, r :: rs =>
    match r.bind lowerAlnum with
    | some c => c :: sanitizeLoop false rs
    | none => if lastUnderscore then sanitizeLoop true rs else '_' :: sanitizeLoop true rs

def sanitizeKafkaSuffix (name : Bytes) : Bytes := orDefault (trim (sanitizeLoop false (runes name)))

def kafkaQueueNames (suffix : Bytes) : Bytes × Bytes :=
  if suffix.isEmpty then (ascii "kafka_queue", ascii "kafka_offsets")
  else (ascii "kafka_queue_" ++ sanitizeKafkaSuffix suffix, ascii "kafka_offsets_" ++ sanitizeKafkaSuffix suffix)

def isAlnum (c : Char) : Prop := 'a' ≤ c ∧ c ≤ 'z' ∨ '0' ≤ c ∧ c ≤ '9'
deriving Decidable

theorem isAlnum_of_lowerAlnum {c d : Char} (h : lowerAlnum c = some d) : isAlnum d := by
  rw [lowerAlnum] at h
  split at h
  · cases h
    assumption
  · split at h
    · rename_i hupper
      cases h
      have hlow : 65 ≤ c.toNat := hupper.1
      have hhigh : c.toNat ≤ 90 := hupper.2
      left
      interval_cases hc : c.toNat <;> decide
    · split at h
      · cases h
        decide
      · split at h
        · cases h
          decide
        · cases h

private theorem ne_underscore_of_isAlnum {c : Char} (h : isAlnum c) : c ≠ '_' := by
  rintro rfl
  revert h
  decide

private theorem suffixChar_cases (r : Option Char) : suffixChar r = '_' ∨ isAlnum (suffixChar r) := by
  rw [suffixChar]
  cases h : r.bind lowerAlnum with
  | none => exact .inl rfl
  | some d =>
    obtain ⟨c, -, hd⟩ := Option.bind_eq_some_iff.mp h
    exact .inr (isAlnum_of_lowerAlnum hd)

private theorem suffixChar_some {c : Char} (h : c = '_' ∨ isAlnum c) : suffixChar (some c) = c := by
  rcases h with rfl | h
  · decide
  · have hc : lowerAlnum c = some c := if_pos h
    rw [suffixChar, Option.bind_some, hc, Option.getD_some]

private theorem sanitizeLoop_eq (rs : List (Option Char)) : ∀ last,
    sanitizeLoop last rs = collapse last (rs.map suffixChar) := by
  induction rs with
  | nil => exact fun _ => rfl
  | cons r rs ih =>
    intro last
    rw [sanitizeLoop, map_cons, collapse, suffixChar]
    cases h : r.bind lowerAlnum with
    | none => rw [Option.getD_none, if_pos rfl, ← ih]
    | some d =>
      obtain ⟨c, -, hd⟩ := Option.bind_eq_some_iff.mp h
      rw [Option.getD_some, if_neg (ne_underscore_of_isAlnum (isAlnum_of_lowerAlnum hd)), ih]

private theorem sanitizeKafkaSuffix_eq (name : Bytes) : sanitizeKafkaSuffix name = tableSuffix name := by
  rw [sanitizeKafkaSuffix, sanitizeLoop_eq, tableSuffix]

private theorem collapse_subset (s : List Char) : ∀ last, collapse last s ⊆ s := by
  induction s with
  | nil => exact fun _ => List.Subset.refl _
  | cons c s ih =>
    intro last
    rw [collapse]
    split
    · split
      · exact subset_cons_of_subset _ (ih true)
      · exact cons_subset_cons _ (ih true)
    · exact cons_subset_cons _ (ih false)

def Single (s : List Char) : Prop := s.IsChain fun a b => a ≠ '_' ∨ b ≠ '_'

theorem single_collapse (s : List Char) : ∀ last,
    Single (collapse last s) ∧ (last = true → (collapse last s).head? ≠ some '_') := by
  induction s with
  | nil => exact fun _ => ⟨List.IsChain.nil, fun _ => by simp [collapse]⟩
  | cons c s ih =>
    intro last
    rw [collapse]
    split
    · rename_i hc
      obtain ⟨hchain, hhead⟩ := ih true
      cases last with
      | true => exact ⟨hchain, hhead⟩
      | false =>
        refine ⟨?_, fun h => absurd h (by decide)⟩
        rw [if_neg (by decide)]
        refine isChain_cons.mpr ⟨?_, hchain⟩
        rintro y hy
        right
        rintro rfl
        exact hhead rfl hy
    · rename_i hc
      refine ⟨isChain_cons.mpr ⟨fun y _ => .inl hc, (ih false).1⟩, fun _ h => ?_⟩
      exact hc (Option.some.inj h)

private theorem collapse_eq_self {s : List Char} (h : Single s) : ∀ last, (last = true → s.head? ≠ some '_') →
    collapse last s = s := by
  induction s with
  | nil => exact fun _ _ => rfl
  | cons c s ih =>
    intro last hlast
    obtain ⟨hhead, htail⟩ := isChain_cons.mp h
    rw [collapse]
    split
    · rename_i hc
      have hs : collapse true s = s := by
        apply ih htail
        intro _ hsome
        rcases hhead _ hsome with hne | hne
        · exact hne hc
        · exact hne rfl
      cases last with
      | true => exact absurd (congrArg some hc) (hlast rfl)
      | false => rw [if_neg (by decide), hs]
    · rw [ih htail false fun h => absurd h (by decide)]

theorem trim_subsegment (s : List Char) : trim s <:+: s :=
  ((List.rdropWhile_prefix _ _).isInfix).trans (dropWhile_suffix _).isInfix

private theorem head_dropWhile (s : List Char) : (s.dropWhile (· = '_')).head? ≠ some '_' := by
  intro h
  have hnot := List.head?_dropWhile_not (fun c => decide (c = '_')) s
  rw [h] at hnot
  exact absurd hnot (by decide)

private theorem trim_trim (s : List Char) : trim (trim s) = trim s := by
  have hhead : (trim s).dropWhile (· = '_') = trim s := by
    cases htrim : trim s with
    | nil => rfl
    | cons c t =>
      have hpre : trim s <+: s.dropWhile (· = '_') := rdropWhile_prefix _ _
      rw [htrim] at hpre
      obtain ⟨u, hu⟩ := hpre
      have hne := head_dropWhile s
      rw [← hu, cons_append, List.head?_cons] at hne
      rw [dropWhile_cons_of_neg]
      simpa using hne
  rw [trim, hhead, trim, rdropWhile_idempotent]

private theorem ascii_default : ascii "default" = utf8 ['d', 'e', 'f', 'a', 'u', 'l', 't'] := by decide

/-- A suffix is the text of letters, digits and single `_` between them. -/
theorem tableSuffix_text (name : Bytes) : ∃ s, tableSuffix name = utf8 s ∧ s ≠ [] ∧
    (∀ c ∈ s, c = '_' ∨ isAlnum c) ∧ Single s ∧ trim s = s := by
  rw [tableSuffix, orDefault]
  split
  · refine ⟨_, ascii_default, cons_ne_nil _ _, ?_, ?_, by decide⟩
    · intro c hc
      right
      simp only [mem_cons, not_mem_nil, or_false] at hc
      rcases hc with rfl | rfl | rfl | rfl | rfl | rfl | rfl <;> decide
    · rw [Single]
      decide
  · rename_i hne
    refine ⟨_, rfl, by simpa using hne, ?_, ?_, trim_trim _⟩
    · intro c hc
      obtain ⟨r, -, rfl⟩ := mem_map.mp (collapse_subset _ _ ((trim_subsegment _).subset hc))
      exact suffixChar_cases r
    · exact List.IsChain.infix (single_collapse _ false).1 (trim_subsegment _)

private theorem sanitizeKafkaSuffix_tableSuffix (name : Bytes) :
    sanitizeKafkaSuffix (tableSuffix name) = tableSuffix name := by
  obtain ⟨s, hs, hne, hchars, hsingle, htrim⟩ := tableSuffix_text name
  rw [sanitizeKafkaSuffix_eq, hs, tableSuffix, runes_utf8, map_map]
  have hmap : s.map (suffixChar ∘ some) = s := by
    conv_rhs => rw [← map_id s]
    exact map_congr_left fun c hc => suffixChar_some (hchars c hc)
  rw [hmap, collapse_eq_self hsingle false fun h => absurd h (by decide), htrim, orDefault,
    if_neg (by simpa using hne)]

private theorem tableSuffix_ne_nil (name : Bytes) : tableSuffix name ≠ [] := by
  obtain ⟨s, hs, hne, -⟩ := tableSuffix_text name
  rw [hs]
  obtain ⟨c, t, rfl⟩ := exists_cons_of_ne_nil hne
  intro h
  have hr := runes_utf8 (c :: t)
  rw [h, runes_nil] at hr
  cases hr

theorem kafkaQueueNames_tableSuffix (name : Bytes) : kafkaQueueNames (tableSuffix name) =
    (ascii "kafka_queue_" ++ tableSuffix name, ascii "kafka_offsets_" ++ tableSuffix name) := by
  rw [kafkaQueueNames, if_neg (by simpa using tableSuffix_ne_nil name), sanitizeKafkaSuffix_tableSuffix]

end MonsterMQ.Kafka
