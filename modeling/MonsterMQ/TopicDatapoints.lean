import MonsterMQ.AuthAcl
import MonsterMQ.Sha256

/-!
# Datapoints of topics

`TopicDP` and `TopicDPName` of `winccoanative/topics.go` name the datapoint of a topic: by a hash, or by
the topic itself with some characters escaped if that is not too long. The two kinds of names share a
prefix, and a short topic can spell the hashed name of a long one.
-/

namespace MonsterMQ.WinccoaNative

open LittleEndian Auth Sha256 List

def topicType : Bytes := ascii "MMQTopic"

def hexLower (n : ℕ) : UInt8 := (if n < 10 then 48 + n else 87 + n).toUInt8

def encodeToString (b : Bytes) : Bytes := b.flatMap fun c => [hexLower (c.toNat / 16), hexLower (c.toNat % 16)]

def topicDigits (topic : Bytes) : Bytes := (encodeToString (sum256 (ascii "topic" ++ 0x00 :: topic))).take 24

def topicDP (topic : Bytes) : Bytes := topicType ++ (ascii "_k" ++ topicDigits topic)

def maxTopicDPName : ℕ := 128

def hexUpper (n : ℕ) : UInt8 := (if n < 10 then 48 + n else 55 + n).toUInt8

def forbidden (c : UInt8) : Bool := c < 0x20 || c = 0x7f || c ∈ ascii " .:,;*?[]\x7b\x7d$@"

def isEscaped (c : UInt8) : Bool := forbidden c || c ∈ ascii "%\"'\\"

def escape (c : UInt8) : Bytes := if isEscaped c then [0x25, hexUpper (c.toNat / 16), hexUpper (c.toNat % 16)] else [c]

/-- The loop of `TopicDPName` with what has been written so far; `none` if it is too long. -/
def readable (b : Bytes) : Bytes → Option Bytes
  | [] => some b
  | c :: topic => if (b ++ escape c).length > maxTopicDPName then none else readable (b ++ escape c) topic

def topicDPName (topic : Bytes) : Bytes := (readable (topicType ++ ascii "_") topic).getD (topicDP topic)

/-- The name with the topic in it would be too long. -/
def TooLong (topic : Bytes) : Prop := maxTopicDPName < (topicType ++ ascii "_" ++ topic.flatMap escape).length

/-- The topic spells the hashed name of a long one. -/
def Spells (long topic : Bytes) : Prop := TooLong long ∧ topic = ascii "k" ++ topicDigits long

def topicElTopic : Bytes := ascii "topic"

def topicElValue : Bytes := ascii "value"

def topicElRetained : Bytes := ascii "retained"

def topicElements : List Bytes := [topicElTopic, topicElValue, topicElRetained]

def sysDP (sys topic : Bytes) : Bytes := sys ++ (ascii ":" ++ topicDPName topic)

def element (sysDP el : Bytes) : Bytes := sysDP ++ (ascii "." ++ el)

/-- The elements that `PublishTopic` writes: an empty retained message clears the retained element; a new
datapoint is configured with the first value. -/
def publishTopic (sys topic payload : Bytes) (retain isNew : Bool) : List Bytes :=
  if retain ∧ payload = [] then [element (sysDP sys topic) topicElRetained]
  else
    let el := if retain then topicElRetained else topicElValue
    if isNew then
      [element (sysDP sys topic) topicElTopic, element (sysDP sys topic) topicElValue, element (sysDP sys topic) el]
    else [element (sysDP sys topic) el]

def connected (sys topic : Bytes) : List Bytes := topicElements.map (element (sysDP sys topic))

theorem hexUpper_inj : ∀ n < 16, ∀ m < 16, hexUpper n = hexUpper m → n = m := by decide

theorem toNat_div_lt (c : UInt8) : c.toNat / 16 < 16 := by
  have := c.toNat_lt
  omega

theorem toNat_mod_lt (c : UInt8) : c.toNat % 16 < 16 := Nat.mod_lt _ (by decide)

theorem isEscaped_percent : isEscaped 0x25 = true := by decide

theorem escape_ne_nil (c : UInt8) : escape c ≠ [] := by
  rw [escape]
  split
  · exact cons_ne_nil _ _
  · exact cons_ne_nil _ _

variable {s topic : Bytes}

theorem escape_cancel {c c' : UInt8} {s' : Bytes} (h : escape c ++ s = escape c' ++ s') : c = c' ∧ s = s' := by
  rw [escape, escape] at h
  by_cases hc : isEscaped c = true
  · rw [if_pos hc] at h
    by_cases hc' : isEscaped c' = true
    · rw [if_pos hc'] at h
      simp only [cons_append, nil_append, List.cons.injEq, true_and] at h
      obtain ⟨hhigh, hlow, hs⟩ := h
      have hdiv := hexUpper_inj _ (toNat_div_lt c) _ (toNat_div_lt c') hhigh
      have hmod := hexUpper_inj _ (toNat_mod_lt c) _ (toNat_mod_lt c') hlow
      refine ⟨UInt8.toNat_inj.mp ?_, hs⟩
      rw [← Nat.div_add_mod c.toNat 16, hdiv, hmod, Nat.div_add_mod]
    · rw [if_neg hc'] at h
      have hhead : (0x25 : UInt8) = c' := (List.cons.inj h).1
      exact absurd isEscaped_percent (hhead ▸ hc')
  · rw [if_neg hc] at h
    by_cases hc' : isEscaped c' = true
    · rw [if_pos hc'] at h
      have hhead : c = (0x25 : UInt8) := (List.cons.inj h).1
      exact absurd isEscaped_percent (hhead ▸ hc)
    · rw [if_neg hc'] at h
      exact List.cons.inj h

theorem escaped_injective {t t' : Bytes} (h : t.flatMap escape = t'.flatMap escape) : t = t' := by
  induction t generalizing t' with
  | nil =>
    cases t' with
    | nil => rfl
    | cons c t' =>
      rw [flatMap_nil, flatMap_cons] at h
      exact absurd (append_eq_nil_iff.mp h.symm).1 (escape_ne_nil c)
  | cons c t ih =>
    cases t' with
    | nil =>
      rw [flatMap_nil, flatMap_cons] at h
      exact absurd (append_eq_nil_iff.mp h).1 (escape_ne_nil c)
    | cons c' t' =>
      rw [flatMap_cons, flatMap_cons] at h
      obtain ⟨hc, ht⟩ := escape_cancel h
      rw [hc, ih ht]

theorem forbidden_hexUpper : ∀ n < 16, forbidden (hexUpper n) = false := by decide

private theorem forbidden_escape {c b : UInt8} (hb : b ∈ escape c) : forbidden b = false := by
  rw [escape] at hb
  split at hb
  · rcases mem_cons.mp hb with rfl | hb
    · decide
    rcases mem_pair.mp hb with rfl | rfl
    · exact forbidden_hexUpper _ (toNat_div_lt c)
    · exact forbidden_hexUpper _ (toNat_mod_lt c)
  · next hc =>
    rw [mem_singleton.mp hb]
    rw [isEscaped, Bool.or_eq_true, not_or] at hc
    exact Bool.eq_false_iff.mpr hc.1

theorem readable_eq (topic : Bytes) : ∀ b : Bytes, b.length ≤ maxTopicDPName →
    readable b topic = if maxTopicDPName < (b ++ topic.flatMap escape).length then none
      else some (b ++ topic.flatMap escape) := by
  induction topic with
  | nil =>
    intro b hb
    rw [flatMap_nil, append_nil, if_neg (by omega)]
    rfl
  | cons c topic ih =>
    intro b hb
    rw [readable, flatMap_cons, ← append_assoc]
    by_cases hlong : (b ++ escape c).length > maxTopicDPName
    · rw [if_pos hlong, if_pos]
      rw [length_append]
      omega
    · rw [if_neg hlong, ih _ (by omega)]

theorem topicDPName_of_tooLong (h : TooLong topic) : topicDPName topic = topicDP topic := by
  unfold TooLong at h
  rw [topicDPName, readable_eq topic _ (by decide), if_pos h]
  rfl

theorem topicDPName_of_short (h : ¬ TooLong topic) :
    topicDPName topic = topicType ++ ascii "_" ++ topic.flatMap escape := by
  unfold TooLong at h
  rw [topicDPName, readable_eq topic _ (by decide), if_neg h]
  rfl

private theorem encodeToString_length (b : Bytes) : (encodeToString b).length = 2 * b.length := by
  induction b with
  | nil => rfl
  | cons c b ih =>
    have hcons : encodeToString (c :: b) = [hexLower (c.toNat / 16), hexLower (c.toNat % 16)] ++ encodeToString b := rfl
    rw [hcons, length_append, ih, length_cons]
    simp only [length_cons, length_nil]
    omega

theorem topicDigits_length (topic : Bytes) : (topicDigits topic).length = 24 := by
  rw [topicDigits, length_take, encodeToString_length, sum256_length]
  rfl

theorem isEscaped_hexLower : ∀ n < 16, isEscaped (hexLower n) = false := by decide

theorem isEscaped_topicDigits {b : UInt8} (hb : b ∈ topicDigits topic) : isEscaped b = false := by
  obtain ⟨c, -, hc⟩ := mem_flatMap.mp (mem_of_mem_take hb)
  rcases mem_pair.mp hc with rfl | rfl
  · exact isEscaped_hexLower _ (toNat_div_lt c)
  · exact isEscaped_hexLower _ (toNat_mod_lt c)

theorem escaped_of_plain (h : ∀ b ∈ s, isEscaped b = false) : s.flatMap escape = s := by
  induction s with
  | nil => rfl
  | cons c s ih =>
    have hc : escape c = [c] := by
      rw [escape, if_neg]
      rw [h c mem_cons_self]
      exact Bool.false_ne_true
    rw [flatMap_cons, hc, ih fun b hb => h b (mem_cons_of_mem c hb), singleton_append]

theorem spelled_plain (long : Bytes) :
    (ascii "k" ++ topicDigits long).flatMap escape = ascii "k" ++ topicDigits long := by
  apply escaped_of_plain
  intro b hb
  rcases mem_append.mp hb with hb | hb
  · rw [show ascii "k" = [0x6b] from rfl, mem_singleton] at hb
    rw [hb]
    decide
  · exact isEscaped_topicDigits hb

theorem spelled_short (long : Bytes) : ¬ TooLong (ascii "k" ++ topicDigits long) := by
  rw [TooLong, spelled_plain, length_append, length_append, length_append, topicDigits_length]
  decide

theorem short_eq_long_iff {long : Bytes} (hlong : TooLong long) (hshort : ¬ TooLong topic) :
    topicDPName topic = topicDPName long ↔ topic = ascii "k" ++ topicDigits long := by
  have hdp : topicDP long = topicType ++ ascii "_" ++ (ascii "k" ++ topicDigits long) := by
    rw [topicDP, append_assoc, ← append_assoc (ascii "_")]
    rfl
  rw [topicDPName_of_short hshort, topicDPName_of_tooLong hlong, hdp, append_cancel_left_eq]
  constructor
  · intro h
    exact escaped_injective (h.trans (spelled_plain long).symm)
  · rintro rfl
    exact spelled_plain long

theorem topicDPName_eq_iff {t t' : Bytes} (hne : t ≠ t') (hdigits : topicDigits t ≠ topicDigits t') :
    topicDPName t = topicDPName t' ↔ Spells t t' ∨ Spells t' t := by
  by_cases hlong : TooLong t
  · by_cases hlong' : TooLong t'
    · refine iff_of_false (fun h => hdigits ?_) ?_
      · rw [topicDPName_of_tooLong hlong, topicDPName_of_tooLong hlong', topicDP, topicDP,
          append_cancel_left_eq, append_cancel_left_eq] at h
        exact h
      · rintro (⟨-, rfl⟩ | ⟨-, rfl⟩)
        · exact spelled_short t hlong'
        · exact spelled_short t' hlong
    · rw [eq_comm, short_eq_long_iff hlong hlong']
      exact ⟨fun h => .inl ⟨hlong, h⟩, fun h => h.elim (fun h => h.2) fun h => absurd h.1 hlong'⟩
  · by_cases hlong' : TooLong t'
    · rw [short_eq_long_iff hlong' hlong]
      exact ⟨fun h => .inr ⟨hlong', h⟩, fun h => h.elim (fun h => absurd h.1 hlong) fun h => h.2⟩
    · refine iff_of_false (fun h => hne ?_) fun h => h.elim (fun h => hlong h.1) fun h => hlong' h.1
      rw [topicDPName_of_short hlong, topicDPName_of_short hlong', append_cancel_left_eq] at h
      exact escaped_injective h

private theorem topicDPName_length (topic : Bytes) : (topicDPName topic).length ≤ maxTopicDPName := by
  by_cases hlong : TooLong topic
  · rw [topicDPName_of_tooLong hlong, topicDP, length_append, length_append, topicDigits_length]
    decide
  · rw [topicDPName_of_short hlong]
    exact Nat.le_of_not_lt hlong

theorem forbidden_topicDPName {b : UInt8} (hb : b ∈ topicDPName topic) : forbidden b = false := by
  have hall : (topicType ++ ascii "_k").all (fun b => !forbidden b) = true := rfl
  have hfixed : ∀ b ∈ topicType ++ ascii "_k", forbidden b = false := fun b hb =>
    (Bool.not_eq_true' _).mp (all_eq_true.mp hall b hb)
  by_cases hlong : TooLong topic
  · rw [topicDPName_of_tooLong hlong, topicDP, ← append_assoc] at hb
    rcases mem_append.mp hb with hb | hb
    · exact hfixed b hb
    · have hplain := isEscaped_topicDigits hb
      rw [isEscaped, Bool.or_eq_false_iff] at hplain
      exact hplain.1
  · rw [topicDPName_of_short hlong] at hb
    rcases mem_append.mp hb with hb | hb
    · refine hfixed b ?_
      rcases mem_append.mp hb with hb | hb
      · exact mem_append_left _ hb
      · rw [show ascii "_" = [0x5f] from rfl, mem_singleton] at hb
        rw [hb]
        decide
    · obtain ⟨c, -, hc⟩ := mem_flatMap.mp hb
      exact forbidden_escape hc

private theorem split_first {x : UInt8} {c c' s' : Bytes} (hc : x ∉ c) (hc' : x ∉ c')
    (h : c ++ x :: s = c' ++ x :: s') : c = c' ∧ s = s' := by
  induction c generalizing c' with
  | nil =>
    cases c' with
    | nil => exact ⟨rfl, (List.cons.inj h).2⟩
    | cons y c' => exact absurd mem_cons_self ((List.cons.inj h).1 ▸ hc')
  | cons y c ih =>
    cases c' with
    | nil => exact absurd mem_cons_self ((List.cons.inj h).1 ▸ hc)
    | cons z c' =>
      obtain ⟨hyz, htail⟩ := List.cons.inj h
      obtain ⟨heq, hs⟩ := ih (fun hm => hc (mem_cons_of_mem y hm))
        (fun hm => hc' (mem_cons_of_mem z hm)) htail
      exact ⟨by rw [hyz, heq], hs⟩

theorem split_last {x : UInt8} {c c' s' : Bytes} (hs : x ∉ s) (hs' : x ∉ s')
    (h : c ++ x :: s = c' ++ x :: s') : c = c' ∧ s = s' := by
  have hrev := congrArg List.reverse h
  rw [reverse_append, reverse_cons, append_assoc, singleton_append, reverse_append,
    reverse_cons, append_assoc, singleton_append] at hrev
  obtain ⟨hs'', hc⟩ := split_first (fun hm => hs (mem_reverse.mp hm)) (fun hm => hs' (mem_reverse.mp hm)) hrev
  exact ⟨reverse_injective hc, reverse_injective hs''⟩

theorem notMem_topicDPName {x : UInt8} (hx : forbidden x = true) (topic : Bytes) : x ∉ topicDPName topic := by
  intro hm
  rw [forbidden_topicDPName hm] at hx
  cases hx

theorem element_eq_iff {sys sys' t t' el el' : Bytes} (hel : el ∈ topicElements) (hel' : el' ∈ topicElements) :
    element (sysDP sys t) el = element (sysDP sys' t') el' ↔
      sys = sys' ∧ topicDPName t = topicDPName t' ∧ el = el' := by
  have hdot : ∀ e ∈ topicElements, (0x2e : UInt8) ∉ e := by decide
  constructor
  · intro h
    obtain ⟨hdp, hel⟩ := split_last (hdot el hel) (hdot el' hel') h
    obtain ⟨hsys, hname⟩ := split_last (notMem_topicDPName (by decide) t) (notMem_topicDPName (by decide) t') hdp
    exact ⟨hsys, hname, hel⟩
  · rintro ⟨rfl, hname, rfl⟩
    rw [sysDP, sysDP, hname]

theorem publishTopic_elements {sys payload : Bytes} {retain isNew : Bool} {e : Bytes}
    (he : e ∈ publishTopic sys topic payload retain isNew) :
    ∃ el ∈ topicElements, e = element (sysDP sys topic) el := by
  have hel : (if retain = true then topicElRetained else topicElValue) ∈ topicElements := by
    split
    · decide
    · decide
  rw [publishTopic] at he
  split at he
  · exact ⟨_, by decide, mem_singleton.mp he⟩
  · dsimp only at he
    split at he
    · rcases mem_cons.mp he with rfl | he
      · exact ⟨_, by decide, rfl⟩
      rcases mem_pair.mp he with rfl | rfl
      · exact ⟨_, by decide, rfl⟩
      · exact ⟨_, hel, rfl⟩
    · exact ⟨_, hel, mem_singleton.mp he⟩

private theorem publishTopic_ne_nil (sys topic payload : Bytes) (retain isNew : Bool) :
    publishTopic sys topic payload retain isNew ≠ [] := by
  rw [publishTopic]
  split
  · exact cons_ne_nil _ _
  · dsimp only
    split
    · exact cons_ne_nil _ _
    · exact cons_ne_nil _ _

/-- What is published on one topic is written to what the subscribers of another topic are connected to
exactly when the two have one datapoint. -/
theorem published_elsewhere_iff (sys sys' t t' payload : Bytes) (retain isNew : Bool) :
    (∃ e ∈ publishTopic sys t payload retain isNew, e ∈ connected sys' t') ↔
      sys = sys' ∧ topicDPName t = topicDPName t' := by
  constructor
  · rintro ⟨e, he, he'⟩
    obtain ⟨el, hel, rfl⟩ := publishTopic_elements he
    obtain ⟨el', hel', heq⟩ := mem_map.mp he'
    obtain ⟨hsys, hname, -⟩ := (element_eq_iff hel hel').mp heq.symm
    exact ⟨hsys, hname⟩
  · rintro ⟨rfl, hname⟩
    obtain ⟨e, he⟩ := exists_mem_of_ne_nil _ (publishTopic_ne_nil sys t payload retain isNew)
    obtain ⟨el, hel, rfl⟩ := publishTopic_elements he
    refine ⟨_, he, mem_map.mpr ⟨el, hel, ?_⟩⟩
    rw [sysDP, sysDP, hname]

/-- Two topics whose hashes differ have different datapoints, and nothing published on one is written to
the datapoint of the other, exactly when neither spells the hashed name of the other; and every name is
short enough and has no forbidden character. -/
theorem topicDPName_injective_iff {t t' : Bytes} (hne : t ≠ t') (hdigits : topicDigits t ≠ topicDigits t') :
    (topicDPName t ≠ topicDPName t' ↔ ¬ Spells t t' ∧ ¬ Spells t' t) ∧
    ((topicDPName t).length ≤ 128 ∧ ∀ b ∈ topicDPName t, forbidden b = false) ∧
    ∀ sys payload retain isNew, (∀ e ∈ publishTopic sys t payload retain isNew, e ∉ connected sys t') ↔
      ¬ Spells t t' ∧ ¬ Spells t' t := by
  have hiff : topicDPName t ≠ topicDPName t' ↔ ¬ Spells t t' ∧ ¬ Spells t' t := by
    rw [Ne, topicDPName_eq_iff hne hdigits, not_or]
  refine ⟨hiff, ⟨topicDPName_length t, fun b hb => forbidden_topicDPName hb⟩, ?_⟩
  intro sys payload retain isNew
  have hwritten := (published_elsewhere_iff sys sys t t' payload retain isNew).trans (and_iff_right rfl)
  rw [← hiff, Ne, ← hwritten]
  constructor
  · rintro h ⟨e, he, he'⟩
    exact h e he he'
  · intro h e he he'
    exact h ⟨e, he, he'⟩

def longTopic : Bytes := List.replicate 120 0x61

private theorem tooLong_longTopic : TooLong longTopic := by
  rw [TooLong, longTopic, escaped_of_plain]
  · rw [length_append, length_append, length_replicate]
    decide
  · intro b hb
    rw [eq_of_mem_replicate hb]
    decide

/-- Two short topics, and two long ones. -/
theorem topicDPName_a_ne_b : topicDPName (ascii "a") ≠ topicDPName (ascii "b") ∧
    topicDPName longTopic ≠ topicDPName (0x62 :: longTopic) := by
  have hshort : topicDigits (ascii "a") ≠ topicDigits (ascii "b") := by decide +kernel
  have hlong : topicDigits longTopic ≠ topicDigits (0x62 :: longTopic) := by decide +kernel
  refine ⟨(topicDPName_injective_iff (by decide) hshort).1.mpr ⟨?_, ?_⟩,
    (topicDPName_injective_iff (by decide) hlong).1.mpr ⟨?_, ?_⟩⟩
  · rintro ⟨htoo, -⟩
    exact absurd htoo (by rw [TooLong]; decide)
  · rintro ⟨htoo, -⟩
    exact absurd htoo (by rw [TooLong]; decide)
  · rintro ⟨-, h⟩
    exact absurd (List.cons.inj h).1 (by decide)
  · rintro ⟨-, h⟩
    exact absurd (List.cons.inj h).1 (by decide)

/-- A long topic and the one that spells its name have different hashes and one datapoint, and a message on
the short one is written to it. -/
theorem spelled_topic_collides : longTopic ≠ ascii "k" ++ topicDigits longTopic ∧
    topicDigits longTopic ≠ topicDigits (ascii "k" ++ topicDigits longTopic) ∧
    topicDPName longTopic = topicDPName (ascii "k" ++ topicDigits longTopic) ∧
    element (sysDP (ascii "System1") longTopic) topicElValue ∈
      publishTopic (ascii "System1") (ascii "k" ++ topicDigits longTopic) (ascii "1") false false ∧
    element (sysDP (ascii "System1") longTopic) topicElValue ∈ connected (ascii "System1") longTopic := by
  have hname := ((short_eq_long_iff tooLong_longTopic (spelled_short longTopic)).mpr rfl).symm
  refine ⟨?_, by decide +kernel, hname, ?_, ?_⟩
  · intro h
    have hlen := congrArg List.length h
    rw [length_append, topicDigits_length, longTopic, length_replicate] at hlen
    cases hlen
  · rw [publishTopic, if_neg (fun h => Bool.false_ne_true h.1)]
    dsimp only
    rw [if_neg Bool.false_ne_true, if_neg Bool.false_ne_true, mem_singleton, sysDP, sysDP, hname]
  · exact mem_map.mpr ⟨topicElValue, by decide, rfl⟩

end MonsterMQ.WinccoaNative
