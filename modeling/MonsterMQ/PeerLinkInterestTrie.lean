import MonsterMQ.PeerLinkLog

/-!
# The interest union trie

Topic filters and the `maskNode` trie of `internal/peerlink/filter.go`.
-/

namespace MonsterMQ.PeerLink

open LittleEndian

@[grind =] def slashByte : UInt8 := 0x2F

@[grind =] def levels : Bytes → List Bytes
  | [] => [[]]
  | b :: bs =>
    if b = slashByte then [] :: levels bs
    else match levels bs with
      | [] => [[b]]
      | l :: ls => (b :: l) :: ls

@[grind =] def splitLevel (t : Bytes) : Bytes × Option Bytes :=
  match t.dropWhile (· ≠ slashByte) with
  | [] => (t, none)
  | _ :: rest => (t.takeWhile (· ≠ slashByte), some rest)

theorem levels_ne_nil (t : Bytes) : levels t ≠ [] := by
  cases t with
  | nil => simp [levels]
  | cons b bs =>
    simp only [levels]
    split
    · simp
    · split <;> simp

theorem levels_eq_splitLevel (t : Bytes) : levels t = match splitLevel t with
      | (l, none) => [l]
      | (l, some rest) => l :: levels rest := by
  induction t with
  | nil => simp [levels, splitLevel]
  | cons b bs ih =>
    by_cases hb : b = slashByte
    · simp [levels, splitLevel, hb]
    · rw [levels, if_neg hb, ih]
      simp only [splitLevel, List.dropWhile_cons, List.takeWhile_cons]
      simp only [ne_eq, hb, not_false_eq_true, decide_true, ↓reduceIte]
      cases List.dropWhile (fun x => decide (x ≠ slashByte)) bs <;> simp

@[grind =] def joinLevels : List Bytes → Bytes
  | [] => []
  | [l] => l
  | l :: m :: ls => l ++ slashByte :: joinLevels (m :: ls)

theorem joinLevels_levels (t : Bytes) : joinLevels (levels t) = t := by
  induction t with
  | nil => rfl
  | cons b bs ih =>
    rcases hls : levels bs with _ | ⟨l, ls⟩
    · exact absurd hls (levels_ne_nil bs)
    · rw [hls] at ih
      by_cases hb : b = slashByte
      · simp [levels, hb, hls, joinLevels, ih]
      · cases ls with
        | nil | cons m ls =>
          simp only [joinLevels] at ih
          simp [levels, hb, hls, joinLevels, ih]

theorem levels_injective {s t : Bytes} (h : levels s = levels t) : s = t := by
  rw [← joinLevels_levels s, ← joinLevels_levels t, h]

@[grind =] def hashLevel : Bytes := [0x23]
def plusLevel : Bytes := [0x2B]
@[grind =] def dollarByte : UInt8 := 0x24

inductive FilterError where
  | empty
  | hashNotLast
  | plusNotAlone
  deriving DecidableEq, Repr

@[grind =] def validLevels : List Bytes → Except FilterError Unit
  | [] => .ok ()
  | l :: ls =>
    if l.contains 0x23 && (l ≠ hashLevel || !ls.isEmpty) then .error .hashNotLast
    else if l.contains 0x2B && l ≠ plusLevel then .error .plusNotAlone
    else validLevels ls

@[grind =] def validFilter (s : Bytes) : Except FilterError Unit :=
  if s = [] then .error .empty else validLevels (levels s)

def HashLast : List Bytes → Prop
  | [] => True
  | l :: ls => (l = hashLevel → ls = []) ∧ HashLast ls

theorem hashLast_of_validLevels {ls : List Bytes} (h : validLevels ls = .ok ()) : HashLast ls := by
  induction ls with
  | nil => trivial
  | cons l ls ih =>
    simp only [validLevels] at h
    split at h
    · cases h
    · rename_i hh
      split at h
      · cases h
      · refine ⟨?_, ih h⟩
        rintro rfl
        cases ls with
        | nil => rfl
        | cons m ls => simp [hashLevel] at hh

/-- The matching rule of MQTT: `+` stands for one level, `#` for the level before it and
everything below. -/
def filterMatches : List Bytes → List Bytes → Bool
  | [], ts => ts.isEmpty
  | l :: ls, ts =>
    if l = hashLevel then true
    else match ts with
      | [] => false
      | t :: ts => (l = plusLevel || l = t) && filterMatches ls ts

/-- A level of the union trie: the consumers with a filter that ends here and those with
a `#` below. -/
inductive MaskNode where
  | mk (children : List (Bytes × MaskNode)) (plus : Option MaskNode) (endMask hashMask : Mask)

namespace MaskNode

@[grind =] def children : MaskNode → List (Bytes × MaskNode)
  | mk c _ _ _ => c

@[grind =] def plus : MaskNode → Option MaskNode
  | mk _ p _ _ => p

def endMask : MaskNode → Mask
  | mk _ _ e _ => e

@[grind =] def hashMask : MaskNode → Mask
  | mk _ _ _ h => h

@[simp] theorem children_mk (c : List (Bytes × MaskNode)) (p : Option MaskNode) (e h : Mask) :
    (mk c p e h).children = c := rfl

@[simp] theorem plus_mk (c : List (Bytes × MaskNode)) (p : Option MaskNode) (e h : Mask) :
    (mk c p e h).plus = p := rfl

@[simp] theorem endMask_mk (c : List (Bytes × MaskNode)) (p : Option MaskNode) (e h : Mask) :
    (mk c p e h).endMask = e := rfl

@[simp] theorem hashMask_mk (c : List (Bytes × MaskNode)) (p : Option MaskNode) (e h : Mask) :
    (mk c p e h).hashMask = h := rfl

@[grind =] def zero : MaskNode := mk [] none 0 0

def empty (n : MaskNode) : Bool :=
  n.endMask = 0 && n.hashMask = 0 && n.plus.isNone && n.children.isEmpty

@[grind =] def setBit (m bit : Mask) (on : Bool) : Mask := if on then m ||| bit else m &&& ~~~bit

@[grind =] def child (n : MaskNode) (l : Bytes) : Option MaskNode :=
  if l = plusLevel then n.plus else n.children.lookup l

/-- Stores (or, with `none`, deletes) the node under a level of a filter. -/
@[grind =] def putChild (n : MaskNode) (l : Bytes) (c : Option MaskNode) : MaskNode :=
  if l = plusLevel then mk n.children c n.endMask n.hashMask
  else
    let rest := n.children.filter (·.1 ≠ l)
    mk (match c with
      | none => rest
      | some c => (l, c) :: rest) n.plus n.endMask n.hashMask

/-- `setLevels`: creates nodes on the way when `on`, prunes empty ones otherwise. -/
@[grind =] def setLevels (bit : Mask) (on : Bool) : List Bytes → MaskNode → MaskNode
  | [], n => n
  | l :: rest, n =>
    if l = hashLevel then mk n.children n.plus n.endMask (setBit n.hashMask bit on)
    else if (n.child l).isNone && !on then n
    else
      let c := (n.child l).getD zero
      let c := match rest with
        | [] => mk c.children c.plus (setBit c.endMask bit on) c.hashMask
        | _ :: _ => setLevels bit on rest c
      n.putChild l (if !on && c.empty then none else some c)

def set (n : MaskNode) (filter : Bytes) (bit : Mask) (on : Bool) : MaskNode :=
  setLevels bit on (levels filter) n

/-- `matchFrom`: the levels of the topic not consumed yet against the children of the
node. It stops once every bit of `want` is set. -/
def matchFrom (want : Mask) : List Bytes → MaskNode → Mask
  | [], n => n.endMask
  | level :: rest, n =>
    let m := match n.children.lookup level with
      | none => 0
      | some c => if c.hashMask &&& want ≠ want then c.hashMask ||| matchFrom want rest c else c.hashMask
    match n.plus with
    | none => m
    | some c =>
      if m &&& want ≠ want then
        let m := m ||| c.hashMask
        if m &&& want ≠ want then m ||| matchFrom want rest c else m
      else m

/-- `match`: topics that start with `$` are not matched by a leading wildcard. -/
@[grind =] def matchTopic (n : MaskNode) (t : Bytes) (want : Mask) : Mask :=
  if t.head? = some dollarByte then
    match levels t with
    | [] => 0
    | level :: rest =>
      match n.children.lookup level with
      | none => 0
      | some c => matchFrom want rest c
  else if n.hashMask &&& want = want then n.hashMask
  else matchFrom want (levels t) n ||| n.hashMask

@[grind =] def maskOf : List Bytes → MaskNode → Mask
  | [], n => n.endMask
  | l :: ls, n =>
    if l = hashLevel then n.hashMask
    else match n.child l with
      | none => 0
      | some c => maskOf ls c

inductive Clean : MaskNode → Prop where
  | mk {n : MaskNode} (hash : n.children.lookup hashLevel = none)
      (plus : n.children.lookup plusLevel = none)
      (below : ∀ l c, n.child l = some c → Clean c) : Clean n

variable {n : MaskNode}

theorem Clean.hash (h : Clean n) : n.children.lookup hashLevel = none := by
  cases h; assumption

theorem Clean.plus (h : Clean n) : n.children.lookup plusLevel = none := by
  cases h; assumption

variable {l : Bytes}

theorem Clean.child {c : MaskNode} (h : Clean n) (hc : n.child l = some c) : Clean c := by
  cases h with
  | mk _ _ below => exact below l c hc

variable {i : ℕ}

theorem setBit_getLsbD (m : Mask) (on : Bool) {j : ℕ} (hj : j < 64) :
    (setBit m (1#64 <<< j) on).getLsbD i = if i = j then on else m.getLsbD i := by
  by_cases hi : i < 64
  · cases on <;> by_cases hij : i = j
    · subst hij
      simp [setBit, hi]
    · have : decide (i - j = 0) = decide (i ≤ j) := by
        simp only [decide_eq_decide]
        omega
      simp only [setBit, hij, hi, Bool.false_eq_true, ↓reduceIte, BitVec.getLsbD_and,
        BitVec.getLsbD_not, BitVec.getLsbD_shiftLeft, BitVec.getLsbD_one, decide_true, Bool.true_and]
      by_cases hlt : i < j
      · simp [hlt]
      · have : i - j ≠ 0 := by omega
        simp [hlt, this]
    · subst hij
      simp [setBit, hi]
    · simp only [setBit, hij, hi, ↓reduceIte, BitVec.getLsbD_or, BitVec.getLsbD_shiftLeft,
        BitVec.getLsbD_one, decide_true, Bool.true_and]
      by_cases hlt : i < j
      · simp [hlt]
      · have : i - j ≠ 0 := by omega
        simp [hlt, this]
  · have hij : i ≠ j := by omega
    rw [if_neg hij, BitVec.getLsbD_of_ge _ i (by omega), BitVec.getLsbD_of_ge _ i (by omega)]

theorem lookup_filter_ne (xs : List (Bytes × MaskNode)) (k l : Bytes) :
    (xs.filter (·.1 ≠ k)).lookup l = if l = k then none else xs.lookup l := by
  induction xs with
  | nil => simp
  | cons x xs ih =>
    obtain ⟨a, c⟩ := x
    by_cases hak : a = k
    · subst hak
      simp only [ne_eq, not_true_eq_false, decide_false, Bool.false_eq_true, not_false_eq_true,
        List.filter_cons_of_neg, ih]
      by_cases hl : l = a
      · simp [hl]
      · simp [hl, List.lookup_cons, beq_eq_false_iff_ne.mpr hl]
    · simp only [ne_eq, hak, not_false_eq_true, decide_true, List.filter_cons_of_pos, List.lookup_cons]
      cases hla : l == a with
      | true =>
        have : l = a := by simpa using hla
        subst this
        simp [hak]
      | false => simpa using ih

@[simp] theorem endMask_putChild (n : MaskNode) (l : Bytes) (c : Option MaskNode) :
    (n.putChild l c).endMask = n.endMask := by
  simp only [putChild]
  split <;> rfl

@[simp] theorem hashMask_putChild (n : MaskNode) (l : Bytes) (c : Option MaskNode) :
    (n.putChild l c).hashMask = n.hashMask := by
  simp only [putChild]
  split <;> rfl

theorem child_putChild (n : MaskNode) (l m : Bytes) (c : Option MaskNode) :
    (n.putChild l c).child m = if m = l then c else n.child m := by
  by_cases hl : l = plusLevel
  · subst hl
    by_cases hm : m = plusLevel
    · simp [putChild, child, hm, plus]
    · simp [putChild, child, hm, children]
  · by_cases hm : m = plusLevel
    · have : plusLevel ≠ l := fun h => hl h.symm
      simp [putChild, child, hl, hm, this, plus]
    · by_cases hml : m = l
      · subst hml
        cases c with
        | none =>
          simp only [putChild, child, hm, children_mk, ↓reduceIte]
          rw [lookup_filter_ne, if_pos rfl]
        | some c => simp [putChild, child, hm, children]
      · cases c with
        | none =>
          simp only [putChild, child, hl, hm, hml, children_mk, ↓reduceIte]
          rw [lookup_filter_ne, if_neg hml]
        | some c =>
          simp only [putChild, child, hl, hm, hml, children, ↓reduceIte, List.lookup_cons,
            beq_eq_false_iff_ne.mpr hml]
          rw [lookup_filter_ne, if_neg hml]

@[simp] theorem maskOf_zero (ls : List Bytes) : maskOf ls zero = 0 := by
  cases ls with
  | nil => rfl
  | cons l ls => simp [maskOf, zero, hashMask, child, children, plus]

private theorem maskOf_of_empty (h : n.empty = true) (ls : List Bytes) : maskOf ls n = 0 := by
  simp only [empty, Bool.and_eq_true, decide_eq_true_eq, Option.isNone_iff_eq_none,
    List.isEmpty_iff] at h
  obtain ⟨⟨⟨he, hh⟩, hp⟩, hc⟩ := h
  cases ls with
  | nil => exact he
  | cons l ls => simp [maskOf, hh, child, hp, hc]

theorem maskOf_cons (hl : l ≠ hashLevel) (ls : List Bytes) (n : MaskNode) :
    maskOf (l :: ls) n = match n.child l with
      | none => 0
      | some c => maskOf ls c := by
  simp [maskOf, hl]

private theorem setBit_zero_off (bit : Mask) : setBit 0 bit false = 0 := by simp [setBit]

theorem maskOf_getD (n : MaskNode) (hl : l ≠ hashLevel) (ls : List Bytes) :
    maskOf ls ((n.child l).getD zero) = maskOf (l :: ls) n := by
  rw [maskOf_cons hl]
  cases n.child l <;> simp

theorem maskOf_putChild (n c : MaskNode) (hl : l ≠ hashLevel) (prune : Bool) (gs : List Bytes) :
    maskOf gs (n.putChild l (if prune && c.empty then none else some c)) =
      match gs with
      | [] => n.endMask
      | m :: ms => if m = l then maskOf ms c else maskOf (m :: ms) n := by
  cases gs with
  | nil => simp [maskOf]
  | cons m ms =>
    by_cases hm : m = hashLevel
    · subst hm
      have : hashLevel ≠ l := fun h => hl h.symm
      simp [maskOf, this]
    · rw [maskOf_cons hm, child_putChild]
      by_cases hml : m = l
      · simp only [hml, ↓reduceIte]
        cases hp : prune && c.empty with
        | false => simp
        | true =>
          simp only [Bool.and_eq_true] at hp
          simp [maskOf_of_empty hp.2]
      · simp only [hml, ↓reduceIte]
        rw [maskOf_cons hm]

private theorem maskOf_endMask (c : MaskNode) (bit : Mask) (on : Bool) (gs : List Bytes) :
    maskOf gs (mk c.children c.plus (setBit c.endMask bit on) c.hashMask) =
      if gs = [] then setBit (maskOf gs c) bit on else maskOf gs c := by
  cases gs with
  | nil => simp [maskOf]
  | cons l ls =>
    have hchild : (mk c.children c.plus (setBit c.endMask bit on) c.hashMask).child l = c.child l := rfl
    simp only [maskOf, hashMask_mk, hchild, reduceCtorEq, ↓reduceIte]

/-- `set` changes the mask of its own filter and no other. -/
theorem maskOf_setLevels (bit : Mask) (on : Bool) {fs gs : List Bytes} (hne : fs ≠ [])
    (hf : HashLast fs) (hg : HashLast gs) (n : MaskNode) : maskOf gs (setLevels bit on fs n) =
      if gs = fs then setBit (maskOf gs n) bit on else maskOf gs n := by
  induction fs generalizing gs n with
  | nil => exact absurd rfl hne
  | cons l rest ih =>
    obtain ⟨hlast, hrest⟩ := hf
    by_cases hl : l = hashLevel
    · have hnil := hlast hl
      subst hl hnil
      cases gs with
      | nil => simp [setLevels, maskOf, endMask]
      | cons m ms =>
        by_cases hm : m = hashLevel
        · have hms := hg.1 hm
          subst hm hms
          simp [setLevels, maskOf, hashMask]
        · have hchild : ∀ h, (mk n.children n.plus n.endMask h).child m = n.child m := fun _ => rfl
          have hneq : m :: ms ≠ [hashLevel] := by simp [hm]
          rw [if_neg hneq]
          simp only [setLevels, ↓reduceIte, maskOf_cons hm, hchild]
    · simp only [setLevels, hl, ↓reduceIte]
      split
      · rename_i hnone
        simp only [Bool.and_eq_true, Option.isNone_iff_eq_none, Bool.not_eq_true'] at hnone
        obtain ⟨hnone, rfl⟩ := hnone
        by_cases hgs : gs = l :: rest
        · subst hgs
          simp only [maskOf_cons hl, hnone, ↓reduceIte]
          exact (setBit_zero_off bit).symm
        · simp [hgs]
      · rw [maskOf_putChild n _ hl]
        cases gs with
        | nil => simp [maskOf]
        | cons m ms =>
          by_cases hml : m = l
          · subst hml
            simp only [↓reduceIte, List.cons.injEq, true_and]
            cases rest with
            | nil => rw [maskOf_endMask, maskOf_getD n hl]
            | cons x xs =>
              rw [ih (by simp) hrest hg.2, maskOf_getD n hl]
          · simp [hml]

theorem maskOf_set (n : MaskNode) {f : Bytes} {gs : List Bytes} (on : Bool) {j : ℕ} (hj : j < 64)
    (hf : HashLast (levels f)) (hg : HashLast gs) : (maskOf gs (n.set f (1#64 <<< j) on)).getLsbD i =
      if gs = levels f ∧ i = j then on else (maskOf gs n).getLsbD i := by
  rw [set, maskOf_setLevels _ _ (levels_ne_nil f) hf hg]
  by_cases hgs : gs = levels f
  · simp [hgs, setBit_getLsbD _ _ hj]
  · simp [hgs]

theorem clean_zero : Clean zero :=
  .mk rfl rfl (by simp [zero, MaskNode.child, children, MaskNode.plus])

theorem lookup_putChild {k : Bytes} (hk : k ≠ l) (c : Option MaskNode) :
    (n.putChild l c).children.lookup k = n.children.lookup k := by
  by_cases hl : l = plusLevel
  · simp [putChild, hl, children]
  · cases c with
    | none =>
      simp only [putChild, hl, ↓reduceIte, children_mk]
      rw [lookup_filter_ne, if_neg hk]
    | some c =>
      simp only [putChild, hl, ↓reduceIte, children, List.lookup_cons, beq_eq_false_iff_ne.mpr hk]
      rw [lookup_filter_ne, if_neg hk]

theorem Clean.putChild (h : Clean n) (hl : l ≠ hashLevel)
    {c : Option MaskNode} (hc : ∀ x, c = some x → Clean x) : Clean (n.putChild l c) := by
  constructor
  · rw [lookup_putChild (fun h => hl h.symm)]
    exact h.hash
  · by_cases hp : l = plusLevel
    · simpa [MaskNode.putChild, hp, children] using h.plus
    · rw [lookup_putChild (fun h => hp h.symm)]
      exact h.plus
  · intro m x hx
    rw [child_putChild] at hx
    split at hx
    · exact hc x hx
    · exact h.child hx

theorem Clean.getD (h : Clean n) (l : Bytes) : Clean ((n.child l).getD zero) := by
  cases hc : n.child l with
  | none => exact clean_zero
  | some c => exact h.child hc

theorem Clean.setLevels (h : Clean n) (bit : Mask) (on : Bool) (fs : List Bytes) :
    Clean (setLevels bit on fs n) := by
  induction fs generalizing n with
  | nil => exact h
  | cons l rest ih =>
    simp only [MaskNode.setLevels]
    split
    · exact .mk h.hash h.plus (fun m c hc => h.child (n := n) hc)
    · rename_i hl
      split
      · exact h
      · apply h.putChild hl
        intro x hx
        have hclean := h.getD l
        rw [Option.ite_none_left_eq_some] at hx
        obtain ⟨-, hx⟩ := hx
        rw [Option.some.injEq] at hx
        subst hx
        cases rest with
        | nil => exact .mk hclean.hash hclean.plus (fun m c hc => hclean.child (n := (n.child l).getD zero) hc)
        | cons y ys => exact ih hclean

/-- `matchFrom` without its early stop. -/
@[grind =] def unionFrom : List Bytes → MaskNode → Mask
  | [], n => n.endMask
  | level :: rest, n =>
    (match n.children.lookup level with
      | none => 0
      | some c => c.hashMask ||| unionFrom rest c) |||
    (match n.plus with
      | none => 0
      | some c => c.hashMask ||| unionFrom rest c)

theorem getLsbD_of_and_eq {m want : Mask} (h : m &&& want = want)
    (hi : want.getLsbD i = true) : m.getLsbD i = true := by
  have := congrArg (fun v => BitVec.getLsbD v i) h
  simp only [BitVec.getLsbD_and, hi, Bool.and_true] at this
  exact this

/-- The early stop loses no bit of `want`. -/
theorem matchFrom_getLsbD {want : Mask} (hi : want.getLsbD i = true) (ts : List Bytes)
    (n : MaskNode) : (matchFrom want ts n).getLsbD i = (unionFrom ts n).getLsbD i := by
  induction ts generalizing n with
  | nil => rfl
  | cons t ts ih =>
    have hchild : ∀ c : MaskNode,
        (if c.hashMask &&& want ≠ want then c.hashMask ||| matchFrom want ts c
          else c.hashMask).getLsbD i = (c.hashMask ||| unionFrom ts c).getLsbD i := by
      intro c
      split
      · simp [ih]
      · rename_i h
        simp [getLsbD_of_and_eq (not_not.mp h) hi]
    simp only [matchFrom, unionFrom]
    generalize hm : (match n.children.lookup t with
      | none => (0 : Mask)
      | some c => if c.hashMask &&& want ≠ want then c.hashMask ||| matchFrom want ts c
          else c.hashMask) = m
    have hmi : m.getLsbD i = (match n.children.lookup t with
        | none => (0 : Mask)
        | some c => c.hashMask ||| unionFrom ts c).getLsbD i := by
      rw [← hm]
      cases n.children.lookup t with
      | none => rfl
      | some c => exact hchild c
    cases n.plus with
    | none => simp [hmi]
    | some c =>
      simp only
      split
      · split
        · rw [BitVec.getLsbD_or, BitVec.getLsbD_or, BitVec.getLsbD_or, BitVec.getLsbD_or, ← hmi, ih,
            Bool.or_assoc]
        · rename_i h
          have := getLsbD_of_and_eq (not_not.mp h) hi
          rw [BitVec.getLsbD_or] at this
          rw [BitVec.getLsbD_or, BitVec.getLsbD_or, ← hmi, BitVec.getLsbD_or, ← Bool.or_assoc, this,
            Bool.true_or]
      · rename_i h
        have := getLsbD_of_and_eq (not_not.mp h) hi
        rw [BitVec.getLsbD_or, ← hmi, this, Bool.true_or]

theorem unionFrom_getLsbD (h : Clean n) (ts : List Bytes) (i : ℕ) :
    (unionFrom ts n ||| n.hashMask).getLsbD i = true ↔
      ∃ fs, HashLast fs ∧ filterMatches fs ts = true ∧ (maskOf fs n).getLsbD i = true := by
  induction ts generalizing n with
  | nil =>
    constructor
    · intro hbit
      rw [BitVec.getLsbD_or, Bool.or_eq_true] at hbit
      rcases hbit with hbit | hbit
      · exact ⟨[], trivial, rfl, hbit⟩
      · exact ⟨[hashLevel], ⟨fun _ => rfl, trivial⟩, rfl, by simpa [maskOf] using hbit⟩
    · rintro ⟨fs, -, hmatch, hbit⟩
      rw [BitVec.getLsbD_or, Bool.or_eq_true]
      cases fs with
      | nil => exact .inl hbit
      | cons l ls =>
        by_cases hl : l = hashLevel
        · exact .inr (by simpa [maskOf, hl] using hbit)
        · simp [filterMatches, hl] at hmatch
  | cons t ts ih =>
    constructor
    · intro hbit
      rw [BitVec.getLsbD_or, Bool.or_eq_true] at hbit
      rcases hbit with hbit | hbit
      · rw [unionFrom, BitVec.getLsbD_or, Bool.or_eq_true] at hbit
        rcases hbit with hbit | hbit
        · cases hc : n.children.lookup t with
          | none => simp [hc] at hbit
          | some c =>
            have hth : t ≠ hashLevel := by
              rintro rfl
              rw [h.hash] at hc
              cases hc
            have htp : t ≠ plusLevel := by
              rintro rfl
              rw [h.plus] at hc
              cases hc
            have hchild : n.child t = some c := by simp [MaskNode.child, htp, hc]
            simp only [hc] at hbit
            rw [BitVec.or_comm] at hbit
            obtain ⟨fs, hfs, hmatch, hmask⟩ := (ih (h.child hchild)).mp hbit
            refine ⟨t :: fs, ⟨fun e => absurd e hth, hfs⟩, ?_, ?_⟩
            · simp [filterMatches, hth, hmatch]
            · simpa [maskOf_cons hth, hchild] using hmask
        · cases hc : n.plus with
          | none => simp [hc] at hbit
          | some c =>
            have hph : plusLevel ≠ hashLevel := by decide
            have hchild : n.child plusLevel = some c := by simp [MaskNode.child, hc]
            simp only [hc] at hbit
            rw [BitVec.or_comm] at hbit
            obtain ⟨fs, hfs, hmatch, hmask⟩ := (ih (h.child hchild)).mp hbit
            refine ⟨plusLevel :: fs, ⟨fun e => absurd e hph, hfs⟩, ?_, ?_⟩
            · simp [filterMatches, hph, hmatch]
            · simpa [maskOf_cons hph, hchild] using hmask
      · exact ⟨[hashLevel], ⟨fun _ => rfl, trivial⟩, rfl, by simpa [maskOf] using hbit⟩
    · rintro ⟨fs, hfs, hmatch, hbit⟩
      rw [BitVec.getLsbD_or, Bool.or_eq_true]
      cases fs with
      | nil => simp [filterMatches] at hmatch
      | cons l ls =>
        by_cases hl : l = hashLevel
        · exact .inr (by simpa [maskOf, hl] using hbit)
        · left
          rw [maskOf_cons hl] at hbit
          cases hc : n.child l with
          | none => simp [hc] at hbit
          | some c =>
            simp only [hc] at hbit
            simp only [filterMatches, hl, ↓reduceIte, Bool.and_eq_true, Bool.or_eq_true,
              decide_eq_true_eq] at hmatch
            have hbelow := (ih (h.child hc)).mpr ⟨ls, hfs.2, hmatch.2, hbit⟩
            rw [BitVec.or_comm] at hbelow
            rw [unionFrom, BitVec.getLsbD_or, Bool.or_eq_true]
            by_cases hp : l = plusLevel
            · right
              have hplus : n.plus = some c := by simpa [MaskNode.child, hp] using hc
              simpa only [hplus] using hbelow
            · left
              have hlt : l = t := hmatch.1.resolve_left hp
              have hlook : n.children.lookup t = some c := by
                rw [← hlt]
                simpa [MaskNode.child, hp] using hc
              simpa only [hlook] using hbelow

/-- `match` on a topic that does not start with `$`, at a wanted bit. -/
theorem matchTopic_getLsbD (h : Clean n) {t : Bytes} {want : Mask}
    (ht : t.head? ≠ some dollarByte) (hi : want.getLsbD i = true) : (n.matchTopic t want).getLsbD i = true ↔
      ∃ fs, HashLast fs ∧ filterMatches fs (levels t) = true ∧ (maskOf fs n).getLsbD i = true := by
  rw [← unionFrom_getLsbD h, matchTopic, if_neg ht]
  split
  · rename_i hall
    simp [getLsbD_of_and_eq hall hi]
  · rw [BitVec.getLsbD_or, BitVec.getLsbD_or, matchFrom_getLsbD hi]

end MaskNode

end MonsterMQ.PeerLink
