import MonsterMQ.LittleEndian
import Mathlib.Data.List.Nodup
import Mathlib.Data.List.Perm.Subperm
import Mathlib.Order.Basic

/-!
# What a SELECT answers

`ORDER BY key DESC LIMIT n` leaves the order of rows with equal keys open, so an answer is one of several
lists. `LIKE` compares a text with a pattern, character by character.
-/

namespace MonsterMQ.SqlSelects

open LittleEndian List

section Order

variable {Row K K' : Type} [LT K] [LT K']

/-- The list is an answer of `ORDER BY key DESC LIMIT n` for these rows. -/
def Newest (key : Row → K) (n : ℕ) (rows out : List Row) : Prop :=
  ∃ l : List Row, l.Perm rows ∧ l.Pairwise (fun a b => ¬ key a < key b) ∧ out = l.take n

variable {key : Row → K} {key' : Row → K'} {n : ℕ} {rows out : List Row}

theorem Newest.congr (h : Newest key n rows out)
    (hkeys : ∀ a ∈ rows, ∀ b ∈ rows, key' a < key' b → key a < key b) : Newest key' n rows out := by
  obtain ⟨l, hperm, hsorted, hout⟩ := h
  refine ⟨l, hperm, hsorted.imp_of_mem ?_, hout⟩
  intro a b ha hb hab hlt
  exact hab (hkeys a (hperm.mem_iff.mp ha) b (hperm.mem_iff.mp hb) hlt)

theorem exists_newest [DecidableRel (fun a b : K => a < b)] (key : Row → K)
    (htrans : ∀ a b c : K, ¬ a < b → ¬ b < c → ¬ a < c) (htotal : ∀ a b : K, ¬ a < b ∨ ¬ b < a)
    (n : ℕ) (rows : List Row) : ∃ out, Newest key n rows out := by
  refine ⟨_, rows.mergeSort (fun a b => decide (¬ key a < key b)), mergeSort_perm _ _, ?_, rfl⟩
  have htrans' : ∀ a b c : Row, decide (¬ key a < key b) = true → decide (¬ key b < key c) = true →
      decide (¬ key a < key c) = true := fun a b c hab hbc =>
    decide_eq_true (htrans _ _ _ (of_decide_eq_true hab) (of_decide_eq_true hbc))
  have htotal' : ∀ a b : Row, (decide (¬ key a < key b) || decide (¬ key b < key a)) = true := by
    intro a b
    rcases htotal (key a) (key b) with h | h
    · simp [h]
    · simp [h]
  exact (pairwise_mergeSort htrans' htotal' rows).imp fun h => of_decide_eq_true h

theorem pairwise_or {R : Row → Row → Prop} {l : List Row} (h : l.Pairwise R) {a b : Row} (ha : a ∈ l)
    (hb : b ∈ l) (hne : a ≠ b) : R a b ∨ R b a := by
  induction h with
  | nil => cases ha
  | @cons x l hx _ ih =>
    rcases mem_cons.mp ha with rfl | hal
    · exact .inl (hx b ((mem_cons.mp hb).resolve_left hne.symm))
    · rcases mem_cons.mp hb with rfl | hbl
      · exact .inr (hx a hal)
      · exact ih hal hbl

theorem Newest.agree (h : Newest key n rows out) (h' : Newest key' n rows out) (hn : rows.length ≤ n)
    {a b : Row} (ha : a ∈ rows) (hb : b ∈ rows) (hne : a ≠ b) :
    (¬ key a < key b ∧ ¬ key' a < key' b) ∨ (¬ key b < key a ∧ ¬ key' b < key' a) := by
  obtain ⟨l, hperm, hsorted, hout⟩ := h
  obtain ⟨l', hperm', hsorted', hout'⟩ := h'
  rw [take_of_length_le (hperm.length_eq.trans_le hn)] at hout
  rw [take_of_length_le (hperm'.length_eq.trans_le hn)] at hout'
  subst hout
  subst hout'
  exact pairwise_or (hsorted.and hsorted') (hperm.mem_iff.mpr ha) (hperm.mem_iff.mpr hb) hne

theorem Newest.map {Row' : Type} (f : Row → Row') {key' : Row' → K}
    (h : Newest (fun r => key' (f r)) n rows out) : Newest key' n (rows.map f) (out.map f) := by
  obtain ⟨l, hperm, hsorted, rfl⟩ := h
  refine ⟨l.map f, hperm.map f, ?_, (map_take).symm ▸ rfl⟩
  rw [pairwise_map]
  exact hsorted

theorem Newest.length (h : Newest key n rows out) : out.length = min n rows.length := by
  obtain ⟨l, hperm, -, rfl⟩ := h
  rw [length_take, hperm.length_eq]

theorem Newest.subset (h : Newest key n rows out) : out ⊆ rows := by
  obtain ⟨l, hperm, -, rfl⟩ := h
  intro r hr
  exact hperm.mem_iff.mp (mem_of_mem_take hr)

theorem Newest.nodup (h : Newest key n rows out) (hn : rows.Nodup) : out.Nodup := by
  obtain ⟨l, hperm, -, rfl⟩ := h
  exact (hperm.nodup_iff.mpr hn).sublist (take_sublist n l)

theorem mem_take_iff [DecidableRel (fun a b : K => a < b)] {l : List Row}
    (hsorted : l.Pairwise (fun a b => key b < key a)) (hasymm : ∀ a b : K, a < b → ¬ b < a)
    (r : Row) : ∀ n, r ∈ l.take n ↔ r ∈ l ∧ l.countP (fun x => key r < key x) < n := by
  induction hsorted with
  | nil =>
    intro n
    simp
  | @cons x l hx _ ih =>
    intro n
    cases n with
    | zero => simp
    | succ n =>
      rw [take_succ_cons, mem_cons, mem_cons, ih n, countP_cons]
      constructor
      · rintro (rfl | ⟨hr, hcount⟩)
        · have hzero : l.countP (fun x => decide (key r < key x)) = 0 := by
            rw [countP_eq_zero]
            intro y hy
            simpa using hasymm _ _ (hx y hy)
          have hself : ¬ key r < key r := fun h => hasymm _ _ h h
          rw [hzero]
          simp [hself]
        · refine ⟨.inr hr, ?_⟩
          rw [if_pos (decide_eq_true (hx r hr))]
          omega
      · rintro ⟨rfl | hr, hcount⟩
        · exact .inl rfl
        · rw [if_pos (decide_eq_true (hx r hr))] at hcount
          exact .inr ⟨hr, by omega⟩

/-- With different keys there is one answer: the rows that fewer than `n` others come before. -/
theorem Newest.mem_iff [DecidableRel (fun a b : K => a < b)] (h : Newest key n rows out)
    (hasymm : ∀ a b : K, a < b → ¬ b < a) (hnodup : rows.Nodup)
    (hne : ∀ a ∈ rows, ∀ b ∈ rows, a ≠ b → key a < key b ∨ key b < key a) (r : Row) :
    r ∈ out ↔ r ∈ rows ∧ rows.countP (fun x => key r < key x) < n := by
  obtain ⟨l, hperm, hsorted, rfl⟩ := h
  have hstrict : l.Pairwise (fun a b => key b < key a) := by
    have hboth := hsorted.and (hperm.nodup_iff.mpr hnodup)
    refine hboth.imp_of_mem ?_
    rintro a b ha hb ⟨hnot, hab⟩
    exact (hne a (hperm.mem_iff.mp ha) b (hperm.mem_iff.mp hb) hab).resolve_left hnot
  rw [mem_take_iff hstrict hasymm, hperm.mem_iff, hperm.countP_eq]

theorem countP_le_of_subset {p q : Row → Bool} {l l' : List Row} (hl : l.Nodup)
    (h : ∀ r ∈ l, p r = true → r ∈ l' ∧ q r = true) : l.countP p ≤ l'.countP q := by
  rw [countP_eq_length_filter, countP_eq_length_filter]
  apply (subperm_of_subset (hl.filter p) _).length_le
  intro r hr
  obtain ⟨hmem, hp⟩ := mem_filter.mp hr
  exact mem_filter.mpr (h r hmem hp)

end Order

section Selections

variable {Row K : Type} [LinearOrder K] {key : Row → K} {n : ℕ} {rows out : List Row}

theorem Newest.mem_iff_of_inj (h : Newest key n rows out) (hnodup : rows.Nodup)
    (hinj : ∀ a ∈ rows, ∀ b ∈ rows, key a = key b → a = b) (r : Row) :
    r ∈ out ↔ r ∈ rows ∧ rows.countP (fun x => key r < key x) < n := by
  apply h.mem_iff (fun _ _ => lt_asymm) hnodup
  intro a ha b hb hne
  exact lt_or_gt_of_ne fun heq => hne (hinj a ha b hb heq)

/-- A row behind `n` others comes behind all rows of the answer, which are then `n`. -/
theorem Newest.ahead (h : Newest key n rows out) (hnodup : rows.Nodup)
    (hinj : ∀ a ∈ rows, ∀ b ∈ rows, key a = key b → a = b) {r : Row}
    (hr : n ≤ rows.countP (fun x => key r < key x)) : out.length = n ∧ ∀ q ∈ out, key r < key q := by
  constructor
  · rw [h.length]
    exact Nat.min_eq_left (hr.trans countP_le_length)
  · intro q hq
    by_contra hle
    have hcount : rows.countP (fun x => decide (key r < key x)) ≤
        rows.countP (fun x => decide (key q < key x)) := by
      apply countP_le_of_subset hnodup
      intro x hx hlt
      exact ⟨hx, decide_eq_true ((not_lt.mp hle).trans_lt (of_decide_eq_true hlt))⟩
    have hlt := ((h.mem_iff_of_inj hnodup hinj q).mp hq).2
    exact absurd (hr.trans hcount) (Nat.not_le_of_lt hlt)

theorem Newest.count_of_ahead {l : List Row} (h : Newest key n rows out) (hnodup : rows.Nodup)
    (hinj : ∀ a ∈ rows, ∀ b ∈ rows, key a = key b → a = b) (hsub : ∀ q ∈ out, q ∈ l) {r : Row}
    (hr : n ≤ rows.countP (fun x => key r < key x)) : n ≤ l.countP (fun x => key r < key x) := by
  obtain ⟨hlen, hahead⟩ := h.ahead hnodup hinj hr
  rw [← hlen, ← countP_eq_length.mpr fun q hq => decide_eq_true (hahead q hq)]
  apply countP_le_of_subset (h.nodup hnodup)
  intro q hq hlt
  exact ⟨hsub q hq, hlt⟩

variable {selected matched outS outM : List Row}

/-- Two selections have the same answer exactly when each row that is in one of them only comes
behind `n` rows of the second. -/
theorem newest_eq_iff (hS : Newest key n selected outS) (hM : Newest key n matched outM)
    (hnS : selected.Nodup) (hnM : matched.Nodup) (hiS : ∀ a ∈ selected, ∀ b ∈ selected, key a = key b → a = b)
    (hiM : ∀ a ∈ matched, ∀ b ∈ matched, key a = key b → a = b) :
    (∀ r, r ∈ outS ↔ r ∈ outM) ↔ ∀ r, ¬ (r ∈ selected ↔ r ∈ matched) →
      n ≤ matched.countP (fun x => key r < key x) := by
  have hmemS := hS.mem_iff_of_inj hnS hiS
  have hmemM := hM.mem_iff_of_inj hnM hiM
  constructor
  · intro h r hdiff
    by_cases hr : r ∈ matched
    · have hout : r ∉ outM := fun hm => hdiff (iff_of_true (hS.subset ((h r).mpr hm)) hr)
      rw [hmemM, not_and] at hout
      exact Nat.le_of_not_lt (hout hr)
    · have hsel : r ∈ selected := by
        by_contra hsel
        exact hdiff (iff_of_false hsel hr)
      have hout : r ∉ outS := fun hs => hr (hM.subset ((h r).mp hs))
      rw [hmemS, not_and] at hout
      exact hS.count_of_ahead hnS hiS (fun q hq => hM.subset ((h q).mp hq))
        (Nat.le_of_not_lt (hout hsel))
  · intro h
    have hsub : ∀ r ∈ outM, r ∈ outS := by
      intro r hr
      obtain ⟨hmem, hcount⟩ := (hmemM r).mp hr
      have hin : ∀ x, (x = r ∨ key r < key x) → (x ∈ selected ↔ x ∈ matched) := by
        intro x hx
        by_contra hdiff
        apply absurd (h x hdiff) (Nat.not_le_of_lt (Nat.lt_of_le_of_lt _ hcount))
        apply countP_le_of_subset hnM
        intro y hy hlt
        refine ⟨hy, decide_eq_true ?_⟩
        rcases hx with rfl | hx
        · exact of_decide_eq_true hlt
        · exact hx.trans (of_decide_eq_true hlt)
      refine (hmemS r).mpr ⟨(hin r (.inl rfl)).mpr hmem, Nat.lt_of_le_of_lt ?_ hcount⟩
      apply countP_le_of_subset hnS
      intro x hx hlt
      exact ⟨(hin x (.inr (of_decide_eq_true hlt))).mp hx, hlt⟩
    intro r
    refine ⟨?_, hsub r⟩
    intro hr
    obtain ⟨hsel, hcount⟩ := (hmemS r).mp hr
    have hless : ¬ n ≤ matched.countP (fun x => key r < key x) := by
      intro hle
      exact absurd (hM.count_of_ahead hnM hiM (fun q hq => hS.subset (hsub q hq)) hle)
        (Nat.not_le_of_lt hcount)
    have hmat : r ∈ matched := by
      by_contra hmat
      exact hless (h r fun hiff => hmat (hiff.mp hsel))
    exact (hmemM r).mpr ⟨hmat, Nat.lt_of_not_le hless⟩

end Selections

/-- A byte inside a character of UTF-8, behind its first. -/
def continues (c : UInt8) : Bool := 0x80 ≤ c && c < 0xC0

def rests : Bytes → List Bytes
  | [] => [[]]
  | c :: t => if continues c then rests t else (c :: t) :: rests t

/-- `LIKE`, with what is the same for two bytes and with or without the backslash that takes the next
character as it is. A pattern that ends with that backslash selects nothing. -/
def like (same : UInt8 → UInt8 → Bool) (escape : Bool) : Bytes → Bytes → Bool
  | [], t => t.isEmpty
  | [c], t =>
    if c = 0x25 then true
    else match t with
      | [] => false
      | d :: t =>
        if c = 0x5F then (t.dropWhile continues).isEmpty
        else if escape && c = 0x5C then false
        else same c d && t.isEmpty
  | c :: e :: p, t =>
    if c = 0x25 then (rests t).any (like same escape (e :: p))
    else match t with
      | [] => false
      | d :: t =>
        if c = 0x5F then like same escape (e :: p) (t.dropWhile continues)
        else if escape && c = 0x5C then same e d && like same escape p t
        else same c d && like same escape (e :: p) t

theorem like_percent (same : UInt8 → UInt8 → Bool) (escape : Bool) (t : Bytes) :
    like same escape [0x25] t = true := by
  simp [like]

section Like

variable {same : UInt8 → UInt8 → Bool} {escape : Bool} {c : UInt8} (p : Bytes)

def CharStart (t : Bytes) : Prop := ∀ d, t.head? = some d → continues d = false

theorem mem_rests_iff {t r : Bytes} : r ∈ rests t ↔ ∃ u, t = u ++ r ∧ CharStart r := by
  induction t with
  | nil =>
    rw [rests, mem_singleton]
    constructor
    · rintro rfl
      exact ⟨[], rfl, fun d hd => by cases hd⟩
    · rintro ⟨u, hu, -⟩
      exact (append_eq_nil_iff.mp hu.symm).2
  | cons c t ih =>
    have hcons : (∃ u, c :: t = u ++ r ∧ CharStart r) ↔
        (r = c :: t ∧ continues c = false) ∨ ∃ u, t = u ++ r ∧ CharStart r := by
      constructor
      · rintro ⟨u, hu, hstart⟩
        cases u with
        | nil =>
          obtain rfl := hu.symm
          exact .inl ⟨rfl, hstart c rfl⟩
        | cons b u => exact .inr ⟨u, (cons.inj hu).2, hstart⟩
      · rintro (⟨rfl, hc⟩ | ⟨u, rfl, hstart⟩)
        · refine ⟨[], rfl, ?_⟩
          intro d hd
          rw [← Option.some.inj hd, hc]
        · exact ⟨c :: u, rfl, hstart⟩
    rw [hcons, rests]
    split
    · rename_i hc
      rw [ih, hc]
      simp
    · rename_i hc
      rw [mem_cons, ih, Bool.not_eq_true] at *
      simp [hc]

theorem like_percent_cons (t : Bytes) :
    like same escape (0x25 :: p) t = (rests t).any (like same escape p) := by
  cases p with
  | nil =>
    rw [like_percent, eq_comm, any_eq_true]
    exact ⟨[], mem_rests_iff.mpr ⟨t, (append_nil t).symm, fun d hd => by cases hd⟩, rfl⟩
  | cons e p => simp [like]

theorem like_empty (hc : c ≠ 0x25) : like same escape (c :: p) [] = false := by
  cases p with
  | nil | cons e p => simp [like, hc]

theorem like_underscore_cons (d : UInt8) (t : Bytes) :
    like same escape (0x5F :: p) (d :: t) = like same escape p (t.dropWhile continues) := by
  cases p with
  | nil => rfl
  | cons e p => rfl

theorem like_letter_cons (hc : c ≠ 0x25) (hone : c ≠ 0x5F) (hescape : (escape && c = 0x5C) = false)
    (d : UInt8) (t : Bytes) : like same escape (c :: p) (d :: t) = (same c d && like same escape p t) := by
  cases p with
  | nil | cons e p => simp [like, hc, hone, hescape]

end Like

end MonsterMQ.SqlSelects
