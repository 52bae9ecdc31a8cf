import MonsterMQ.LittleEndian

/-!
# The bit reader of the H.264 decoder

`bits.go` of `pkg/h264`. The bytes stand for their bits, the highest first; the reader keeps its first
error and consumes nothing after it. An index out of range is a panic, which is `none` here.
-/

namespace MonsterMQ.H264

open LittleEndian List

inductive BitError where
  | truncated (pos : ℕ) (n : ℤ)
  | expGolomb
  | unsigned (v max : ℤ)
  | signed (v min max : ℤ)
  | stopBit
  | alignmentBit
  | dataAfter
  deriving DecidableEq, Repr

structure BitReader where
  data : Bytes
  pos : ℕ
  err : Option BitError
  deriving DecidableEq

namespace BitReader

def fail (b : BitReader) (e : BitError) : BitReader := { b with err := b.err.or (some e) }

def bitAt (b : BitReader) (p : ℕ) : Option ℕ := b.data[p / 8]?.map fun v => v.toNat >>> (7 - p % 8) &&& 1

def bitsLoop : ℕ → ℕ → BitReader → Option (ℕ × BitReader)
  | 0, v, b => some (v, b)
  | n + 1, v, b => (b.bitAt b.pos).bind fun x => bitsLoop n (v <<< 1 ||| x) { b with pos := b.pos + 1 }

def bits (n : ℤ) (b : BitReader) : Option (ℕ × BitReader) :=
  if b.err ≠ none then some (0, b)
  else if n < 0 ∨ 31 < n ∨ (b.data.length : ℤ) * 8 - b.pos < n then some (0, b.fail (.truncated b.pos n))
  else bitsLoop n.toNat 0 b

def flag (b : BitReader) : Option (Bool × BitReader) := (bits 1 b).map fun r => (r.1 ≠ 0, r.2)

/-- The zeros of a code; no number if there are too many. -/
def ueLoop : ℕ → ℕ → BitReader → Option (Option ℕ × BitReader)
  | 0, _, b => some (none, b.fail .expGolomb)
  | k + 1, zeros, b =>
    if b.err ≠ none then some (some zeros, b)
    else (bits 1 b).bind fun r =>
      if r.1 ≠ 0 then some (some zeros, r.2)
      else if 30 < zeros + 1 then some (none, r.2.fail .expGolomb)
      else ueLoop k (zeros + 1) r.2

def ue (b : BitReader) : Option (ℕ × BitReader) :=
  (ueLoop 31 0 b).bind fun r =>
    match r.1 with
    | none => some (0, r.2)
    | some zeros => (bits zeros r.2).map fun q => (1 <<< zeros - 1 + q.1, q.2)

def signedOf (v : ℕ) : ℤ := if v &&& 1 ≠ 0 then ((v : ℤ) + 1) / 2 else (-(v : ℤ)).tdiv 2

def se (b : BitReader) : Option (ℤ × BitReader) := (ue b).map fun r => (signedOf r.1, r.2)

def rangeUE (max : ℤ) (b : BitReader) : Option (ℤ × BitReader) :=
  (ue b).map fun r => if (r.1 : ℤ) > max then (0, r.2.fail (.unsigned r.1 max)) else (r.1, r.2)

def rangeSE (min max : ℤ) (b : BitReader) : Option (ℤ × BitReader) :=
  (se b).map fun r => if r.1 < min ∨ r.1 > max then (0, r.2.fail (.signed r.1 min max)) else r

def moreLoop (b : BitReader) : ℕ → ℕ → Option Bool
  | 0, _ => some false
  | n + 1, p => (b.bitAt p).bind fun x => if x ≠ 0 then some true else moreLoop b n (p + 1)

def more (b : BitReader) : Option Bool :=
  if b.err ≠ none ∨ b.data.length * 8 ≤ b.pos then some false
  else (b.bitAt b.pos).bind fun x =>
    if x = 0 then some true else moreLoop b (b.data.length * 8 - (b.pos + 1)) (b.pos + 1)

def trailingLoop : ℕ → BitReader → Option BitReader
  | 0, b => some b
  | n + 1, b =>
    if b.pos % 8 ≠ 0 ∧ b.err = none then
      (bits 1 b).bind fun r => trailingLoop n (if r.1 ≠ 0 then r.2.fail .alignmentBit else r.2)
    else some b

/-- `trailing`; seven turns of its loop reach the next byte. -/
def trailing (b : BitReader) : Option BitReader :=
  (bits 1 b).bind fun r =>
    (trailingLoop 7 (if r.1 ≠ 1 then r.2.fail .stopBit else r.2)).map fun b =>
      if b.pos ≠ b.data.length * 8 then b.fail .dataAfter else b

def Inside (b : BitReader) : Prop := b.pos ≤ b.data.length * 8

/-- What an operation does to the reader: it goes on inside of the same data, and an error stops it. -/
structure Goes (b b' : BitReader) : Prop where
  data : b'.data = b.data
  inside : b.Inside → b'.Inside
  stuck : b.err ≠ none → b' = b

theorem Goes.refl (b : BitReader) : b.Goes b := ⟨rfl, id, fun _ => rfl⟩

variable {b : BitReader}

theorem Goes.trans {a c : BitReader} (h : a.Goes b) (g : b.Goes c) : a.Goes c where
  data := g.data.trans h.data
  inside hi := g.inside (h.inside hi)
  stuck he := by rw [g.stuck (by rwa [h.stuck he]), h.stuck he]

theorem Goes.fail {a : BitReader} (h : a.Goes b) (e : BitError) : a.Goes (b.fail e) where
  data := h.data
  inside := h.inside
  stuck he := by
    rw [h.stuck he]
    obtain ⟨data, pos, _ | e'⟩ := a
    · exact absurd rfl he
    · rfl

theorem bitAt_of_lt {p : ℕ} (h : p < b.data.length * 8) : ∃ x, b.bitAt p = some x := by
  have hp : p / 8 < b.data.length := by omega
  rw [bitAt, List.getElem?_eq_getElem hp]
  exact ⟨_, rfl⟩

private theorem bitsLoop_goes {n v : ℕ} (h : b.pos + n ≤ b.data.length * 8) :
    ∃ w, bitsLoop n v b = some (w, { b with pos := b.pos + n }) := by
  induction n generalizing v b with
  | zero => exact ⟨v, rfl⟩
  | succ n ih =>
    obtain ⟨x, hx⟩ := bitAt_of_lt (b := b) (p := b.pos) (by omega)
    obtain ⟨w, hw⟩ := ih (v := v <<< 1 ||| x) (b := { b with pos := b.pos + 1 }) (by dsimp only; omega)
    refine ⟨w, ?_⟩
    rw [bitsLoop, hx, Option.bind_some, hw, Nat.add_assoc, Nat.add_comm 1]

theorem bits_goes (n : ℤ) (b : BitReader) : ∃ r, bits n b = some r ∧ b.Goes r.2 := by
  rw [bits]
  split
  · exact ⟨_, rfl, .refl b⟩
  · next herr =>
    split
    · exact ⟨_, rfl, (Goes.refl b).fail _⟩
    · obtain ⟨w, hw⟩ := bitsLoop_goes (n := n.toNat) (v := 0) (b := b) (by omega)
      refine ⟨_, hw, rfl, fun _ => ?_, fun h => absurd h herr⟩
      simp only [Inside]
      omega

private theorem ueLoop_goes (k zeros : ℕ) (b : BitReader) : ∃ r, ueLoop k zeros b = some r ∧ b.Goes r.2 := by
  induction k generalizing zeros b with
  | zero => exact ⟨_, rfl, (Goes.refl b).fail _⟩
  | succ k ih =>
    rw [ueLoop]
    split
    · exact ⟨_, rfl, .refl b⟩
    · obtain ⟨r, hr, hg⟩ := bits_goes 1 b
      rw [hr, Option.bind_some]
      split
      · exact ⟨_, rfl, hg⟩
      · split
        · exact ⟨_, rfl, hg.fail _⟩
        · obtain ⟨q, hq, hg'⟩ := ih (zeros + 1) r.2
          exact ⟨q, hq, hg.trans hg'⟩

theorem ue_goes (b : BitReader) : ∃ r, ue b = some r ∧ b.Goes r.2 := by
  obtain ⟨r, hr, hg⟩ := ueLoop_goes 31 0 b
  rw [ue, hr, Option.bind_some]
  cases hz : r.1 with
  | none => exact ⟨_, rfl, hg⟩
  | some zeros =>
    obtain ⟨q, hq, hg'⟩ := bits_goes zeros r.2
    dsimp only
    rw [hq]
    exact ⟨_, rfl, hg.trans hg'⟩

theorem se_goes (b : BitReader) : ∃ r, se b = some r ∧ b.Goes r.2 := by
  obtain ⟨r, hr, hg⟩ := ue_goes b
  rw [se, hr]
  exact ⟨_, rfl, hg⟩

theorem flag_goes (b : BitReader) : ∃ r, flag b = some r ∧ b.Goes r.2 := by
  obtain ⟨r, hr, h⟩ := bits_goes 1 b
  exact ⟨_, by rw [flag, hr]; rfl, h⟩

theorem rangeUE_goes (max : ℤ) (b : BitReader) : ∃ r, rangeUE max b = some r ∧ b.Goes r.2 := by
  obtain ⟨r, hr, h⟩ := ue_goes b
  refine ⟨_, by rw [rangeUE, hr]; rfl, ?_⟩
  dsimp only
  split
  · exact h.fail _
  · exact h

theorem rangeSE_goes (min max : ℤ) (b : BitReader) : ∃ r, rangeSE min max b = some r ∧ b.Goes r.2 := by
  obtain ⟨r, hr, h⟩ := se_goes b
  refine ⟨_, by rw [rangeSE, hr]; rfl, ?_⟩
  dsimp only
  split
  · exact h.fail _
  · exact h

theorem more_some (b : BitReader) : ∃ x, more b = some x := by
  have hloop : ∀ n p, p + n ≤ b.data.length * 8 → ∃ x, moreLoop b n p = some x := by
    intro n
    induction n with
    | zero => exact fun p _ => ⟨false, rfl⟩
    | succ n ih =>
      intro p hp
      obtain ⟨x, hx⟩ := bitAt_of_lt (b := b) (p := p) (by omega)
      rw [moreLoop, hx, Option.bind_some]
      split
      · exact ⟨_, rfl⟩
      · exact ih (p + 1) (by omega)
  rw [more]
  split
  · exact ⟨_, rfl⟩
  · next h =>
    obtain ⟨x, hx⟩ := bitAt_of_lt (b := b) (p := b.pos) (by omega)
    rw [hx, Option.bind_some]
    split
    · exact ⟨_, rfl⟩
    · exact hloop _ _ (by omega)

private theorem trailingLoop_goes (n : ℕ) (b : BitReader) : ∃ r, trailingLoop n b = some r ∧ b.Goes r := by
  induction n generalizing b with
  | zero => exact ⟨b, rfl, .refl b⟩
  | succ n ih =>
    rw [trailingLoop]
    split
    · obtain ⟨r, hr, hg⟩ := bits_goes 1 b
      rw [hr, Option.bind_some]
      obtain ⟨q, hq, hg'⟩ := ih (if r.1 ≠ 0 then r.2.fail .alignmentBit else r.2)
      refine ⟨q, hq, Goes.trans ?_ hg'⟩
      split
      · exact hg.fail _
      · exact hg
    · exact ⟨b, rfl, .refl b⟩

theorem trailing_goes (b : BitReader) : ∃ r, trailing b = some r ∧ b.Goes r := by
  obtain ⟨r, hr, hg⟩ := bits_goes 1 b
  obtain ⟨q, hq, hg'⟩ := trailingLoop_goes 7 (if r.1 ≠ 1 then r.2.fail .stopBit else r.2)
  have hq' : b.Goes q := by
    refine Goes.trans ?_ hg'
    split
    · exact hg.fail _
    · exact hg
  rw [trailing, hr, Option.bind_some, hq]
  refine ⟨_, rfl, ?_⟩
  dsimp only
  split
  · exact hq'.fail _
  · exact hq'

def natBits : ℕ → ℕ → List Bool
  | 0, _ => []
  | n + 1, v => (v / 2 ^ n % 2 == 1) :: natBits n v

def bitsOf (data : Bytes) : List Bool := data.flatMap fun v => natBits 8 v.toNat

@[simp] theorem natBits_length (n v : ℕ) : (natBits n v).length = n := by
  induction n with
  | zero => rfl
  | succ n ih => simp [natBits, ih]

theorem natBits_getElem? (n v i : ℕ) (h : i < n) : (natBits n v)[i]? = some (v / 2 ^ (n - 1 - i) % 2 == 1) := by
  induction n generalizing i with
  | zero => omega
  | succ n ih =>
    cases i with
    | zero => simp [natBits]
    | succ i =>
      rw [natBits, List.getElem?_cons_succ, ih i (by omega), show n + 1 - 1 - (i + 1) = n - 1 - i by omega]

theorem bitsOf_length (data : Bytes) : (bitsOf data).length = data.length * 8 := by
  induction data with
  | nil => rfl
  | cons v data ih =>
    rw [bitsOf] at ih
    rw [bitsOf, flatMap_cons, length_append, natBits_length, ih, length_cons]
    omega

/-- The index of a bit is its byte and its place there. -/
theorem bitsOf_getElem? (data : Bytes) (p : ℕ) :
    (bitsOf data)[p]? = data[p / 8]?.map fun v => (v.toNat / 2 ^ (7 - p % 8) % 2 == 1) := by
  induction data generalizing p with
  | nil => simp [bitsOf]
  | cons v data ih =>
    rw [bitsOf] at ih ⊢
    rw [flatMap_cons]
    by_cases hp : p < 8
    · rw [List.getElem?_append_left (by simpa using hp), natBits_getElem? 8 _ p hp, Nat.div_eq_of_lt hp,
        Nat.mod_eq_of_lt hp]
      rfl
    · rw [List.getElem?_append_right (by simpa using hp), natBits_length, ih, show p / 8 = (p - 8) / 8 + 1 by omega,
        show p % 8 = (p - 8) % 8 by omega]
      rfl

structure Has (b : BitReader) (s : List Bool) : Prop where
  err : b.err = none
  inside : b.Inside
  rest : (bitsOf b.data).drop b.pos = s

theorem bitAt_eq (b : BitReader) (p : ℕ) : b.bitAt p = (bitsOf b.data)[p]?.map Bool.toNat := by
  rw [bitsOf_getElem?, bitAt, Option.map_map]
  congr 1
  funext v
  simp only [Function.comp_apply, Nat.shiftRight_eq_div_pow, Nat.and_one_is_mod]
  have : v.toNat / 2 ^ (7 - p % 8) % 2 = 0 ∨ v.toNat / 2 ^ (7 - p % 8) % 2 = 1 := by omega
  rcases this with h | h <;> rw [h] <;> rfl

def skip (b : BitReader) (n : ℕ) : BitReader := { b with pos := b.pos + n }

variable {s : List Bool}

theorem Has.bitAt {x : Bool} (h : b.Has (x :: s)) : b.bitAt b.pos = some x.toNat ∧ (b.skip 1).Has s := by
  have hget : (bitsOf b.data)[b.pos]? = some x := by rw [← List.head?_drop, h.rest, List.head?_cons]
  refine ⟨by rw [bitAt_eq, hget]; rfl, h.err, ?_, ?_⟩
  · have := (List.getElem?_eq_some_iff.mp hget).1
    rw [bitsOf_length] at this
    exact this
  · rw [skip, ← drop_drop, h.rest]
    rfl

theorem skip_skip (b : BitReader) (m n : ℕ) : (b.skip m).skip n = b.skip (m + n) := by
  rw [skip, skip, skip, Nat.add_assoc]

private theorem shift_or (w : ℕ) (x : Bool) : w <<< 1 ||| x.toNat = 2 * w + x.toNat := by
  rw [Nat.shiftLeft_eq, Nat.mul_comm, ← Nat.two_pow_add_eq_or_of_lt x.toNat_lt, Nat.pow_one]

theorem Has.bitsLoop {n v w : ℕ} (h : b.Has (natBits n v ++ s)) :
    bitsLoop n w b = some (w * 2 ^ n + v % 2 ^ n, b.skip n) ∧ (b.skip n).Has s := by
  induction n generalizing w b with
  | zero => exact ⟨by rw [BitReader.bitsLoop, Nat.pow_zero, Nat.mod_one, Nat.mul_one]; rfl, h⟩
  | succ n ih =>
    obtain ⟨hbit, hnext⟩ := h.bitAt
    obtain ⟨hloop, hhas⟩ := ih (w := w <<< 1 ||| (v / 2 ^ n % 2 == 1).toNat) hnext
    have hx : (v / 2 ^ n % 2 == 1).toNat = v / 2 ^ n % 2 := by
      have : v / 2 ^ n % 2 = 0 ∨ v / 2 ^ n % 2 = 1 := by omega
      rcases this with h | h <;> rw [h] <;> rfl
    rw [skip_skip, Nat.add_comm 1 n] at hloop hhas
    refine ⟨?_, hhas⟩
    rw [BitReader.bitsLoop, hbit, Option.bind_some]
    refine hloop.trans ?_
    rw [shift_or, hx, Nat.mod_pow_succ]
    congr 2
    ring

/-- A number is read from its bits. -/
theorem Has.bits {n v : ℕ} (h : b.Has (natBits n v ++ s)) (hn : n ≤ 31) :
    bits n b = some (v % 2 ^ n, b.skip n) ∧ (b.skip n).Has s := by
  obtain ⟨hloop, hhas⟩ := h.bitsLoop (w := 0)
  have hin : b.pos + n ≤ b.data.length * 8 := hhas.inside
  rw [BitReader.bits, if_neg (not_not.mpr h.err), if_neg (by omega), Int.toNat_natCast, hloop, Nat.zero_mul,
    Nat.zero_add]
  exact ⟨rfl, hhas⟩

theorem Has.bit {x : Bool} (h : b.Has (x :: s)) :
    BitReader.bits 1 b = some (x.toNat, b.skip 1) ∧ (b.skip 1).Has s := by
  have h' : b.Has (natBits 1 x.toNat ++ s) := by cases x <;> exact h
  have := h'.bits (by decide)
  rwa [Nat.pow_one, Nat.mod_eq_of_lt x.toNat_lt] at this

/-- The code of Exp-Golomb: as many zeros as the number has bits after its first. -/
def ueBits (v : ℕ) : List Bool := List.replicate (v + 1).log2 false ++ natBits ((v + 1).log2 + 1) (v + 1)

theorem Has.ueLoop {j k z : ℕ} (h : b.Has (List.replicate j false ++ true :: s))
    (hj : z + j ≤ 30) (hk : k + z = 31) :
    ueLoop k z b = some (some (z + j), b.skip (j + 1)) ∧ (b.skip (j + 1)).Has s := by
  induction j generalizing k z b with
  | zero =>
    obtain ⟨hbit, hhas⟩ := h.bit
    obtain ⟨k, rfl⟩ : ∃ i, k = i + 1 := ⟨k - 1, by omega⟩
    rw [BitReader.ueLoop, if_neg (not_not.mpr h.err), hbit]
    exact ⟨rfl, hhas⟩
  | succ j ih =>
    obtain ⟨hbit, hhas⟩ := h.bit
    obtain ⟨k, rfl⟩ : ∃ i, k = i + 1 := ⟨k - 1, by omega⟩
    obtain ⟨hloop, hrest⟩ := ih (k := k) (z := z + 1) hhas (by omega) (by omega)
    rw [skip_skip, Nat.add_comm 1] at hloop hrest
    refine ⟨?_, hrest⟩
    rw [BitReader.ueLoop, if_neg (not_not.mpr h.err), hbit, Option.bind_some, if_neg (by simp), if_neg (by omega),
      hloop, Nat.add_assoc, Nat.add_comm 1]

theorem Has.ue {v : ℕ} (h : b.Has (ueBits v ++ s)) (hv : v < 2 ^ 31 - 1) :
    ∃ b', BitReader.ue b = some (v, b') ∧ b'.Has s := by
  have hlow : 2 ^ (v + 1).log2 ≤ v + 1 := Nat.log2_self_le (Nat.succ_ne_zero v)
  have hhigh : v + 1 < 2 ^ ((v + 1).log2 + 1) := Nat.lt_log2_self
  have hlog : (v + 1).log2 < 31 := (Nat.log2_lt (Nat.succ_ne_zero v)).mpr (by omega)
  have hone : (v + 1) / 2 ^ (v + 1).log2 = 1 := by
    rw [Nat.pow_succ] at hhigh
    exact Nat.div_eq_of_lt_le (by omega) (by omega)
  rw [ueBits, append_assoc, natBits, hone] at h
  obtain ⟨hloop, hhas⟩ := h.ueLoop (k := 31) (z := 0) (by omega) rfl
  obtain ⟨hbits, hrest⟩ := hhas.bits (by omega)
  refine ⟨_, ?_, hrest⟩
  rw [BitReader.ue, hloop, Option.bind_some]
  dsimp only
  rw [Nat.zero_add, hbits, Option.map_some, Nat.one_shiftLeft]
  have hmod : (v + 1) % 2 ^ (v + 1).log2 = v + 1 - 2 ^ (v + 1).log2 := by
    have := Nat.div_add_mod (v + 1) (2 ^ (v + 1).log2)
    rw [hone] at this
    omega
  congr 2
  omega

def seCode (v : ℤ) : ℕ := if 0 < v then (2 * v - 1).toNat else (-(2 * v)).toNat

private theorem signedOf_seCode (v : ℤ) : signedOf (seCode v) = v := by
  rw [signedOf, seCode, Nat.and_one_is_mod]
  split_ifs with hpos hodd hodd
  · omega
  · omega
  · omega
  · rw [Int.toNat_of_nonneg (by omega), neg_neg, Int.mul_tdiv_cancel_left v two_ne_zero]

private theorem moreLoop_eq {n p : ℕ} (h : p + n = b.data.length * 8) :
    moreLoop b n p = some (((bitsOf b.data).drop p).any id) := by
  induction n generalizing p with
  | zero => rw [drop_of_length_le (by rw [bitsOf_length]; omega)]; rfl
  | succ n ih =>
    have hp : p < (bitsOf b.data).length := by rw [bitsOf_length]; omega
    rw [moreLoop, bitAt_eq, List.getElem?_eq_getElem hp, drop_eq_getElem_cons hp, Option.map_some, Option.bind_some,
      ih (by omega), any_cons]
    cases (bitsOf b.data)[p] <;> rfl

theorem Has.more {x : Bool} (h : b.Has (x :: s)) : b.more = some (!x || s.any id) := by
  obtain ⟨hbit, hnext⟩ := h.bitAt
  have hin : b.pos + 1 ≤ b.data.length * 8 := hnext.inside
  have hrest := hnext.rest
  rw [skip] at hrest
  rw [BitReader.more, if_neg (by rw [h.err]; simp; omega), hbit, Option.bind_some, moreLoop_eq (by omega), hrest]
  cases x <;> rfl

/-- The bits after the payload: the stop bit, and zeros up to the next byte. -/
def trailingBits (n : ℕ) : List Bool := true :: List.replicate (7 - n % 8) false

theorem Has.trailingLoop {j n : ℕ} (h : b.Has (List.replicate j false)) (hj : j ≤ n) (h8 : j < 8) :
    trailingLoop n b = some (b.skip j) ∧ b.pos + j = b.data.length * 8 := by
  have hlen : b.pos + j = b.data.length * 8 := by
    have := congrArg List.length h.rest
    have hin : b.pos ≤ b.data.length * 8 := h.inside
    rw [length_drop, bitsOf_length, length_replicate] at this
    omega
  refine ⟨?_, hlen⟩
  induction j generalizing n b with
  | zero =>
    cases n with
    | zero => rfl
    | succ n => rw [BitReader.trailingLoop, if_neg (by omega)]; rfl
  | succ j ih =>
    obtain ⟨hbit, hhas⟩ := h.bit
    obtain ⟨n, rfl⟩ : ∃ i, n = i + 1 := ⟨n - 1, by omega⟩
    rw [BitReader.trailingLoop, if_pos ⟨by omega, h.err⟩, hbit, Option.bind_some, if_neg (by simp),
      ih hhas (by omega) (by omega) (by simp only [skip]; omega), skip_skip, Nat.add_comm 1]

theorem Has.trailing {j : ℕ} (h : b.Has (true :: List.replicate j false)) (hj : j < 8) :
    ∃ b', BitReader.trailing b = some b' ∧ b'.err = none := by
  obtain ⟨hbit, hhas⟩ := h.bit
  obtain ⟨hloop, hlen⟩ := hhas.trailingLoop (n := 7) (by omega) hj
  rw [BitReader.trailing, hbit, Option.bind_some, if_neg (by simp), hloop, Option.map_some,
    if_neg (by simpa [skip] using hlen)]
  exact ⟨_, rfl, h.err⟩

inductive Field where
  | fixed (n v : ℕ)
  | ue (v : ℕ)
  | se (v : ℤ)

namespace Field

def Valid : Field → Prop
  | fixed n v => 1 ≤ n ∧ n ≤ 31 ∧ v < 2 ^ n
  | ue v => v < 2 ^ 31 - 1
  | se v => seCode v < 2 ^ 31 - 1

def bits : Field → List Bool
  | fixed n v => natBits n v
  | ue v => ueBits v
  | se v => ueBits (seCode v)

def value : Field → ℤ
  | fixed _ v => v
  | ue v => v
  | se v => v

def read (b : BitReader) : Field → Option (ℤ × BitReader)
  | fixed n _ => (b.bits n).map fun r => ((r.1 : ℤ), r.2)
  | ue _ => b.ue.map fun r => ((r.1 : ℤ), r.2)
  | se _ => b.se

private theorem read_eq {f : Field} (hf : f.Valid) {b : BitReader} {s : List Bool} (h : b.Has (f.bits ++ s)) :
    ∃ b', f.read b = some (f.value, b') ∧ b'.Has s := by
  cases f with
  | fixed n v =>
    obtain ⟨hbits, hhas⟩ := Has.bits h hf.2.1
    rw [Nat.mod_eq_of_lt hf.2.2] at hbits
    exact ⟨_, by rw [read, hbits]; rfl, hhas⟩
  | ue v =>
    obtain ⟨b', hue, hhas⟩ := Has.ue h hf
    exact ⟨b', by rw [read, hue]; rfl, hhas⟩
  | se v =>
    obtain ⟨b', hue, hhas⟩ := Has.ue h hf
    exact ⟨b', by rw [read, BitReader.se, hue, Option.map_some, signedOf_seCode]; rfl, hhas⟩

private theorem bits_ne_nil {f : Field} (hf : f.Valid) : f.bits ≠ [] := by
  cases f with
  | fixed n v => exact ne_nil_of_length_pos (by rw [bits, natBits_length]; exact hf.1)
  | ue v | se v => simp [bits, ueBits, natBits]

end Field

/-- Reads the fields one after the other, each with the answer of `more` before it. -/
def readFields : List Field → BitReader → Option (List (Bool × ℤ) × BitReader)
  | [], b => some ([], b)
  | f :: fs, b => b.more.bind fun m => (f.read b).bind fun r => (readFields fs r.2).map fun q => ((m, r.1) :: q.1, q.2)

theorem readFields_eq {fs : List Field} (hfs : ∀ f ∈ fs, f.Valid) {b : BitReader} {s : List Bool} (hs : true ∈ s)
    (h : b.Has (fs.flatMap Field.bits ++ s)) :
    ∃ b', readFields fs b = some (fs.map fun f => (true, f.value), b') ∧ b'.Has s := by
  induction fs generalizing b with
  | nil => exact ⟨b, rfl, h⟩
  | cons f fs ih =>
    have hf := hfs f mem_cons_self
    rw [flatMap_cons, append_assoc] at h
    obtain ⟨b₁, hread, hhas⟩ := Field.read_eq hf h
    obtain ⟨b', hrest, hlast⟩ := ih (fun g hg => hfs g (mem_cons_of_mem _ hg)) hhas
    have hmore : b.more = some true := by
      obtain ⟨x, t, hx⟩ := exists_cons_of_ne_nil (Field.bits_ne_nil hf)
      rw [hx, cons_append] at h
      rw [h.more, any_eq_true.mpr ⟨true, by simp [hs], rfl⟩, Bool.or_true]
    exact ⟨b', by rw [readFields, hmore, Option.bind_some, hread, Option.bind_some, hrest]; rfl, hlast⟩

def valueOf : List Bool → ℕ
  | [] => 0
  | x :: l => x.toNat * 2 ^ l.length + valueOf l

theorem valueOf_lt (l : List Bool) : valueOf l < 2 ^ l.length := by
  induction l with
  | nil => exact Nat.one_pos
  | cons x l ih =>
    have := Nat.mul_le_mul_right (2 ^ l.length) (Nat.lt_succ_iff.mp x.toNat_lt)
    rw [valueOf, length_cons, Nat.pow_succ]
    omega

private theorem natBits_add (n a v : ℕ) : natBits n (a * 2 ^ n + v) = natBits n v := by
  induction n generalizing a with
  | zero => rfl
  | succ n ih =>
    rw [natBits, natBits, Nat.pow_succ, show a * (2 ^ n * 2) = a * 2 * 2 ^ n by ring, ih, Nat.add_comm,
      Nat.add_mul_div_right _ _ (Nat.two_pow_pos n), Nat.add_mul_mod_self_right]

private theorem natBits_valueOf (l : List Bool) : natBits l.length (valueOf l) = l := by
  induction l with
  | nil => rfl
  | cons x l ih =>
    rw [length_cons, natBits, valueOf, natBits_add, ih, Nat.add_comm, Nat.add_mul_div_right _ _ (Nat.two_pow_pos _),
      Nat.div_eq_of_lt (valueOf_lt l)]
    cases x <;> rfl

def pack : List Bool → Bytes
  | a :: b :: c :: d :: e :: f :: g :: h :: l => UInt8.ofNat (valueOf [a, b, c, d, e, f, g, h]) :: pack l
  | _ => []

theorem bitsOf_pack (l : List Bool) (hl : l.length % 8 = 0) : bitsOf (pack l) = l := by
  fun_induction pack l with
  | case1 a b c d e f g h l ih =>
    have hv := natBits_valueOf [a, b, c, d, e, f, g, h]
    have hlt := valueOf_lt [a, b, c, d, e, f, g, h]
    generalize valueOf [a, b, c, d, e, f, g, h] = v at hv hlt ⊢
    simp only [length_cons, length_nil, Nat.reduceAdd, Nat.reducePow] at hv hlt
    rw [bitsOf, flatMap_cons, ← bitsOf, ih (by simp at hl; omega), UInt8.toNat_ofNat_of_lt' hlt, hv]
    rfl
  | case2 l hshort =>
    rcases l with _ | ⟨a, _ | ⟨b, _ | ⟨c, _ | ⟨d, _ | ⟨e, _ | ⟨f, _ | ⟨g, _ | ⟨h, l⟩⟩⟩⟩⟩⟩⟩⟩
    · rfl
    all_goals simp at hl
    exact absurd rfl (hshort a b c d e f g h l)

def writeFields (fs : List Field) : Bytes :=
  pack (fs.flatMap Field.bits ++ trailingBits (fs.flatMap Field.bits).length)

/-- Fields are read as they were written, and `more` tells where they end. -/
theorem fields_round_trip {fs : List Field} (hfs : ∀ f ∈ fs, f.Valid) :
    ∃ b', readFields fs ⟨writeFields fs, 0, none⟩ = some (fs.map fun f => (true, f.value), b') ∧
      b'.more = some false ∧ ∃ b'', b'.trailing = some b'' ∧ b''.err = none := by
  have hbits : bitsOf (writeFields fs) = _ := bitsOf_pack _ (by
    rw [length_append, trailingBits, length_cons, length_replicate]
    omega)
  have hhas : BitReader.Has ⟨writeFields fs, 0, none⟩ _ := ⟨rfl, Nat.zero_le _, hbits⟩
  obtain ⟨b', hread, hlast⟩ := readFields_eq hfs mem_cons_self hhas
  refine ⟨b', hread, ?_, hlast.trailing (by omega)⟩
  rw [hlast.more, any_eq_false.mpr (by simp)]
  rfl

end BitReader

end MonsterMQ.H264
