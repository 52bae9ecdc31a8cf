import MonsterMQ.H264Bits

/-!
# NAL units in byte streams

`SplitAnnexB` and `rbsp` of `pkg/h264`, which take a byte stream apart at its start codes and remove the
emulation prevention from a NAL unit.
-/

namespace MonsterMQ.H264

open LittleEndian List

inductive NalError where
  | emptyNAL
  | bytesBefore
  | missingNAL
  | header
  | emulation
  | startCode
  | panic
  deriving DecidableEq

def slice (data : Bytes) (lo hi : ℤ) : Except NalError Bytes :=
  if 0 ≤ lo ∧ lo ≤ hi ∧ hi ≤ data.length then .ok ((data.drop lo.toNat).take (hi - lo).toNat) else .error .panic

def byteAt (data : Bytes) (i : ℕ) : Except NalError UInt8 := data[i]?.elim (.error .panic) .ok

structure Split where
  out : List Bytes
  start : ℤ
  zeros : ℕ

def splitByte (data : Bytes) (s : Split) (i : ℕ) (v : UInt8) : Except NalError Split :=
  if v = 0 then .ok { s with zeros := s.zeros + 1 }
  else if v = 1 ∧ 2 ≤ s.zeros then
    if 0 ≤ s.start then
      if (i : ℤ) - s.zeros = s.start then .error .emptyNAL
      else (slice data s.start (i - s.zeros)).map fun nal => ⟨s.out ++ [nal], i + 1, 0⟩
    else if (i : ℤ) - s.zeros ≠ 0 then .error .bytesBefore
    else .ok ⟨s.out, i + 1, 0⟩
  else .ok { s with zeros := 0 }

def splitLoop (data : Bytes) : ℕ → Bytes → Split → Except NalError Split
  | _, [], s => .ok s
  | i, v :: vs, s => (splitByte data s i v).bind (splitLoop data (i + 1) vs)

def splitEnd (data : Bytes) (s : Split) : Except NalError (List Bytes) :=
  if s.start < 0 ∨ (data.length : ℤ) - s.zeros ≤ s.start then .error .missingNAL
  else (slice data s.start (data.length - s.zeros)).map fun nal => s.out ++ [nal]

def splitAnnexB (data : Bytes) : Except NalError (List Bytes) :=
  (splitLoop data 0 data ⟨[], -1, 0⟩).bind (splitEnd data)

def rbspLoop (nal : Bytes) : ℕ → ℕ → ℕ → Bytes → Except NalError Bytes
  | 0, _, _, out => .ok out
  | n + 1, i, zeros, out => (byteAt nal i).bind fun v =>
    if zeros = 2 ∧ v = 3 then
      (byteAt nal 0).bind fun h =>
        -- a CABAC zero word may end with the byte
        if i + 1 = nal.length ∧ (h &&& 31 = 1 ∨ h &&& 31 = 5) then .ok out
        else if nal.length ≤ i + 1 then .error .emulation
        else (byteAt nal (i + 1)).bind fun w => if w > 3 then .error .emulation else rbspLoop nal n (i + 1) 0 out
    else if zeros = 2 ∧ v < 3 then .error .startCode
    else rbspLoop nal n (i + 1) (if v = 0 then zeros + 1 else 0) (out ++ [v])

def rbsp (nal : Bytes) : Except NalError Bytes :=
  if nal.length < 2 then .error .header
  else (byteAt nal 0).bind fun h =>
    if h &&& 0x80 ≠ 0 then .error .header else rbspLoop nal (nal.length - 1) 1 0 []

theorem byteAt_of_lt {d : Bytes} {i : ℕ} (h : i < d.length) : ∃ v, byteAt d i = .ok v := by
  rw [byteAt, List.getElem?_eq_getElem h]
  exact ⟨_, rfl⟩

theorem rbspLoop_safe {nal : Bytes} {n i zeros : ℕ} {out : Bytes} (h : i + n = nal.length) :
    rbspLoop nal n i zeros out ≠ .error .panic := by
  induction n generalizing i zeros out with
  | zero => exact fun h => (by cases h)
  | succ n ih =>
    obtain ⟨v, hv⟩ := byteAt_of_lt (d := nal) (i := i) (by omega)
    obtain ⟨c, hc⟩ := byteAt_of_lt (d := nal) (i := 0) (by omega)
    rw [rbspLoop, hv, Except.bind]
    split
    · rw [hc, Except.bind]
      split
      · exact fun h => (by cases h)
      · split
        · exact fun h => (by cases h)
        · obtain ⟨w, hw⟩ := byteAt_of_lt (d := nal) (i := i + 1) (by omega)
          rw [hw, Except.bind]
          split
          · exact fun h => (by cases h)
          · exact ih (by omega)
    · split
      · exact fun h => (by cases h)
      · exact ih (by omega)

private theorem rbsp_safe (nal : Bytes) : rbsp nal ≠ .error .panic := by
  rw [rbsp]
  split
  · exact fun h => (by cases h)
  · next hlen =>
    obtain ⟨c, hc⟩ := byteAt_of_lt (d := nal) (i := 0) (by omega)
    rw [hc, Except.bind]
    split
    · exact fun h => (by cases h)
    · exact rbspLoop_safe (by omega)

theorem slice_safe {d : Bytes} {l r : ℤ} (h : 0 ≤ l ∧ l ≤ r ∧ r ≤ d.length) :
    ∃ s, slice d l r = .ok s := ⟨_, if_pos h⟩

/-- The zeros that are counted lie behind the start of the NAL unit. -/
def Split.Sound (s : Split) (i : ℕ) : Prop := s.start < 0 ∨ s.start + s.zeros ≤ i

theorem splitByte_sound {data : Bytes} {s : Split} {i : ℕ} {v : UInt8} (h : s.Sound i) (hi : i < data.length) :
    (∃ e, e ≠ .panic ∧ splitByte data s i v = .error e) ∨ ∃ s', splitByte data s i v = .ok s' ∧ s'.Sound (i + 1) := by
  rw [splitByte]
  split
  · refine .inr ⟨_, rfl, ?_⟩
    simp only [Split.Sound] at h ⊢
    omega
  · split
    · split
      · split
        · exact .inl ⟨_, by decide, rfl⟩
        · next hstart _ =>
          obtain ⟨nal, hnal⟩ := slice_safe (d := data) (l := s.start) (r := i - s.zeros)
            (by simp only [Split.Sound] at h; omega)
          rw [hnal]
          exact .inr ⟨_, rfl, .inr (by simp)⟩
      · split
        · exact .inl ⟨_, by decide, rfl⟩
        · exact .inr ⟨_, rfl, .inr (by simp)⟩
    · refine .inr ⟨_, rfl, ?_⟩
      simp only [Split.Sound] at h ⊢
      omega

theorem splitLoop_sound {d t : Bytes} {s : Split} {i : ℕ} (h : s.Sound i) (hi : i + t.length = d.length) :
    (∃ e, e ≠ .panic ∧ splitLoop d i t s = .error e) ∨
      ∃ s', splitLoop d i t s = .ok s' ∧ s'.Sound d.length := by
  induction t generalizing i s with
  | nil => exact .inr ⟨s, rfl, by rwa [← hi]⟩
  | cons v t ih =>
    rw [length_cons] at hi
    rw [splitLoop]
    rcases splitByte_sound (v := v) h (show i < d.length by omega) with ⟨e, he, heq⟩ | ⟨s', heq, hs⟩
    · exact .inl ⟨e, he, by rw [heq]; rfl⟩
    · rw [heq]
      exact ih hs (by omega)

private theorem splitAnnexB_safe (data : Bytes) : splitAnnexB data ≠ .error .panic := by
  rw [splitAnnexB]
  rcases splitLoop_sound (d := data) (t := data) (s := ⟨[], -1, 0⟩) (i := 0) (.inl (by decide)) (Nat.zero_add _) with
    ⟨e, he, heq⟩ | ⟨s, heq, hs⟩
  · rw [heq]
    exact fun h => he (Except.error.inj h)
  · rw [heq, Except.bind, splitEnd]
    split
    · exact fun h => (by cases h)
    · next hn =>
      obtain ⟨nal, hnal⟩ := slice_safe (d := data) (l := s.start) (r := data.length - s.zeros) (by omega)
      rw [hnal]
      exact fun h => (by cases h)

/-- The emulation prevention of 7.4.1 after some zeros: a 3 before each byte up to 3 behind two zeros. -/
def escape : ℕ → Bytes → Bytes
  | _, [] => []
  | z, v :: r =>
    if z = 2 ∧ v ≤ 3 then 3 :: v :: escape (if v = 0 then 1 else 0) r else v :: escape (if v = 0 then z + 1 else 0) r

structure NalUnit where
  header : UInt8
  payload : Bytes
  last : UInt8
  header_ne : header ≠ 0
  forbidden : header &&& 0x80 = 0
  last_ne : last ≠ 0

namespace NalUnit

def rbsp (u : NalUnit) : Bytes := u.payload ++ [u.last]

def nal (u : NalUnit) : Bytes := u.header :: escape 0 u.rbsp

end NalUnit

theorem byteAt_append (pre : Bytes) (v : UInt8) (r : Bytes) : byteAt (pre ++ v :: r) pre.length = .ok v := by
  rw [byteAt, List.getElem?_append_right (Nat.le_refl _), Nat.sub_self]
  rfl

/-- The loop undoes the escaping from any place on. -/
theorem rbspLoop_escape {z : ℕ} (pre r out : Bytes) (hz : z ≤ 2) (hpre : pre ≠ []) :
    rbspLoop (pre ++ escape z r) (escape z r).length pre.length z out = .ok (out ++ r) := by
  induction r generalizing z pre out with
  | nil => rw [escape, append_nil, append_nil]; rfl
  | cons v r ih =>
    have hnext : ∀ z' ≤ 2, ∀ pre out, rbspLoop (pre ++ v :: escape z' r) (escape z' r).length (pre.length + 1) z' out =
        .ok (out ++ r) := by
      intro z' hz' pre out
      have := ih (pre ++ [v]) out hz' (by simp)
      rwa [append_assoc, length_append] at this
    rw [escape]
    split
    · next h =>
      obtain ⟨rfl, hv⟩ := h
      have hz' : (if v = 0 then 1 else 0) ≤ 2 := by split <;> omega
      have hbyte := byteAt_append (pre ++ [3]) v (escape (if v = 0 then 1 else 0) r)
      have hrest := hnext _ hz' (pre ++ [3]) (out ++ [v])
      obtain ⟨c, hc⟩ := byteAt_of_lt (d := pre ++ 3 :: v :: escape (if v = 0 then 1 else 0) r) (i := 0) (by simp)
      rw [append_assoc, length_append] at hbyte hrest
      rw [length_cons, length_cons, rbspLoop, byteAt_append, Except.bind, if_pos ⟨rfl, rfl⟩, hc, Except.bind,
        if_neg (by simp), if_neg (by simp)]
      erw [hbyte]
      rw [Except.bind, if_neg (UInt8.not_lt.mpr hv), rbspLoop]
      erw [hbyte]
      rw [Except.bind, if_neg (by simp), if_neg (by simp)]
      refine hrest.trans ?_
      rw [append_assoc]
      rfl
    · next h =>
      have hz' : (if v = 0 then z + 1 else 0) ≤ 2 := by
        split
        · next h0 => subst h0; simp at h; omega
        · omega
      rw [length_cons, rbspLoop, byteAt_append, Except.bind]
      rw [if_neg (by rintro ⟨rfl, rfl⟩; simp at h), if_neg, hnext _ hz', append_assoc]
      · rfl
      · rintro ⟨rfl, h3⟩
        exact h ⟨rfl, UInt8.le_of_lt h3⟩

/-- The escaped bytes end as the bytes do. -/
theorem escape_last (z : ℕ) (r : Bytes) (v : UInt8) : ∃ w, escape z (r ++ [v]) = w ++ [v] := by
  induction r generalizing z with
  | nil =>
    rw [nil_append, escape]
    split
    · exact ⟨[3], rfl⟩
    · exact ⟨[], rfl⟩
  | cons x r ih =>
    rw [cons_append, escape]
    split
    · obtain ⟨w, hw⟩ := ih (if x = 0 then 1 else 0)
      exact ⟨3 :: x :: w, by rw [hw]; rfl⟩
    · obtain ⟨w, hw⟩ := ih (if x = 0 then z + 1 else 0)
      exact ⟨x :: w, by rw [hw]; rfl⟩

private theorem rbsp_nal (u : NalUnit) : rbsp u.nal = .ok u.rbsp := by
  obtain ⟨w, hw⟩ := escape_last 0 u.payload u.last
  have hlen : ¬u.nal.length < 2 := by
    rw [NalUnit.nal, NalUnit.rbsp, hw]
    simp
  rw [rbsp, if_neg hlen, show byteAt u.nal 0 = .ok u.header from rfl, Except.bind, if_neg (not_not.mpr u.forbidden)]
  exact rbspLoop_escape [u.header] u.rbsp [] (Nat.zero_le 2) (cons_ne_nil _ _)

/-- A run of bytes in which no start code ends, behind some zeros. -/
def NoStart : ℕ → Bytes → Prop
  | _, [] => True
  | z, v :: w => ¬(v = 1 ∧ 2 ≤ z) ∧ NoStart (if v = 0 then z + 1 else 0) w

def zerosAfter : ℕ → Bytes → ℕ
  | z, [] => z
  | z, v :: w => zerosAfter (if v = 0 then z + 1 else 0) w

theorem splitLoop_noStart {data w t : Bytes} {i : ℕ} {s : Split} (h : NoStart s.zeros w) :
    splitLoop data i (w ++ t) s = splitLoop data (i + w.length) t { s with zeros := zerosAfter s.zeros w } := by
  induction w generalizing i s with
  | nil => rfl
  | cons v w ih =>
    have hstep : splitByte data s i v = .ok { s with zeros := if v = 0 then s.zeros + 1 else 0 } := by
      rw [splitByte]
      split
      · rfl
      · rw [if_neg h.1]
    rw [cons_append, splitLoop, hstep, Except.bind]
    refine (ih h.2).trans ?_
    rw [length_cons, zerosAfter, Nat.add_assoc, Nat.add_comm 1]

theorem noStart_replicate (z k : ℕ) : NoStart z (List.replicate k 0) ∧ zerosAfter z (List.replicate k 0) = z + k := by
  induction k generalizing z with
  | zero => exact ⟨trivial, rfl⟩
  | succ k ih =>
    rw [replicate_succ]
    exact ⟨⟨by simp, (ih (z + 1)).1⟩, ((ih (z + 1)).2).trans (by omega)⟩

private theorem noStart_escape {z : ℕ} (r : Bytes) (hz : z ≤ 2) : NoStart z (escape z r) := by
  induction r generalizing z with
  | nil => trivial
  | cons v r ih =>
    rw [escape]
    split
    · next h =>
      refine ⟨by simp, by simp, ?_⟩
      simp only [show (3 : UInt8) ≠ 0 by decide, if_false, Nat.zero_add]
      exact ih (by split <;> omega)
    · next h =>
      refine ⟨?_, ih ?_⟩
      · rintro ⟨rfl, h2⟩
        exact h ⟨by omega, by decide⟩
      · split
        · next h0 => subst h0; simp at h; omega
        · omega

theorem zerosAfter_append (z : ℕ) (a b : Bytes) : zerosAfter z (a ++ b) = zerosAfter (zerosAfter z a) b := by
  induction a generalizing z with
  | nil => rfl
  | cons v a ih => exact ih _

theorem NalUnit.noStart (u : NalUnit) : NoStart 0 u.nal ∧ zerosAfter 0 u.nal = 0 := by
  obtain ⟨w, hw⟩ := escape_last 0 u.payload u.last
  refine ⟨⟨by simp, ?_⟩, ?_⟩
  · rw [if_neg u.header_ne]
    exact noStart_escape _ (Nat.zero_le 2)
  · rw [nal, NalUnit.rbsp, hw, ← cons_append, zerosAfter_append]
    exact if_neg u.last_ne

structure StreamUnit where
  unit : NalUnit
  long : Bool
  zeros : ℕ

namespace StreamUnit

def code (x : StreamUnit) : ℕ := if x.long then 3 else 2

def bytes (x : StreamUnit) : Bytes := List.replicate x.code 0 ++ 1 :: (x.unit.nal ++ List.replicate x.zeros 0)

end StreamUnit

theorem slice_append (p u q : Bytes) : slice (p ++ (u ++ q)) p.length (p.length + u.length) = .ok u := by
  rw [slice, if_pos (by simp only [length_append]; omega), Int.toNat_natCast, drop_left,
    show ((p.length : ℤ) + u.length - p.length).toNat = u.length by omega, take_left]

/-- From the end of a start code to the next one. -/
theorem splitLoop_unit (data : Bytes) (i : ℕ) (x : StreamUnit) (t : Bytes) (out : List Bytes) (start : ℤ) :
    splitLoop data i (x.unit.nal ++ List.replicate x.zeros 0 ++ t) ⟨out, start, 0⟩ =
      splitLoop data (i + (x.unit.nal.length + x.zeros)) t ⟨out, start, x.zeros⟩ := by
  obtain ⟨hquiet, hzero⟩ := x.unit.noStart
  obtain ⟨hzeros, hcount⟩ := noStart_replicate 0 x.zeros
  rw [append_assoc, splitLoop_noStart hquiet]
  dsimp only
  rw [hzero, splitLoop_noStart hzeros, hcount, length_replicate, Nat.zero_add, Nat.add_assoc]

/-- The units that follow one whose bytes and zeros are behind `p`. -/
theorem splitLoop_units (us : List StreamUnit) {d p u : Bytes} {z : ℕ} {o : List Bytes} (hu : u ≠ [])
    (hdata : d = p ++ (u ++ (List.replicate z 0 ++ us.flatMap StreamUnit.bytes))) :
    (splitLoop d (p.length + u.length + z) (us.flatMap StreamUnit.bytes) ⟨o, p.length, z⟩).bind (splitEnd d) =
      .ok (o ++ u :: us.map fun x => x.unit.nal) := by
  induction us generalizing p u z o with
  | nil =>
    have hpos := length_pos_iff.mpr hu
    have hslice := slice_append p u (List.replicate z 0 ++ [])
    rw [← flatMap_nil (f := StreamUnit.bytes), ← hdata] at hslice
    have hlen : (d.length : ℤ) = p.length + u.length + z := by
      rw [hdata]
      simp
      omega
    rw [flatMap_nil, splitLoop, Except.bind, splitEnd, if_neg (by dsimp only; omega), hlen,
      show (p.length : ℤ) + u.length + z - z = p.length + u.length by omega, hslice]
    rfl
  | cons x us ih =>
    have hpos := length_pos_iff.mpr hu
    have hslice := slice_append p u (List.replicate z 0 ++ (x :: us).flatMap StreamUnit.bytes)
    rw [← hdata] at hslice
    obtain ⟨hzeros, hcount⟩ := noStart_replicate z x.code
    have hcode : 2 ≤ x.code := by rw [StreamUnit.code]; split <;> omega
    have hrest := ih (p := p ++ (u ++ (List.replicate z 0 ++ (List.replicate x.code 0 ++ [1]))))
      (u := x.unit.nal) (z := x.zeros)
      (o := o ++ [u]) (cons_ne_nil _ _) (by
        rw [hdata, flatMap_cons, StreamUnit.bytes]
        simp only [append_assoc, cons_append, nil_append])
    rw [flatMap_cons, StreamUnit.bytes, append_assoc, splitLoop_noStart hzeros, hcount, length_replicate,
      cons_append, splitLoop, splitByte, if_neg (by decide), if_pos ⟨rfl, by dsimp only; omega⟩,
      if_pos (by dsimp only; omega), if_neg (by dsimp only; omega)]
    dsimp only
    rw [show ((p.length + u.length + z + x.code : ℕ) : ℤ) - (z + x.code : ℕ) = p.length + u.length by omega, hslice,
      Except.map, Except.bind, splitLoop_unit]
    have hlen : (p ++ (u ++ (List.replicate z 0 ++ (List.replicate x.code 0 ++ [1])))).length =
        p.length + u.length + z + x.code + 1 := by
      simp only [length_append, length_replicate, length_singleton]
      omega
    rw [hlen] at hrest
    rw [← Nat.add_assoc]
    refine Eq.trans ?_ (hrest.trans ?_)
    · rfl
    · simp

/-- Every byte stream of units is taken apart into them. -/
theorem splitAnnexB_units {us : List StreamUnit} (hus : us ≠ []) :
    splitAnnexB (us.flatMap StreamUnit.bytes) = .ok (us.map fun x => x.unit.nal) := by
  obtain ⟨x, us, rfl⟩ := exists_cons_of_ne_nil hus
  obtain ⟨hzeros, hcount⟩ := noStart_replicate 0 x.code
  have hcode : 2 ≤ x.code := by rw [StreamUnit.code]; split <;> omega
  generalize hdata : (x :: us).flatMap StreamUnit.bytes = data
  have hrest := splitLoop_units us (d := data) (p := List.replicate x.code 0 ++ [1]) (u := x.unit.nal) (z := x.zeros)
    (o := []) (cons_ne_nil _ _) (by
      rw [← hdata, flatMap_cons, StreamUnit.bytes]
      simp only [append_assoc, cons_append, nil_append])
  have hloop : splitLoop data 0 ((x :: us).flatMap StreamUnit.bytes) ⟨[], -1, 0⟩ =
      splitLoop data (x.code + 1 + (x.unit.nal.length + x.zeros)) (us.flatMap StreamUnit.bytes)
        ⟨[], x.code + 1, x.zeros⟩ := by
    rw [flatMap_cons, StreamUnit.bytes, append_assoc, splitLoop_noStart hzeros, hcount, length_replicate,
      cons_append, splitLoop, splitByte, if_neg (by decide), if_pos ⟨rfl, by dsimp only; omega⟩,
      if_neg (by dsimp only; omega), if_neg (by dsimp only; omega), Except.bind, splitLoop_unit, Nat.zero_add]
  rw [hdata] at hloop
  rw [length_append, length_replicate, length_singleton] at hrest
  rw [splitAnnexB, hloop, ← Nat.add_assoc]
  exact hrest

/-- The byte layer and the bit layer read what was written; on any bytes each of their operations comes to an
end inside of the data, and a reader with an error stays where it is. -/
theorem layers_invert :
    (∀ us : List StreamUnit, us ≠ [] → splitAnnexB (us.flatMap StreamUnit.bytes) = .ok (us.map fun x => x.unit.nal) ∧
      ∀ x ∈ us, rbsp x.unit.nal = .ok x.unit.rbsp) ∧
    (∀ fs : List BitReader.Field, (∀ f ∈ fs, f.Valid) → ∃ b',
      BitReader.readFields fs ⟨BitReader.writeFields fs, 0, none⟩ = some (fs.map fun f => (true, f.value), b') ∧
        b'.more = some false ∧ ∃ b'', b'.trailing = some b'' ∧ b''.err = none) ∧
    (∀ data, splitAnnexB data ≠ .error .panic ∧ rbsp data ≠ .error .panic) ∧
    ∀ b : BitReader, (∀ n, ∃ r, b.bits n = some r ∧ b.Goes r.2) ∧ (∃ r, b.flag = some r ∧ b.Goes r.2) ∧
      (∃ r, b.ue = some r ∧ b.Goes r.2) ∧ (∃ r, b.se = some r ∧ b.Goes r.2) ∧
      (∀ max, ∃ r, b.rangeUE max = some r ∧ b.Goes r.2) ∧ (∀ min max, ∃ r, b.rangeSE min max = some r ∧ b.Goes r.2) ∧
      (∃ m, b.more = some m) ∧ ∃ b', b.trailing = some b' ∧ b.Goes b' :=
  ⟨fun _ hus => ⟨splitAnnexB_units hus, fun x _ => rbsp_nal x.unit⟩, fun _ hfs => BitReader.fields_round_trip hfs,
    fun data => ⟨splitAnnexB_safe data, rbsp_safe data⟩,
    fun b => ⟨fun n => BitReader.bits_goes n b, b.flag_goes, b.ue_goes, b.se_goes,
      fun max => BitReader.rangeUE_goes max b, fun min max => BitReader.rangeSE_goes min max b, b.more_some,
      b.trailing_goes⟩⟩

/-- A unit that needs the escape, and one that follows it behind the long start code. -/
def sampleUnits : List StreamUnit :=
  [⟨⟨0x65, [0, 0, 1], 0x80, by decide, by decide, by decide⟩, false, 2⟩,
    ⟨⟨0x41, [0x9a], 0x10, by decide, by decide, by decide⟩, true, 0⟩]

def sampleFields : List BitReader.Field := [.fixed 8 100, .ue 7, .se (-3)]

theorem sampleUnits_inverted :
    splitAnnexB (sampleUnits.flatMap StreamUnit.bytes) = .ok [[0x65, 0, 0, 3, 1, 0x80], [0x41, 0x9a, 0x10]] ∧
    ∃ b', BitReader.readFields sampleFields ⟨BitReader.writeFields sampleFields, 0, none⟩ =
      some ([(true, 100), (true, 7), (true, -3)], b') := by
  have hvalid : ∀ f ∈ sampleFields, f.Valid :=
    forall_mem_cons.mpr ⟨by unfold BitReader.Field.Valid; decide, forall_mem_cons.mpr
      ⟨by unfold BitReader.Field.Valid; decide, forall_mem_singleton.mpr (by unfold BitReader.Field.Valid; decide)⟩⟩
  obtain ⟨b', hread, -⟩ := layers_invert.2.1 sampleFields hvalid
  exact ⟨(layers_invert.1 sampleUnits (by decide)).1, b', hread⟩

end MonsterMQ.H264
