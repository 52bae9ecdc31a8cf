import MonsterMQ.LittleEndian

/-!
# Files of bytes

A file is a list of bytes that is read and written at offsets. `Holds` says what stands at an offset, in a
form that composes over adjacent pieces and survives a write elsewhere.
-/

namespace MonsterMQ.ByteFiles

open LittleEndian List

/-- `WriteAt`: a write past the end makes the file larger, with zeros in between. -/
@[grind =] def writeAt (f : Bytes) (off : ℕ) (data : Bytes) : Bytes :=
  f.take off ++ List.replicate (off - f.length) 0 ++ data ++ f.drop (off + data.length)

@[grind =] def readAt (f : Bytes) (off n : ℕ) : Bytes := (f.drop off).take n

/-- A number in four bytes, the most significant first. -/
@[grind =] def putUint32 (n : ℕ) : Bytes := (put 4 n).reverse

@[grind =] def getUint32 (bs : Bytes) : ℕ := get bs.reverse

@[simp] theorem putUint32_length (n : ℕ) : (putUint32 n).length = 4 := by
  rw [putUint32, length_reverse, put_length]

theorem getUint32_put {n : ℕ} (h : n < 2 ^ 32) : getUint32 (putUint32 n) = n := by
  rw [getUint32, putUint32, reverse_reverse]
  exact get_put_of_lt h

theorem putUint32_get {bs : Bytes} (h : bs.length = 4) : putUint32 (getUint32 bs) = bs := by
  have hput := put_get bs.reverse
  rw [length_reverse, h] at hput
  rw [putUint32, getUint32, hput, reverse_reverse]

def Holds (f : Bytes) (off : ℕ) (data : Bytes) : Prop :=
  ∀ i < data.length, f[off + i]? = data[i]?

variable {f : Bytes} {off p : ℕ} {data bs : Bytes}

theorem holds_nil (f : Bytes) (off : ℕ) : Holds f off [] := fun _ hi => absurd hi (Nat.not_lt_zero _)

theorem holds_append_iff {a b : Bytes} :
    Holds f off (a ++ b) ↔ Holds f off a ∧ Holds f (off + a.length) b := by
  constructor
  · intro h
    constructor
    · intro i hi
      have := h i (by rw [length_append]; omega)
      rwa [List.getElem?_append_left hi] at this
    · intro i hi
      have := h (a.length + i) (by rw [length_append]; omega)
      rw [List.getElem?_append_right (Nat.le_add_right _ _), Nat.add_sub_cancel_left] at this
      rw [Nat.add_assoc]
      exact this
  · rintro ⟨ha, hb⟩ i hi
    rcases Nat.lt_or_ge i a.length with hlt | hge
    · rw [List.getElem?_append_left hlt]
      exact ha i hlt
    · rw [List.getElem?_append_right hge]
      have := hb (i - a.length) (by rw [length_append] at hi; omega)
      rw [← this]
      congr 1
      omega

theorem Holds.length_le (h : Holds f off data) (hne : data ≠ []) : off + data.length ≤ f.length := by
  have hpos := length_pos_iff.mpr hne
  have hlast := h (data.length - 1) (by omega)
  rw [List.getElem?_eq_getElem (by omega : data.length - 1 < data.length)] at hlast
  have hlt := (List.getElem?_eq_some_iff.mp hlast).1
  omega

theorem Holds.readAt_eq (h : Holds f off data) : readAt f off data.length = data := by
  apply ext_getElem?
  intro i
  rw [readAt]
  rcases Nat.lt_or_ge i data.length with hlt | hge
  · rw [List.getElem?_take_of_lt hlt, List.getElem?_drop]
    exact h i hlt
  · rw [List.getElem?_take_eq_none hge, List.getElem?_eq_none hge]

theorem holds_readAt (f : Bytes) (off n : ℕ) : Holds f off (readAt f off n) := by
  intro i hi
  rw [readAt, length_take] at hi
  rw [readAt, List.getElem?_take_of_lt (by omega), List.getElem?_drop]

theorem readAt_length {n : ℕ} (h : off + n ≤ f.length) : (readAt f off n).length = n := by
  rw [readAt, length_take, length_drop]
  omega

section

variable (h : off + data.length ≤ f.length)
include h

theorem length_writeAt : (writeAt f off data).length = f.length := by
  simp only [writeAt, length_append, length_take, length_replicate, length_drop]
  omega

theorem getElem?_writeAt (i : ℕ) : (writeAt f off data)[i]? =
      if off ≤ i ∧ i < off + data.length then data[i - off]? else f[i]? := by
  have htake : (f.take off).length = off := by
    rw [length_take]
    omega
  have hzero : off - f.length = 0 := by omega
  rw [writeAt, hzero, replicate_zero, append_nil, append_assoc]
  rcases Nat.lt_or_ge i off with hlt | hge
  · rw [List.getElem?_append_left (by rw [htake]; exact hlt), List.getElem?_take_of_lt hlt,
      if_neg (by omega)]
  · rw [List.getElem?_append_right (by rw [htake]; exact hge), htake]
    rcases Nat.lt_or_ge i (off + data.length) with hlt | hge'
    · rw [List.getElem?_append_left (by omega), if_pos ⟨hge, hlt⟩]
    · rw [List.getElem?_append_right (by omega), if_neg (by omega), List.getElem?_drop]
      congr 1
      omega

theorem holds_writeAt_self : Holds (writeAt f off data) off data := by
  intro i hi
  rw [getElem?_writeAt h, if_pos ⟨Nat.le_add_right _ _, Nat.add_lt_add_left hi off⟩,
    Nat.add_sub_cancel_left]

end

theorem Holds.writeAt (hb : Holds f p bs) (h : off + data.length ≤ f.length)
    (hd : p + bs.length ≤ off ∨ off + data.length ≤ p) : Holds (writeAt f off data) p bs := by
  intro i hi
  rw [getElem?_writeAt h, if_neg (by omega)]
  exact hb i hi

end MonsterMQ.ByteFiles
