import MonsterMQ.LittleEndian

/-!
# Valid UTF-8

The acceptance rule of `utf8.Valid`: no overlong forms, no surrogates, nothing above
U+10FFFF.
-/

namespace MonsterMQ.Utf8

open LittleEndian List

def inRange (lo hi b : UInt8) : Bool := lo ≤ b && b ≤ hi

def valid : Bytes → Bool
  | [] => true
  | b0 :: bs =>
    if b0 < 0x80 then valid bs
    else match bs with
      | [] => false
      | b1 :: bs =>
        if inRange 0xC2 0xDF b0 then inRange 0x80 0xBF b1 && valid bs
        else match bs with
          | [] => false
          | b2 :: bs =>
            -- E0 excludes overlong forms, ED surrogates
            if inRange 0xE0 0xEF b0 then
              inRange (if b0 = 0xE0 then 0xA0 else 0x80) (if b0 = 0xED then 0x9F else 0xBF) b1 &&
                inRange 0x80 0xBF b2 && valid bs
            else match bs with
              | [] => false
              | b3 :: bs =>
                inRange 0xF0 0xF4 b0 &&
                  inRange (if b0 = 0xF0 then 0x90 else 0x80) (if b0 = 0xF4 then 0x8F else 0xBF) b1 &&
                  inRange 0x80 0xBF b2 && inRange 0x80 0xBF b3 && valid bs

theorem valid_cons_ascii {c : UInt8} (hc : c < 0x80) (t : Bytes) : valid (c :: t) = valid t := by
  rw [valid.eq_def]
  simp [hc]

theorem not_inRange_of_ascii {c : UInt8} (hc : c < 0x80) {lo : UInt8} (hlo : 0x80 ≤ lo) (hi : UInt8) :
    inRange lo hi c = false := by
  have hlt : ¬ lo ≤ c := by
    rw [UInt8.not_le]
    exact UInt8.lt_of_lt_of_le hc hlo
  rw [inRange, decide_eq_false hlt, Bool.false_and]

/-- An ASCII byte stands for itself: the text is valid when what is before and after is. -/
theorem valid_append_ascii {c : UInt8} (hc : c < 0x80) (s t : Bytes) :
    valid (s ++ c :: t) = (valid s && valid t) := by
  have h80 := fun hi => not_inRange_of_ascii hc (UInt8.le_refl 0x80) hi
  have hsecond : ∀ b0 v hi : UInt8, inRange (if b0 = v then 0xA0 else 0x80) hi c = false := by
    intro b0 v hi
    split
    · exact not_inRange_of_ascii hc (by decide) hi
    · exact h80 hi
  have hsecond' : ∀ b0 v hi : UInt8, inRange (if b0 = v then 0x90 else 0x80) hi c = false := by
    intro b0 v hi
    split
    · exact not_inRange_of_ascii hc (by decide) hi
    · exact h80 hi
  fun_induction valid s with
  | case1 => exact valid_cons_ascii hc t
  | case2 b0 bs h ih => rw [cons_append, valid_cons_ascii h, ih]
  | case3 b0 h =>
    rw [cons_append, nil_append, valid.eq_def]
    cases t with
    | nil => simp [h, h80]
    | cons b t => cases t <;> simp [h, h80, hsecond, hsecond']
  | case4 b0 h b1 bs h2 ih =>
    rw [cons_append, cons_append, valid.eq_def]
    simp [h, h2, ih, Bool.and_assoc]
  | case5 b0 h b1 h2 =>
    rw [cons_append, cons_append, nil_append, valid.eq_def]
    cases t <;> simp [h, h2, h80]
  | case6 b0 h b1 h2 b2 bs h3 ih =>
    rw [cons_append, cons_append, cons_append, valid.eq_def]
    simp [h, h2, h3, ih, Bool.and_assoc]
  | case7 b0 h b1 h2 b2 h3 =>
    rw [cons_append, cons_append, cons_append, nil_append, valid.eq_def]
    simp [h, h2, h3, h80]
  | case8 b0 h b1 h2 b2 h3 b3 bs ih =>
    rw [cons_append, cons_append, cons_append, cons_append, valid.eq_def]
    simp [h, h2, h3, ih, Bool.and_assoc]

end MonsterMQ.Utf8
