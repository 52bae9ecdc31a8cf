import MonsterMQ.LittleEndian
import Mathlib.Data.List.Infix

/-!
# UTC times and their texts

Times of the years 0 to 9999 and the texts that the layout `RFC3339Nano` gives them. The layout drops the
trailing zeros of the fraction, so texts and times are in one order unless one fraction is the beginning of
the other.
-/

namespace MonsterMQ.UtcTimes

open LittleEndian List

/-- Positions counted in pieces of different sizes are ordered by the piece, then inside it. -/
theorem radix_lt {f size : ℕ → ℕ} (hf : ∀ k, f (k + 1) = f k + size k) {k l i j : ℕ}
    (hi : i < size k) (hj : j < size l) : f k + i < f l + j ↔ k < l ∨ k = l ∧ i < j := by
  have hmono : ∀ a b, a ≤ b → f a ≤ f b := by
    intro a b hab
    induction hab with
    | refl => exact Nat.le_refl _
    | step _ ih => exact ih.trans (hf _ ▸ Nat.le_add_right _ _)
  rcases Nat.lt_trichotomy k l with hlt | rfl | hlt
  · have := hmono (k + 1) l hlt
    have := hf k
    constructor
    · intro _
      exact .inl hlt
    · intro _
      omega
  · constructor
    · intro h
      exact .inr ⟨rfl, by omega⟩
    · rintro (h | ⟨-, h⟩)
      · omega
      · omega
  · have := hmono (l + 1) k hlt
    have := hf l
    constructor
    · intro h
      omega
    · rintro (h | ⟨h, -⟩)
      · omega
      · omega

theorem radix_eq {f size : ℕ → ℕ} (hf : ∀ k, f (k + 1) = f k + size k) {k l i j : ℕ}
    (hi : i < size k) (hj : j < size l) : f k + i = f l + j ↔ k = l ∧ i = j := by
  have h1 := radix_lt hf hi hj
  have h2 := radix_lt hf hj hi
  constructor
  · intro h
    rw [h] at h1 h2
    have h1 := not_or.mp (fun hor => Nat.lt_irrefl _ (h1.mpr hor))
    have h2 := not_or.mp (fun hor => Nat.lt_irrefl _ (h2.mpr hor))
    omega
  · rintro ⟨rfl, rfl⟩
    rfl

theorem radix_mul_eq {n k l i j : ℕ} (hi : i < n) (hj : j < n) : k * n + i = l * n + j ↔ k = l ∧ i = j :=
  radix_eq (f := fun k => k * n) (fun k => Nat.succ_mul k n) hi hj

theorem radix_mul_lt {n k l i j : ℕ} (hi : i < n) (hj : j < n) :
    k * n + i < l * n + j ↔ k < l ∨ k = l ∧ i < j :=
  radix_lt (f := fun k => k * n) (fun k => Nat.succ_mul k n) hi hj

def leap (y : ℕ) : Bool := y % 4 = 0 && (y % 100 ≠ 0 || y % 400 = 0)

@[grind =] def daysIn (y : ℕ) : ℕ → ℕ
  | 2 => if leap y then 29 else 28
  | 4 | 6 | 9 | 11 => 30
  | 0 => 0
  | _ => 31

def daysBeforeMonth (y : ℕ) : ℕ → ℕ
  | 0 => 0
  | m + 1 => daysBeforeMonth y m + daysIn y m

def yearLength (y : ℕ) : ℕ := if leap y then 366 else 365

def daysBeforeYear : ℕ → ℕ
  | 0 => 0
  | y + 1 => daysBeforeYear y + yearLength y

structure UtcTime where
  year : ℕ
  month : ℕ
  day : ℕ
  hour : ℕ
  minute : ℕ
  second : ℕ
  nanosecond : ℕ
  year_le : year ≤ 9999
  month_mem : 1 ≤ month ∧ month ≤ 12
  day_mem : 1 ≤ day ∧ day ≤ daysIn year month
  hour_lt : hour < 24
  minute_lt : minute < 60
  second_lt : second < 60
  nanosecond_lt : nanosecond < 10 ^ 9
  deriving DecidableEq, Repr

namespace UtcTime

@[grind =] def days (t : UtcTime) : ℕ := daysBeforeYear t.year + (daysBeforeMonth t.year t.month + (t.day - 1))

@[grind =] def seconds (t : UtcTime) : ℕ := ((t.days * 24 + t.hour) * 60 + t.minute) * 60 + t.second

/-- The nanoseconds since the start of the year 0: the instant. -/
def nanos (t : UtcTime) : ℕ := t.seconds * 10 ^ 9 + t.nanosecond

end UtcTime

private theorem daysIn_le (y m : ℕ) : daysIn y m ≤ 31 := by
  unfold daysIn
  split <;> (try split) <;> omega

theorem daysBeforeMonth_lt {t : UtcTime} :
    daysBeforeMonth t.year t.month + (t.day - 1) < yearLength t.year := by
  obtain ⟨hd1, hd2⟩ := t.day_mem
  have hend : daysBeforeMonth t.year 13 = yearLength t.year := by
    unfold yearLength
    cases h : leap t.year <;> simp [daysBeforeMonth, daysIn, h]
  have hmono : ∀ a b, a ≤ b → daysBeforeMonth t.year a ≤ daysBeforeMonth t.year b := by
    intro a b hab
    induction hab with
    | refl => exact Nat.le_refl _
    | step _ ih => exact ih.trans (Nat.le_add_right _ _)
  have hnext := hmono (t.month + 1) 13 (by have := t.month_mem.2; omega)
  rw [daysBeforeMonth] at hnext
  omega

def digit (n : ℕ) : UInt8 := UInt8.ofNat (0x30 + n % 10)

/-- So many digits of a number, the most significant first. -/
@[grind =] def padded : ℕ → ℕ → Bytes
  | 0, _ => []
  | w + 1, n => digit (n / 10 ^ w) :: padded w n

@[simp] theorem padded_length (w n : ℕ) : (padded w n).length = w := by
  induction w with
  | zero => rfl
  | succ w ih => rw [padded, length_cons, ih]

theorem digit_toNat (n : ℕ) : (digit n).toNat = 0x30 + n % 10 := by
  rw [digit, UInt8.toNat_ofNat']
  omega

private theorem digit_lt_iff {a b : ℕ} : digit a < digit b ↔ a % 10 < b % 10 := by
  rw [UInt8.lt_iff_toNat_lt, digit_toNat, digit_toNat]
  omega

theorem digit_eq_iff {a b : ℕ} : digit a = digit b ↔ a % 10 = b % 10 := by
  rw [← UInt8.toNat_inj, digit_toNat, digit_toNat]
  omega

theorem padded_eq_iff {w n m : ℕ} : padded w n = padded w m ↔ n % 10 ^ w = m % 10 ^ w := by
  induction w with
  | zero => simp [padded, Nat.mod_one]
  | succ w ih =>
    have hn := Nat.mod_lt n (Nat.pow_pos (n := w) (by decide : 0 < 10))
    have hm := Nat.mod_lt m (Nat.pow_pos (n := w) (by decide : 0 < 10))
    rw [padded, padded, List.cons.injEq, digit_eq_iff, ih, Nat.pow_succ, Nat.mod_mul, Nat.mod_mul]
    constructor
    · rintro ⟨h1, h2⟩
      rw [h1, h2]
    · intro h
      have h2 : n % 10 ^ w = m % 10 ^ w := by
        have := congrArg (· % 10 ^ w) h
        simpa [Nat.add_mul_mod_self_left] using this
      rw [h2] at h
      exact ⟨Nat.eq_of_mul_eq_mul_left (Nat.pow_pos (by decide)) (Nat.add_left_cancel h), h2⟩

theorem padded_lt_iff {w n m : ℕ} : padded w n < padded w m ↔ n % 10 ^ w < m % 10 ^ w := by
  induction w with
  | zero => simp [padded, Nat.mod_one]
  | succ w ih =>
    have hn := Nat.mod_lt n (Nat.pow_pos (n := w) (by decide : 0 < 10))
    have hm := Nat.mod_lt m (Nat.pow_pos (n := w) (by decide : 0 < 10))
    rw [padded, padded, cons_lt_cons_iff, digit_lt_iff, digit_eq_iff, ih, Nat.pow_succ,
      Nat.mod_mul, Nat.mod_mul, Nat.add_comm, Nat.mul_comm, Nat.add_comm (m % 10 ^ w),
      Nat.mul_comm (10 ^ w), radix_mul_lt hn hm]

@[grind =] def trimZeros : Bytes → Bytes
  | [] => []
  | d :: ds => if trimZeros ds = [] ∧ d = 0x30 then [] else d :: trimZeros ds

namespace UtcTime

@[grind =] def stamp (t : UtcTime) : Bytes :=
  padded 4 t.year ++ 0x2D :: (padded 2 t.month ++ 0x2D :: (padded 2 t.day ++ 0x54 ::
    (padded 2 t.hour ++ 0x3A :: (padded 2 t.minute ++ 0x3A :: padded 2 t.second))))

/-- The digits of the fraction of the second that the layout keeps. -/
@[grind =] def fraction (t : UtcTime) : Bytes := trimZeros (padded 9 t.nanosecond)

@[grind =] def tail (t : UtcTime) : Bytes := if t.fraction = [] then [0x5A] else 0x2E :: (t.fraction ++ [0x5A])

@[grind =] def rfc3339Nano (t : UtcTime) : Bytes := t.stamp ++ t.tail

/-- Two different times of the same second, the fraction of one the beginning of that of the
other. -/
@[grind =] def Clash (a b : UtcTime) : Prop :=
  a.seconds = b.seconds ∧ a.fraction ≠ b.fraction ∧
    (a.fraction <+: b.fraction ∨ b.fraction <+: a.fraction)
deriving Decidable

theorem Clash.symm {a b : UtcTime} (h : Clash a b) : Clash b a := ⟨h.1.symm, h.2.1.symm, h.2.2.symm⟩

end UtcTime

section Order

variable {p q s t : Bytes}

theorem append_lt_iff (h : p.length = q.length) : p ++ s < q ++ t ↔ p < q ∨ p = q ∧ s < t := by
  induction p generalizing q with
  | nil =>
    cases q with
    | nil => simp
    | cons b q => cases h
  | cons a p ih =>
    cases q with
    | nil => cases h
    | cons b q =>
      rw [cons_append, cons_append, cons_lt_cons_iff, cons_lt_cons_iff,
        ih (Nat.succ.inj h), List.cons.injEq]
      constructor
      · rintro (hlt | ⟨rfl, hlt | ⟨rfl, hlt⟩⟩)
        · exact .inl (.inl hlt)
        · exact .inl (.inr ⟨rfl, hlt⟩)
        · exact .inr ⟨⟨rfl, rfl⟩, hlt⟩
      · rintro ((hlt | ⟨rfl, hlt⟩) | ⟨⟨rfl, rfl⟩, hlt⟩)
        · exact .inl hlt
        · exact .inr ⟨rfl, .inl hlt⟩
        · exact .inr ⟨rfl, .inr ⟨rfl, hlt⟩⟩

theorem field_lt_iff {w n m : ℕ} (hn : n < 10 ^ w) (hm : m < 10 ^ w) (c : UInt8) :
    padded w n ++ c :: s < padded w m ++ c :: t ↔ n < m ∨ n = m ∧ s < t := by
  rw [append_lt_iff (by rw [padded_length, padded_length]), padded_lt_iff, padded_eq_iff,
    Nat.mod_eq_of_lt hn, Nat.mod_eq_of_lt hm, cons_lt_cons_iff]
  simp

theorem field_eq_iff {w n m : ℕ} (hn : n < 10 ^ w) (hm : m < 10 ^ w) (c : UInt8) :
    padded w n ++ c :: s = padded w m ++ c :: t ↔ n = m ∧ s = t := by
  rw [append_eq_append_iff_of_size_eq_left (by rw [padded_length, padded_length]),
    padded_eq_iff, Nat.mod_eq_of_lt hn, Nat.mod_eq_of_lt hm, List.cons.injEq]
  simp

end Order

section Fractions

def AreDigits (ds : Bytes) : Prop := ∀ d ∈ ds, 0x30 ≤ d ∧ d ≤ 0x39

theorem padded_digits (w n : ℕ) : AreDigits (padded w n) := by
  induction w with
  | zero =>
    intro d hd
    cases hd
  | succ w ih =>
    intro d hd
    rcases mem_cons.mp hd with rfl | hd
    · rw [UInt8.le_iff_toNat_le, UInt8.le_iff_toNat_le, digit_toNat]
      constructor
      · exact Nat.le_add_right _ _
      · have : (0x39 : UInt8).toNat = 57 := rfl
        omega
    · exact ih d hd

variable {d e : UInt8} {ds es : Bytes}

theorem AreDigits.tail (h : AreDigits (d :: ds)) : AreDigits ds :=
  fun x hx => h x (mem_cons_of_mem _ hx)

theorem AreDigits.lt_zulu (h : AreDigits (d :: ds)) : d < 0x5A :=
  UInt8.lt_of_le_of_lt (h d mem_cons_self).2 (by decide)

private theorem trimZeros_digits (h : AreDigits ds) : AreDigits (trimZeros ds) := by
  induction ds with
  | nil => exact h
  | cons d ds ih =>
    rw [trimZeros]
    split
    · intro x hx
      cases hx
    · intro x hx
      rcases mem_cons.mp hx with rfl | hx
      · exact h x mem_cons_self
      · exact ih h.tail x hx

theorem trimZeros_cons_eq_nil : trimZeros (d :: ds) = [] ↔ trimZeros ds = [] ∧ d = 0x30 := by
  rw [trimZeros]
  constructor
  · intro h
    by_contra hn
    rw [if_neg hn] at h
    cases h
  · intro h
    rw [if_pos h]

theorem trimZeros_cons_ne_nil (h : trimZeros (d :: ds) ≠ []) : trimZeros (d :: ds) = d :: trimZeros ds := by
  rw [trimZeros, if_neg]
  intro hn
  exact h ((trimZeros_cons_eq_nil).mpr hn)

theorem not_lt_of_trimZeros_nil (h : trimZeros ds = []) (hes : AreDigits es)
    (hlen : es.length = ds.length) : ¬ es < ds := by
  induction ds generalizing es with
  | nil => exact not_lt_nil _
  | cons d ds ih =>
    cases es with
    | nil => cases hlen
    | cons e es =>
      obtain ⟨hds, rfl⟩ := (trimZeros_cons_eq_nil).mp h
      rw [cons_lt_cons_iff]
      rintro (hlt | ⟨rfl, hlt⟩)
      · exact absurd (hes e mem_cons_self).1 (UInt8.not_le.mpr hlt)
      · exact ih hds hes.tail (Nat.succ.inj hlen) hlt

theorem eq_of_trimZeros_nil (hd : trimZeros ds = []) (he : trimZeros es = [])
    (hlen : ds.length = es.length) : ds = es := by
  induction ds generalizing es with
  | nil => exact (length_eq_zero_iff.mp hlen.symm).symm
  | cons d ds ih =>
    cases es with
    | nil => cases hlen
    | cons e es =>
      obtain ⟨hds, rfl⟩ := (trimZeros_cons_eq_nil).mp hd
      obtain ⟨hes, rfl⟩ := (trimZeros_cons_eq_nil).mp he
      rw [ih hds hes (Nat.succ.inj hlen)]

private theorem trimZeros_inj (hlen : ds.length = es.length) (h : trimZeros ds = trimZeros es) : ds = es := by
  induction ds generalizing es with
  | nil => exact (length_eq_zero_iff.mp hlen.symm).symm
  | cons d ds ih =>
    cases es with
    | nil => cases hlen
    | cons e es =>
      by_cases hnil : trimZeros (d :: ds) = []
      · exact eq_of_trimZeros_nil hnil (h ▸ hnil) hlen
      · have hnil' : trimZeros (e :: es) ≠ [] := h ▸ hnil
        rw [trimZeros_cons_ne_nil hnil, trimZeros_cons_ne_nil hnil'] at h
        obtain ⟨rfl, hrest⟩ := List.cons.inj h
        rw [ih (Nat.succ.inj hlen) hrest]

/-- With the letter behind them, digits are compared as fractions unless what is kept of one is the
beginning of what is kept of the other; then the shorter one counts as the larger. -/
theorem trimZeros_lt_iff (hds : AreDigits ds) (hes : AreDigits es) (hlen : ds.length = es.length)
    (hne : ds ≠ es) : trimZeros ds ++ [0x5A] < trimZeros es ++ [0x5A] ↔
      if trimZeros ds <+: trimZeros es ∨ trimZeros es <+: trimZeros ds then es < ds else ds < es := by
  induction ds generalizing es with
  | nil => exact absurd (length_eq_zero_iff.mp hlen.symm).symm hne
  | cons d ds ih =>
    cases es with
    | nil => cases hlen
    | cons e es =>
      by_cases hd : trimZeros (d :: ds) = []
      · have he : trimZeros (e :: es) ≠ [] := fun he => hne (eq_of_trimZeros_nil hd he hlen)
        have hmin := not_lt_of_trimZeros_nil hd hes hlen.symm
        have hzulu := hes.lt_zulu
        rw [if_pos (.inl (hd ▸ nil_prefix)), hd, trimZeros_cons_ne_nil he, nil_append,
          cons_append, cons_lt_cons_iff, iff_false_right hmin]
        rintro (hlt | ⟨heq, -⟩)
        · exact absurd hlt (UInt8.lt_asymm hzulu)
        · exact absurd (heq ▸ hzulu) (UInt8.lt_irrefl _)
      · by_cases he : trimZeros (e :: es) = []
        · have hmin := not_lt_of_trimZeros_nil he hds hlen
          rw [if_pos (.inr (he ▸ nil_prefix)), he, trimZeros_cons_ne_nil hd, nil_append,
            cons_append, cons_lt_cons_iff]
          exact iff_of_true (.inl hds.lt_zulu) ((List.le_iff_lt_or_eq.mp hmin).resolve_right hne.symm)
        · simp only [trimZeros_cons_ne_nil hd, trimZeros_cons_ne_nil he, cons_append,
            cons_lt_cons_iff, cons_prefix_cons]
          by_cases hde : d = e
          · subst hde
            have hrest := ih hds.tail hes.tail (Nat.succ.inj hlen) (fun h => hne (h ▸ rfl))
            simpa using hrest
          · have hed : e ≠ d := fun h => hde h.symm
            simp [hde, hed]

end Fractions

namespace UtcTime

variable {a b : UtcTime}

private theorem days_lt_iff : a.days < b.days ↔
    a.year < b.year ∨ a.year = b.year ∧ (a.month < b.month ∨ a.month = b.month ∧ a.day < b.day) := by
  rw [days, days, radix_lt (fun _ => rfl) daysBeforeMonth_lt daysBeforeMonth_lt]
  apply or_congr_right
  apply and_congr_right
  intro hy
  obtain ⟨ha1, ha2⟩ := a.day_mem
  obtain ⟨hb1, hb2⟩ := b.day_mem
  rw [← hy] at hb2 ⊢
  rw [radix_lt (fun _ => rfl) (by omega : a.day - 1 < daysIn a.year a.month)
    (by omega : b.day - 1 < daysIn a.year b.month)]
  omega

theorem days_eq_iff : a.days = b.days ↔ a.year = b.year ∧ a.month = b.month ∧ a.day = b.day := by
  rw [days, days, radix_eq (fun _ => rfl) daysBeforeMonth_lt daysBeforeMonth_lt]
  apply and_congr_right
  intro hy
  obtain ⟨ha1, ha2⟩ := a.day_mem
  obtain ⟨hb1, hb2⟩ := b.day_mem
  rw [← hy] at hb2 ⊢
  rw [radix_eq (fun _ => rfl) (by omega : a.day - 1 < daysIn a.year a.month)
    (by omega : b.day - 1 < daysIn a.year b.month)]
  omega

private theorem seconds_lt_iff : a.seconds < b.seconds ↔ a.days < b.days ∨ a.days = b.days ∧
    (a.hour < b.hour ∨ a.hour = b.hour ∧ (a.minute < b.minute ∨ a.minute = b.minute ∧
      a.second < b.second)) := by
  rw [seconds, seconds, radix_mul_lt a.second_lt b.second_lt, radix_mul_lt a.minute_lt b.minute_lt,
    radix_mul_lt a.hour_lt b.hour_lt, radix_mul_eq a.minute_lt b.minute_lt,
    radix_mul_eq a.hour_lt b.hour_lt]
  tauto

theorem seconds_eq_iff : a.seconds = b.seconds ↔
    a.days = b.days ∧ a.hour = b.hour ∧ a.minute = b.minute ∧ a.second = b.second := by
  rw [seconds, seconds, radix_mul_eq a.second_lt b.second_lt, radix_mul_eq a.minute_lt b.minute_lt,
    radix_mul_eq a.hour_lt b.hour_lt]
  tauto

theorem nanos_lt_iff : a.nanos < b.nanos ↔
    a.seconds < b.seconds ∨ a.seconds = b.seconds ∧ a.nanosecond < b.nanosecond :=
  radix_mul_lt a.nanosecond_lt b.nanosecond_lt

theorem nanos_eq_iff : a.nanos = b.nanos ↔ a.seconds = b.seconds ∧ a.nanosecond = b.nanosecond :=
  radix_mul_eq a.nanosecond_lt b.nanosecond_lt

theorem fields_lt (t : UtcTime) : t.year < 10 ^ 4 ∧ t.month < 10 ^ 2 ∧ t.day < 10 ^ 2 ∧
    t.hour < 10 ^ 2 ∧ t.minute < 10 ^ 2 ∧ t.second < 10 ^ 2 := by
  have hy := t.year_le
  have hm := t.month_mem
  have hd := t.day_mem
  have hdays := daysIn_le t.year t.month
  have hh := t.hour_lt
  have hmi := t.minute_lt
  have hs := t.second_lt
  omega

private theorem stamp_lt_iff : a.stamp < b.stamp ↔ a.seconds < b.seconds := by
  obtain ⟨hy, hmo, hd, hh, hmi, hs⟩ := a.fields_lt
  obtain ⟨hy', hmo', hd', hh', hmi', hs'⟩ := b.fields_lt
  rw [stamp, stamp, field_lt_iff hy hy', field_lt_iff hmo hmo', field_lt_iff hd hd',
    field_lt_iff hh hh', field_lt_iff hmi hmi', padded_lt_iff, Nat.mod_eq_of_lt hs,
    Nat.mod_eq_of_lt hs', seconds_lt_iff, days_lt_iff, days_eq_iff]
  tauto

theorem stamp_eq_iff : a.stamp = b.stamp ↔ a.seconds = b.seconds := by
  obtain ⟨hy, hmo, hd, hh, hmi, hs⟩ := a.fields_lt
  obtain ⟨hy', hmo', hd', hh', hmi', hs'⟩ := b.fields_lt
  rw [stamp, stamp, field_eq_iff hy hy', field_eq_iff hmo hmo', field_eq_iff hd hd',
    field_eq_iff hh hh', field_eq_iff hmi hmi', padded_eq_iff, Nat.mod_eq_of_lt hs,
    Nat.mod_eq_of_lt hs', seconds_eq_iff, days_eq_iff]
  tauto

theorem stamp_length (t : UtcTime) : t.stamp.length = 19 := by
  simp [stamp]

theorem fraction_eq_iff : a.fraction = b.fraction ↔ a.nanosecond = b.nanosecond := by
  have ha := a.nanosecond_lt
  have hb := b.nanosecond_lt
  constructor
  · intro h
    have := (padded_eq_iff).mp (trimZeros_inj (by rw [padded_length, padded_length]) h)
    rwa [Nat.mod_eq_of_lt ha, Nat.mod_eq_of_lt hb] at this
  · intro h
    rw [fraction, fraction, h]

theorem fraction_digits (t : UtcTime) : AreDigits t.fraction := trimZeros_digits (padded_digits _ _)

private theorem tail_lt_iff : a.tail < b.tail ↔ a.fraction ++ [0x5A] < b.fraction ++ [0x5A] := by
  have ha := a.fraction_digits
  have hb := b.fraction_digits
  rw [tail, tail]
  cases hd : a.fraction with
  | nil =>
    cases he : b.fraction with
    | nil => rfl
    | cons e es =>
      rw [he] at hb
      have hzulu := hb.lt_zulu
      have hne : (0x5A : UInt8) ≠ e := fun h => UInt8.lt_irrefl _ (h ▸ hzulu)
      have hnot : ¬ (0x5A : UInt8) < e := UInt8.lt_asymm hzulu
      simp [cons_lt_cons_iff, hne, hnot]
  | cons d ds =>
    cases he : b.fraction with
    | nil =>
      rw [hd] at ha
      simp [cons_lt_cons_iff, ha.lt_zulu]
    | cons e es => simp [cons_lt_cons_iff]

theorem rfc3339Nano_lt_iff : a.rfc3339Nano < b.rfc3339Nano ↔
    if Clash a b then b.nanos < a.nanos else a.nanos < b.nanos := by
  have hlen : a.stamp.length = b.stamp.length := by rw [stamp_length, stamp_length]
  rw [rfc3339Nano, rfc3339Nano, append_lt_iff hlen, stamp_lt_iff, stamp_eq_iff, tail_lt_iff]
  by_cases hsec : a.seconds = b.seconds
  · by_cases hns : a.nanosecond = b.nanosecond
    · have hnot : ¬ Clash a b := fun h => h.2.1 ((fraction_eq_iff).mpr hns)
      have hfrac := (fraction_eq_iff).mpr hns
      rw [if_neg hnot, nanos_lt_iff, hsec, hns, hfrac]
      simp [List.lt_irrefl]
    · have ha := a.nanosecond_lt
      have hb := b.nanosecond_lt
      have hne : padded 9 a.nanosecond ≠ padded 9 b.nanosecond := by
        rw [Ne, padded_eq_iff, Nat.mod_eq_of_lt ha, Nat.mod_eq_of_lt hb]
        exact hns
      have hclash : Clash a b ↔ a.fraction <+: b.fraction ∨ b.fraction <+: a.fraction := by
        rw [Clash, and_iff_right hsec, and_iff_right (fun h => hns ((fraction_eq_iff).mp h))]
      have hfrac := trimZeros_lt_iff (padded_digits 9 a.nanosecond) (padded_digits 9 b.nanosecond)
        (by rw [padded_length, padded_length]) hne
      rw [padded_lt_iff, padded_lt_iff, Nat.mod_eq_of_lt ha, Nat.mod_eq_of_lt hb] at hfrac
      rw [← fraction, ← fraction] at hfrac
      rw [hfrac, nanos_lt_iff, nanos_lt_iff, hsec]
      simp [hclash]
  · have hnot : ¬ Clash a b := fun h => hsec h.1
    rw [if_neg hnot, nanos_lt_iff]
    simp [hsec]

theorem rfc3339Nano_eq_iff : a.rfc3339Nano = b.rfc3339Nano ↔ a.nanos = b.nanos := by
  constructor
  · intro h
    have h1 : ¬ a.rfc3339Nano < b.rfc3339Nano := h ▸ List.lt_irrefl _
    have h2 : ¬ b.rfc3339Nano < a.rfc3339Nano := h ▸ List.lt_irrefl _
    rw [rfc3339Nano_lt_iff] at h1 h2
    have hsymm : Clash a b ↔ Clash b a := ⟨Clash.symm, Clash.symm⟩
    by_cases hc : Clash a b
    · rw [if_pos hc] at h1
      rw [if_pos (hsymm.mp hc)] at h2
      omega
    · rw [if_neg hc] at h1
      rw [if_neg (fun h => hc (hsymm.mpr h))] at h2
      omega
  · intro h
    obtain ⟨hsec, hns⟩ := (nanos_eq_iff).mp h
    rw [rfc3339Nano, rfc3339Nano, (stamp_eq_iff).mpr hsec, tail, tail, (fraction_eq_iff).mpr hns]

theorem eq_of_nanos_eq (h : a.nanos = b.nanos) : a = b := by
  obtain ⟨hsec, hns⟩ := (nanos_eq_iff).mp h
  obtain ⟨hdays, hh, hmi, hs⟩ := (seconds_eq_iff).mp hsec
  obtain ⟨hy, hmo, hd⟩ := (days_eq_iff).mp hdays
  cases a
  cases b
  simp_all

theorem Clash.nanos_ne (h : Clash a b) : a.nanos ≠ b.nanos :=
  fun heq => h.2.1 ((fraction_eq_iff).mpr ((nanos_eq_iff).mp heq).2)

/-- The texts of two times are in the order of the times exactly when the times do not clash. -/
theorem rfc3339Nano_lt_iff_lt : (a.rfc3339Nano < b.rfc3339Nano ↔ a.nanos < b.nanos) ↔ ¬ Clash a b := by
  rw [rfc3339Nano_lt_iff]
  by_cases hc : Clash a b
  · have := hc.nanos_ne
    simp only [hc, if_true, not_true]
    constructor
    · intro h
      omega
    · intro h
      exact h.elim
  · simp [hc]

end UtcTime

end MonsterMQ.UtcTimes
