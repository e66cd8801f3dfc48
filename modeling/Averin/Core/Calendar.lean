import Averin.Core.Unicode
import Mathlib.Data.List.Lex
import Mathlib.Data.String.Basic

/-!
# The proleptic Gregorian calendar

Days are counted year by year and month by month. A date and a time of day in the years 0 to 9999
have a fixed-width text, and the order of the texts, the order of the fields and the order of the
instants are one and the same.
-/

namespace Averin

/-- A year with a leap day. -/
def IsLeap (year : Nat) : Prop := (year % 4 = 0 ∧ year % 100 ≠ 0) ∨ year % 400 = 0

instance (year : Nat) : Decidable (IsLeap year) := by unfold IsLeap; infer_instance

/-- The days of a year. -/
def yearLength (year : Nat) : Nat := if IsLeap year then 366 else 365

/-- The days of a month, counted from 1. -/
def monthLength (year month : Nat) : Nat :=
  if month = 2 then if IsLeap year then 29 else 28
  else if month = 4 ∨ month = 6 ∨ month = 9 ∨ month = 11 then 30
  else 31

/-- The days of the years before a year. -/
def daysBeforeYear : Nat → Nat
  | 0 => 0
  | year + 1 => daysBeforeYear year + yearLength year

/-- The days of the months of a year before a month. -/
def daysBeforeMonth (year : Nat) : Nat → Nat
  | 0 => 0
  | 1 => 0
  | month + 2 => daysBeforeMonth year (month + 1) + monthLength year (month + 1)

/-- A year ends before a later one begins. -/
theorem daysBeforeYear_lt {y y' : Nat} (h : y < y') :
    daysBeforeYear y + yearLength y ≤ daysBeforeYear y' := by
  induction h with
  | refl => exact le_rfl
  | step _ ih => exact ih.trans (Nat.le_add_right _ _)

/-- A month ends before a later one begins. -/
theorem daysBeforeMonth_lt (year : Nat) {m m' : Nat} (hm : 1 ≤ m) (h : m < m') :
    daysBeforeMonth year m + monthLength year m ≤ daysBeforeMonth year m' := by
  obtain ⟨k, rfl⟩ := Nat.exists_eq_add_of_le' hm
  obtain ⟨j, rfl⟩ := Nat.exists_eq_add_of_lt h
  induction j with
  | zero => exact le_rfl
  | succ j ih => exact (ih (by omega)).trans (Nat.le_add_right _ _)

/-- The months fill the year. -/
theorem daysBeforeMonth_thirteen (year : Nat) : daysBeforeMonth year 13 = yearLength year := by
  by_cases h : IsLeap year <;> simp [daysBeforeMonth, monthLength, yearLength, h]

/-- Every fourth year is a leap year, but of the full centuries only every fourth. -/
theorem daysBeforeYear_eq (year : Nat) :
    daysBeforeYear year + (year + 99) / 100 = 365 * year + (year + 3) / 4 + (year + 399) / 400 := by
  induction year with
  | zero => rfl
  | succ year ih =>
    rw [daysBeforeYear, yearLength]
    by_cases h : IsLeap year
    · rw [if_pos h]
      unfold IsLeap at h
      omega
    · rw [if_neg h]
      unfold IsLeap at h
      omega

/-- The days before a year by eras of 400 years, of which each begins with a leap year. -/
theorem daysBeforeYear_era {yoe : Nat} (h : yoe < 400) (era : Nat) :
    daysBeforeYear (era * 400 + yoe + 1) + yoe / 100 =
      era * 146097 + yoe * 365 + yoe / 4 + 366 := by
  have hdays := daysBeforeYear_eq (era * 400 + yoe + 1)
  have h4 : (era * 400 + yoe + 1 + 3) / 4 = yoe / 4 + (era * 100 + 1) := by
    rw [show era * 400 + yoe + 1 + 3 = yoe + (era * 100 + 1) * 4 by ring,
      Nat.add_mul_div_right _ _ (by decide)]
  have h100 : (era * 400 + yoe + 1 + 99) / 100 = yoe / 100 + (era * 4 + 1) := by
    rw [show era * 400 + yoe + 1 + 99 = yoe + (era * 4 + 1) * 100 by ring,
      Nat.add_mul_div_right _ _ (by decide)]
  have h400 : (era * 400 + yoe + 1 + 399) / 400 = yoe / 400 + (era + 1) := by
    rw [show era * 400 + yoe + 1 + 399 = yoe + (era + 1) * 400 by ring,
      Nat.add_mul_div_right _ _ (by decide)]
  rw [h4, h100, h400, Nat.div_eq_of_lt h] at hdays
  omega

/-- From March on the months of a year have a regular length. -/
theorem daysBeforeMonth_from_march (year : Nat) {k : Nat} (hk : k ≤ 9) :
    daysBeforeMonth year (k + 3) + 306 = (153 * k + 2) / 5 + yearLength year := by
  by_cases hleap : IsLeap year <;> interval_cases k <;>
    simp [daysBeforeMonth, monthLength, yearLength, hleap]

/-- A date and a time of day. -/
structure UtcTime where
  year : Nat
  month : Nat
  day : Nat
  hour : Nat
  minute : Nat
  second : Nat
  milli : Nat
  year_lt : year < 10000
  month_pos : 1 ≤ month
  month_le : month ≤ 12
  day_pos : 1 ≤ day
  day_le : day ≤ monthLength year month
  hour_lt : hour < 24
  minute_lt : minute < 60
  second_lt : second < 60
  milli_lt : milli < 1000

namespace UtcTime

variable (t t' : UtcTime)

/-- The days from the first day of year 0. -/
def dayNumber : Nat := daysBeforeYear t.year + daysBeforeMonth t.year t.month + (t.day - 1)

/-- The milliseconds since the start of 1970. -/
def millis : Int :=
  (((((t.dayNumber : Int) - daysBeforeYear 1970) * 24 + t.hour) * 60 + t.minute) * 60 + t.second) *
    1000 + t.milli

/-- The fields in the order they are written. -/
def fields : List Nat := [t.year, t.month, t.day, t.hour, t.minute, t.second, t.milli]

variable {t t'}

/-- The day lies in its month, and the month in its year. -/
theorem dayNumber_lt :
    t.dayNumber < daysBeforeYear t.year + daysBeforeMonth t.year t.month +
      monthLength t.year t.month ∧
      t.dayNumber < daysBeforeYear t.year + yearLength t.year := by
  have hmonth := daysBeforeMonth_lt t.year t.month_pos (show t.month < 13 by
    have := t.month_le
    omega)
  rw [daysBeforeMonth_thirteen] at hmonth
  have hpos := t.day_pos
  have hle := t.day_le
  rw [dayNumber]
  omega

/-- Days ascend with the year, in a year with the month and in a month with the day. -/
theorem dayNumber_lt_of_lex
    (h : t.year < t'.year ∨ t.year = t'.year ∧
      (t.month < t'.month ∨ t.month = t'.month ∧ t.day < t'.day)) :
    t.dayNumber < t'.dayNumber := by
  obtain ⟨hmonth, hyear⟩ := t.dayNumber_lt
  rcases h with hlt | ⟨heq, hlt | ⟨heq', hlt⟩⟩
  · have := daysBeforeYear_lt hlt
    have hle : daysBeforeYear t'.year ≤ t'.dayNumber := by
      rw [dayNumber]
      omega
    omega
  · have := daysBeforeMonth_lt t.year t.month_pos hlt
    have hle : daysBeforeYear t'.year + daysBeforeMonth t'.year t'.month ≤ t'.dayNumber := by
      rw [dayNumber]
      omega
    rw [← heq] at hle
    omega
  · have hpos := t.day_pos
    rw [dayNumber, dayNumber, heq, heq']
    omega

/-- The clock ascends with the fields. -/
theorem millis_lt_of_fields_lt (h : t.fields < t'.fields) : t.millis < t'.millis := by
  have hh := t.hour_lt
  have hm := t.minute_lt
  have hs := t.second_lt
  have hms := t.milli_lt
  simp only [fields, List.cons_lt_cons_iff, lt_self_iff_false, and_false, or_false] at h
  by_cases hday : t.year = t'.year ∧ t.month = t'.month ∧ t.day = t'.day
  · obtain ⟨hy, hmo, hd⟩ := hday
    have hnumber : t.dayNumber = t'.dayNumber := by rw [dayNumber, dayNumber, hy, hmo, hd]
    simp only [hy, hmo, hd, lt_self_iff_false, true_and, false_or] at h
    rw [millis, millis, hnumber]
    omega
  · have hnumber : t.dayNumber < t'.dayNumber := dayNumber_lt_of_lex (by omega)
    rw [millis, millis]
    omega

/-- A time is its fields. -/
theorem fields_inj (h : t.fields = t'.fields) : t = t' := by
  cases t
  cases t'
  simp only [fields, List.cons.injEq, and_true] at h
  simp only [mk.injEq]
  exact h

/-- Two instants are ordered as their fields. -/
theorem millis_lt_iff : t.millis < t'.millis ↔ t.fields < t'.fields := by
  refine ⟨fun h => ?_, millis_lt_of_fields_lt⟩
  rcases lt_trichotomy t.fields t'.fields with hlt | heq | hgt
  · exact hlt
  · rw [fields_inj heq] at h
    exact absurd h (lt_irrefl _)
  · exact absurd (millis_lt_of_fields_lt hgt) h.asymm

end UtcTime

/-- The last so many decimal digits of a number. -/
def digits : Nat → Nat → List Char
  | 0, _ => []
  | width + 1, n => digits width (n / 10) ++ [Nat.digitChar (n % 10)]

/-- A number is written in just so many digits. -/
@[simp] theorem length_digits (width n : Nat) : (digits width n).length = width := by
  induction width generalizing n with
  | zero => rfl
  | succ width ih => rw [digits, List.length_append, ih, List.length_singleton]

/-- Digits are in the order of their values. -/
theorem digitChar_lt_iff :
    ∀ a < 10, ∀ b < 10, Nat.digitChar a < Nat.digitChar b ↔ a < b := by decide

theorem digitChar_inj : ∀ a < 10, ∀ b < 10, Nat.digitChar a = Nat.digitChar b ↔ a = b := by decide

/-- Texts of one length are compared part by part. -/
theorem append_lt_append_iff {α : Type*} [LinearOrder α] {l l' r r' : List α}
    (h : l.length = l'.length) : l ++ r < l' ++ r' ↔ l < l' ∨ (l = l' ∧ r < r') := by
  induction l generalizing l' with
  | nil =>
    obtain rfl : l' = [] := List.eq_nil_of_length_eq_zero h.symm
    simp
  | cons a l ih =>
    cases l' with
    | nil => cases h
    | cons a' l' =>
      rw [List.cons_append, List.cons_append, List.cons_lt_cons_iff, List.cons_lt_cons_iff,
        ih (Nat.succ.inj h), List.cons.injEq]
      constructor
      · rintro (hlt | ⟨rfl, hlt | ⟨rfl, hlt⟩⟩)
        · exact Or.inl (Or.inl hlt)
        · exact Or.inl (Or.inr ⟨rfl, hlt⟩)
        · exact Or.inr ⟨⟨rfl, rfl⟩, hlt⟩
      · rintro ((hlt | ⟨rfl, hlt⟩) | ⟨⟨rfl, rfl⟩, hlt⟩)
        · exact Or.inl hlt
        · exact Or.inr ⟨rfl, Or.inl hlt⟩
        · exact Or.inr ⟨rfl, Or.inr ⟨rfl, hlt⟩⟩

/-- Numbers of one width are their digits. -/
theorem digits_inj {width m n : Nat} (hm : m < 10 ^ width) (hn : n < 10 ^ width) :
    digits width m = digits width n ↔ m = n := by
  induction width generalizing m n with
  | zero =>
    rw [pow_zero, Nat.lt_one_iff] at hm hn
    simp [hm, hn]
  | succ width ih =>
    rw [pow_succ] at hm hn
    have hlast := digitChar_inj (m % 10) (by omega) (n % 10) (by omega)
    have hfirst : m / 10 < 10 ^ width ∧ n / 10 < 10 ^ width := by omega
    constructor
    · intro h
      obtain ⟨hinit, hchar⟩ := List.append_inj' h rfl
      have hinit' := (ih hfirst.1 hfirst.2).mp hinit
      have hchar' := hlast.mp (List.singleton_inj.mp hchar)
      omega
    · rintro rfl
      rfl

/-- Numbers of one width are ordered as their texts. -/
theorem digits_lt_iff {width m n : Nat} (hm : m < 10 ^ width) (hn : n < 10 ^ width) :
    digits width m < digits width n ↔ m < n := by
  induction width generalizing m n with
  | zero =>
    rw [pow_zero, Nat.lt_one_iff] at hm hn
    simp [hm, hn, digits]
  | succ width ih =>
    rw [pow_succ] at hm hn
    have hlast := digitChar_lt_iff (m % 10) (by omega) (n % 10) (by omega)
    have hfirst : m / 10 < 10 ^ width ∧ n / 10 < 10 ^ width := by omega
    rw [digits, digits, append_lt_append_iff (by simp), ih hfirst.1 hfirst.2,
      digits_inj hfirst.1 hfirst.2, List.cons_lt_cons_iff, hlast]
    simp only [lt_self_iff_false, and_false, or_false]
    omega

/-- A number in front of a separator decides, and what follows only if it is the same. -/
theorem digits_append_lt_iff {width m n : Nat} (hm : m < 10 ^ width) (hn : n < 10 ^ width)
    (c : Char) (r r' : List Char) :
    digits width m ++ c :: r < digits width n ++ c :: r' ↔ m < n ∨ (m = n ∧ r < r') := by
  rw [append_lt_append_iff (by simp), digits_lt_iff hm hn, digits_inj hm hn, List.cons_lt_cons_iff]
  simp

theorem monthLength_le (year month : Nat) : monthLength year month ≤ 31 := by
  unfold monthLength
  split_ifs <;> omega

namespace UtcTime

variable (t : UtcTime)

/-- The text `YYYY-MM-DDThh:mm:ss.mmmZ`. -/
def chars : List Char :=
  digits 4 t.year ++ '-' :: (digits 2 t.month ++ '-' :: (digits 2 t.day ++ 'T' ::
    (digits 2 t.hour ++ ':' :: (digits 2 t.minute ++ ':' :: (digits 2 t.second ++ '.' ::
      (digits 3 t.milli ++ 'Z' :: []))))))

/-- The text of a time. -/
def text : String := .ofList t.chars

/-- Every field fits its width. -/
theorem widths : t.year < 10 ^ 4 ∧ t.month < 10 ^ 2 ∧ t.day < 10 ^ 2 ∧ t.hour < 10 ^ 2 ∧
    t.minute < 10 ^ 2 ∧ t.second < 10 ^ 2 ∧ t.milli < 10 ^ 3 := by
  have hday := t.day_le.trans (monthLength_le t.year t.month)
  exact ⟨t.year_lt, by have := t.month_le; omega, by omega, by have := t.hour_lt; omega,
    by have := t.minute_lt; omega, by have := t.second_lt; omega, t.milli_lt⟩

variable {t} {t' : UtcTime}

/-- Two texts are ordered as the instants they name. -/
theorem text_lt_iff : t.text < t'.text ↔ t.millis < t'.millis := by
  obtain ⟨hy, hmo, hd, hh, hmi, hs, hms⟩ := t.widths
  obtain ⟨hy', hmo', hd', hh', hmi', hs', hms'⟩ := t'.widths
  rw [millis_lt_iff, String.lt_iff_toList_lt, text, text, String.toList_ofList,
    String.toList_ofList, chars, chars, digits_append_lt_iff hy hy', digits_append_lt_iff hmo hmo',
    digits_append_lt_iff hd hd', digits_append_lt_iff hh hh', digits_append_lt_iff hmi hmi',
    digits_append_lt_iff hs hs', digits_append_lt_iff hms hms']
  simp only [fields, List.cons_lt_cons_iff, lt_self_iff_false]

end UtcTime

end Averin
