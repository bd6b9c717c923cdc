import Mathlib.Data.Int.Order.Basic
import Mathlib.Tactic.SplitIfs
import CellDisplay.Proofs.Calendar.DayNumber

/-! The numbering of days runs through the whole calendar without a gap: every number between its
ends is that of one date (`ofDayNumber?_eq_some_iff`, `ofDayNumber?_isSome_iff`). Numbers grow with
the dates, which are ordered by year, then month, then day (`before_iff`). -/
namespace CellDisplay.Calendar

/-! ### The date of a number -/

theorem daysBeforeYear_lt_iff {a b : Int} : daysBeforeYear a < daysBeforeYear b ↔ a < b := by
  simp only [daysBeforeYear]
  omega

theorem daysBeforeYear_le_iff {a b : Int} : daysBeforeYear a ≤ daysBeforeYear b ↔ a ≤ b := by
  rw [← Int.not_lt, daysBeforeYear_lt_iff, Int.not_lt]

/-- A number lies in the year that is found for it. -/
theorem yearOfDayNumber_bounds (n : Int) :
    daysBeforeYear (yearOfDayNumber n) < n ∧ n ≤ daysBeforeYear (yearOfDayNumber n + 1) := by
  have around : daysBeforeYear (400 * n / 146097 + 1 - 1) < n ∧
      n ≤ daysBeforeYear (400 * n / 146097 + 1 + 1 + 1) := by
    simp only [daysBeforeYear]
    omega
  simp only [yearOfDayNumber]
  generalize 400 * n / 146097 + 1 = estimate at *
  split_ifs with early late
  · rw [Int.sub_add_cancel]
    exact ⟨around.1, early⟩
  · exact ⟨late, around.2⟩
  · exact ⟨Int.not_le.1 early, Int.not_lt.1 late⟩

/-- Every day of the months so far lies in one of them. -/
theorem exists_month {year : Int} {day months : Nat} (low : 0 < day)
    (high : day ≤ daysBeforeMonth year (months + 1)) :
    ∃ month, (1 ≤ month ∧ month ≤ months) ∧ daysBeforeMonth year month < day ∧
      day ≤ daysBeforeMonth year (month + 1) := by
  induction months with
  | zero => exact absurd high (Nat.not_le.2 low)
  | succ months ih =>
    by_cases last : daysBeforeMonth year (months + 1) < day
    · exact ⟨months + 1, ⟨by omega, Nat.le_refl _⟩, last, high⟩
    · obtain ⟨month, bounds, inside⟩ := ih (Nat.not_lt.1 last)
      exact ⟨month, by omega, inside⟩

namespace Date

theorem eq_of_toYearMonthDay {a b : Date} (h : a.toYearMonthDay = b.toYearMonthDay) : a = b := by
  obtain ⟨d, _⟩ := a
  obtain ⟨e, _⟩ := b
  obtain rfl : d = e := h
  rfl

theorem ofYearMonthDay?_eq_some_iff {d : YearMonthDay} {date : Date} :
    ofYearMonthDay? d = some date ↔ date.toYearMonthDay = d := by
  unfold ofYearMonthDay?
  constructor
  · intro h
    split at h
    · rw [← Option.some.inj h]
    · contradiction
  · rintro rfl
    exact dif_pos date.valid

/-- In a year of the calendar every number is that of a date. -/
theorem exists_dayNumber {n : Int} (low : -262143 ≤ yearOfDayNumber n)
    (high : yearOfDayNumber n ≤ 262142) : ∃ d : Date, d.dayNumber = n := by
  obtain ⟨before, within⟩ := yearOfDayNumber_bounds n
  generalize yearOfDayNumber n = year at *
  obtain ⟨day, hday⟩ := Int.eq_ofNat_of_zero_le (show 0 ≤ n - daysBeforeYear year by omega)
  have last : day ≤ daysBeforeMonth year 13 := by
    rw [daysBeforeYear_succ] at within
    rw [daysBeforeMonth_thirteen]
    split at within <;> split <;> first | contradiction | omega
  obtain ⟨month, bounds, behind, inside⟩ := exists_month (show 0 < day by omega) last
  rw [daysBeforeMonth_succ year bounds.1] at inside
  have valid : YearMonthDay.Exists ⟨year, month, day - daysBeforeMonth year month⟩ :=
    ⟨⟨low, high⟩, bounds, by simp only; omega⟩
  refine ⟨⟨_, valid⟩, ?_⟩
  simp only [dayNumber]
  omega

theorem ofDayNumber?_eq_some_iff {n : Int} {d : Date} :
    ofDayNumber? n = some d ↔ d.dayNumber = n := by
  constructor
  · intro h
    have year : d.year = yearOfDayNumber n :=
      congrArg YearMonthDay.year (ofYearMonthDay?_eq_some_iff.1 h)
    obtain ⟨e, rfl⟩ := exists_dayNumber (year ▸ d.valid.1.1) (year ▸ d.valid.1.2)
    rw [e.ofDayNumber?_dayNumber, Option.some_inj] at h
    rw [h]
  · rintro rfl
    exact d.ofDayNumber?_dayNumber

/-- The first day of the calendar. -/
def first : Date := { year := -262143, month := 1, day := 1, valid := by decide }

/-- The last day of the calendar. -/
def last : Date := { year := 262142, month := 12, day := 31, valid := by decide }

theorem first_dayNumber : first.dayNumber = daysBeforeYear (-262143) + 1 := by decide

theorem last_dayNumber : last.dayNumber = daysBeforeYear (262142 + 1) := by decide

theorem dayNumber_first_le (d : Date) : first.dayNumber ≤ d.dayNumber := by
  have := daysBeforeYear_le_iff.2 d.valid.1.1
  rw [first_dayNumber]
  exact Int.lt_of_le_of_lt this d.dayNumber_bounds.1

theorem dayNumber_le_last (d : Date) : d.dayNumber ≤ last.dayNumber := by
  have := daysBeforeYear_le_iff.2 (Int.add_le_add_right d.valid.1.2 1)
  rw [last_dayNumber]
  exact Int.le_trans d.dayNumber_bounds.2 this

/-- The calendar has all days between its ends. -/
theorem ofDayNumber?_isSome_iff {n : Int} :
    (ofDayNumber? n).isSome ↔ first.dayNumber ≤ n ∧ n ≤ last.dayNumber := by
  simp only [Option.isSome_iff_exists, ofDayNumber?_eq_some_iff]
  constructor
  · rintro ⟨d, rfl⟩
    exact ⟨d.dayNumber_first_le, d.dayNumber_le_last⟩
  · rw [first_dayNumber, last_dayNumber]
    rintro ⟨low, high⟩
    obtain ⟨before, within⟩ := yearOfDayNumber_bounds n
    apply exists_dayNumber
    · exact Int.lt_add_one_iff.1
        (daysBeforeYear_lt_iff.1 (Int.lt_of_lt_of_le low within))
    · exact Int.lt_add_one_iff.1
        (daysBeforeYear_lt_iff.1 (Int.lt_of_lt_of_le before high))

end Date

/-! ### The order of dates -/

/-- By year, then by month, then by day. -/
def YearMonthDay.Before (a b : YearMonthDay) : Prop :=
  a.year < b.year ∨ a.year = b.year ∧ (a.month < b.month ∨ a.month = b.month ∧ a.day < b.day)

instance (a b : YearMonthDay) : Decidable (a.Before b) := inferInstanceAs (Decidable (_ ∨ _))

theorem YearMonthDay.before_or_eq_or_before (a b : YearMonthDay) :
    a.Before b ∨ a = b ∨ b.Before a := by
  obtain ⟨_, _, _⟩ := a
  obtain ⟨_, _, _⟩ := b
  simp only [Before, mk.injEq]
  omega

namespace Date

theorem dayNumber_lt_of_before {a b : Date} (h : a.Before b.toYearMonthDay) :
    a.dayNumber < b.dayNumber := by
  have ends := a.dayNumber_bounds.2
  have starts := b.dayNumber_bounds.1
  rcases h with year | ⟨year, month | ⟨month, day⟩⟩
  · have := daysBeforeYear_le_iff.2 (Int.add_one_le_iff.2 year)
    omega
  · have next := daysBeforeMonth_succ a.year a.valid.2.1.1
    have later := daysBeforeMonth_mono a.year (show a.month + 1 ≤ b.month from month)
    have inside := a.valid.2.2.2
    have pos := b.valid.2.2.1
    simp only [dayNumber, ← year]
    omega
  · simp only [dayNumber, ← year, ← month]
    omega

theorem before_iff {a b : Date} :
    a.Before b.toYearMonthDay ↔ a.dayNumber < b.dayNumber := by
  constructor
  · exact dayNumber_lt_of_before
  · intro lt
    rcases a.before_or_eq_or_before b.toYearMonthDay with before | same | after
    · exact before
    · rw [eq_of_toYearMonthDay same] at lt
      exact absurd lt (Int.lt_irrefl _)
    · exact absurd (dayNumber_lt_of_before after) (Int.lt_asymm lt)

end Date

end CellDisplay.Calendar
