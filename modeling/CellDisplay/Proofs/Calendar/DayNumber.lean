import CellDisplay.Calendar.Date

/-! The calendar is a numbering: the date of a day number is the day that has this number
(`ofDayNumber?_dayNumber`). The estimate of the year from its mean length is off by one at most,
and within a year the days before its months cut the day numbers into the months. -/
namespace CellDisplay.Calendar

theorem daysBeforeYear_lt (year : Int) : daysBeforeYear year < daysBeforeYear (year + 1) := by
  simp only [daysBeforeYear]
  omega

theorem daysBeforeYear_succ (year : Int) :
    daysBeforeYear (year + 1) = daysBeforeYear year + (if isLeapYear year then 366 else 365) := by
  simp only [daysBeforeYear, isLeapYear, ne_eq, Bool.and_eq_true, Bool.or_eq_true,
    decide_eq_true_eq, Int.add_sub_cancel]
  split <;> omega

theorem estimate_near {year n : Int} (low : daysBeforeYear year < n)
    (high : n ≤ daysBeforeYear (year + 1)) :
    year - 1 ≤ 400 * n / 146097 + 1 ∧ 400 * n / 146097 + 1 ≤ year + 1 := by
  simp only [daysBeforeYear] at low high
  omega

/-- The correction of the estimate finds the year. -/
theorem yearOfDayNumber_eq {year n : Int} (low : daysBeforeYear year < n)
    (high : n ≤ daysBeforeYear (year + 1)) : yearOfDayNumber n = year := by
  have near := estimate_near low high
  have before := daysBeforeYear_lt (year - 1)
  have after := daysBeforeYear_lt (year + 1)
  simp only [yearOfDayNumber]
  generalize 400 * n / 146097 + 1 = estimate at *
  rw [Int.sub_add_cancel] at before
  obtain rfl | rfl | rfl : estimate = year - 1 ∨ estimate = year ∨ estimate = year + 1 := by omega
  · rw [if_neg (by omega), Int.sub_add_cancel, if_pos (by omega)]
  · rw [if_neg (by omega), if_neg (by omega)]
  · rw [if_pos (by omega)]
    omega

theorem daysBeforeMonth_succ (year : Int) {month : Nat} (h : 1 ≤ month) :
    daysBeforeMonth year (month + 1) = daysBeforeMonth year month + daysInMonth year month := by
  obtain ⟨m, rfl⟩ : ∃ m, month = m + 1 := ⟨month - 1, by omega⟩
  rfl

theorem daysBeforeMonth_mono (year : Int) {a b : Nat} (h : a ≤ b) :
    daysBeforeMonth year a ≤ daysBeforeMonth year b := by
  induction h with
  | refl => exact Nat.le_refl _
  | @step b _ ih =>
    refine Nat.le_trans ih ?_
    cases b with
    | zero => exact Nat.le_refl _
    | succ m => exact Nat.le_add_right _ _

/-- Twelve months make a year. -/
theorem daysBeforeMonth_thirteen (year : Int) :
    daysBeforeMonth year 13 = if isLeapYear year then 366 else 365 := by
  by_cases leap : isLeapYear year <;> simp [daysBeforeMonth, daysInMonth, leap]

theorem monthAndDay_eq {year : Int} {month day : Nat} (hm : 1 ≤ month ∧ month ≤ 12)
    (hd : 1 ≤ day ∧ day ≤ daysInMonth year month) :
    monthAndDay year (daysBeforeMonth year month + day) = (month, day) := by
  have next := daysBeforeMonth_succ year hm.1
  have found : ((List.range' 1 12).find? fun m =>
      daysBeforeMonth year month + day ≤ daysBeforeMonth year (m + 1)) = some month := by
    rw [List.find?_range'_eq_some]
    refine ⟨by simp only [decide_eq_true_eq]; omega, by simp only [List.mem_range'_1]; omega, ?_⟩
    intro m _ less
    have := daysBeforeMonth_mono year (show m + 1 ≤ month from less)
    simp only [Bool.not_eq_eq_eq_not, Bool.not_true, decide_eq_false_iff_not]
    omega
  rw [monthAndDay, found]
  simp only [Nat.add_sub_cancel_left]

namespace Date

/-- The day of the year of a date. -/
theorem dayOfYear_bounds (d : Date) :
    1 ≤ daysBeforeMonth d.year d.month + d.day ∧
      daysBeforeMonth d.year d.month + d.day ≤ daysBeforeMonth d.year 13 := by
  obtain ⟨-, hm, hd⟩ := d.valid
  have next := daysBeforeMonth_succ d.year hm.1
  have last := daysBeforeMonth_mono d.year (show d.month + 1 ≤ 13 by omega)
  omega

theorem dayNumber_bounds (d : Date) :
    daysBeforeYear d.year < d.dayNumber ∧ d.dayNumber ≤ daysBeforeYear (d.year + 1) := by
  have bounds := d.dayOfYear_bounds
  rw [daysBeforeYear_succ]
  rw [daysBeforeMonth_thirteen] at bounds
  simp only [dayNumber]
  split at bounds <;> split <;> first | contradiction | omega

theorem ofYearMonthDay?_toYearMonthDay (d : Date) : ofYearMonthDay? d.toYearMonthDay = some d :=
  dif_pos d.valid

/-- The date of a day number is the day that has it. -/
theorem ofDayNumber?_dayNumber (d : Date) : ofDayNumber? d.dayNumber = some d := by
  obtain ⟨low, high⟩ := d.dayNumber_bounds
  have rest : (d.dayNumber - daysBeforeYear d.year).toNat =
      daysBeforeMonth d.year d.month + d.day := by
    simp only [dayNumber]
    omega
  simp only [ofDayNumber?, yearOfDayNumber_eq low high, rest, monthAndDay_eq d.valid.2.1 d.valid.2.2]
  exact d.ofYearMonthDay?_toYearMonthDay

end Date

end CellDisplay.Calendar
