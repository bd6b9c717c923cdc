/-! The Gregorian calendar carried back over all years, with a year 0 before year 1. A date stands
for the day number `dayNumber`, counted from 1 on the first day of year 1; `ofDayNumber?` finds the
date of a number by an estimate of the year that is off by one at most. -/
namespace CellDisplay.Calendar

def isLeapYear (year : Int) : Bool := year % 4 = 0 && (year % 100 ≠ 0 || year % 400 = 0)

def daysInMonth (year : Int) (month : Nat) : Nat :=
  if month = 2 then (if isLeapYear year then 29 else 28)
  else if month = 4 ∨ month = 6 ∨ month = 9 ∨ month = 11 then 30
  else 31

/-- The days from the first day of year 1 to the first day of a year. -/
def daysBeforeYear (year : Int) : Int :=
  365 * (year - 1) + (year - 1) / 4 - (year - 1) / 100 + (year - 1) / 400

/-- The days of a year before the first day of a month. -/
def daysBeforeMonth (year : Int) : Nat → Nat
  | 0 | 1 => 0
  | month + 2 => daysBeforeMonth year (month + 1) + daysInMonth year (month + 1)

/-- A year, a month and a day of the month, whether there is such a day or not. -/
structure YearMonthDay where
  year : Int
  month : Nat
  day : Nat
  deriving DecidableEq, Repr

/-- The days of the calendar, which ends after the year 262142 and begins as far back. -/
def YearMonthDay.Exists (d : YearMonthDay) : Prop :=
  (-262143 ≤ d.year ∧ d.year ≤ 262142) ∧ (1 ≤ d.month ∧ d.month ≤ 12) ∧
    1 ≤ d.day ∧ d.day ≤ daysInMonth d.year d.month

instance (d : YearMonthDay) : Decidable d.Exists := inferInstanceAs (Decidable (_ ∧ _))

structure Date extends YearMonthDay where
  valid : toYearMonthDay.Exists
  deriving DecidableEq

namespace Date

def ofYearMonthDay? (d : YearMonthDay) : Option Date :=
  if valid : d.Exists then some { d with valid } else none

def dayNumber (d : Date) : Int :=
  daysBeforeYear d.year + daysBeforeMonth d.year d.month + d.day

def monthIndex (d : Date) : Fin 12 :=
  ⟨d.month - 1, by have := d.valid.2.1; omega⟩

/-- Days since Sunday. -/
def weekday (d : Date) : Fin 7 := ⟨(d.dayNumber % 7).toNat, by omega⟩

end Date

/-- The year that holds a day number: the number of mean years before it, corrected by the days
that are really before that year and the next. -/
def yearOfDayNumber (n : Int) : Int :=
  let estimate := 400 * n / 146097 + 1
  if n ≤ daysBeforeYear estimate then estimate - 1
  else if daysBeforeYear (estimate + 1) < n then estimate + 1
  else estimate

/-- Month and day of the month of a day of the year. -/
def monthAndDay (year : Int) (dayOfYear : Nat) : Nat × Nat :=
  match (List.range' 1 12).find? fun month => dayOfYear ≤ daysBeforeMonth year (month + 1) with
  | some month => (month, dayOfYear - daysBeforeMonth year month)
  | none => (12, dayOfYear)

def Date.ofDayNumber? (n : Int) : Option Date :=
  let year := yearOfDayNumber n
  let (month, day) := monthAndDay year (n - daysBeforeYear year).toNat
  ofYearMonthDay? ⟨year, month, day⟩

end CellDisplay.Calendar
