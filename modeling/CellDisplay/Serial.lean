import CellDisplay.Binary64.Arithmetic
import CellDisplay.Calendar.Timestamp

/-! Serial numbers: a timestamp as the days since the first day of a date system, with the time of
day behind the point. The 1900 system counts a 29 February 1900 as day 60, which no calendar has;
the days after it are one higher than the days that really passed. Days have no range here. One that
64 bits do not hold is long past the calendar and has no date, and neither has the last one that
they do hold, so it makes no difference if a day is cut to that. -/
namespace CellDisplay

open Calendar (Date Time Timestamp YearMonthDay)

inductive DateSystem where
  | from1900
  | from1904
  deriving DecidableEq, Repr

namespace DateSystem

/-- Day 0 of a system. -/
def epoch : DateSystem → Date
  | from1900 => { year := 1899, month := 12, day := 31, valid := by decide }
  | from1904 => { year := 1904, month := 1, day := 1, valid := by decide }

/-- The day that the 1900 system counts and no calendar has. -/
def phantomDay : Int := 60

def phantomDate : YearMonthDay := ⟨1900, 2, 29⟩

/-- The serial day of a count of days since the epoch. -/
def serialDay (system : DateSystem) (elapsed : Int) : Int :=
  if system = from1900 ∧ phantomDay ≤ elapsed then elapsed + 1 else elapsed

/-- The date of a serial day; none for the phantom day, before the epoch and past the calendar. -/
def date? (system : DateSystem) (day : Int) : Option Date :=
  if day < 0 ∨ (system = from1900 ∧ day = phantomDay) then none
  else
    let elapsed := if system = from1900 ∧ phantomDay < day then day - 1 else day
    Date.ofDayNumber? (system.epoch.dayNumber + elapsed)

/-- The serial day of a date; none before the epoch. -/
def day? (system : DateSystem) (date : Date) : Option Int :=
  let elapsed := date.dayNumber - system.epoch.dayNumber
  if elapsed < 0 then none else some (system.serialDay elapsed)

end DateSystem

namespace Serial

/-- The seconds of a day, as a double. -/
def secondsPerDay : Binary64 := .ofInt 86400

/-- The date of a serial number, the phantom one included. -/
def toDate? (system : DateSystem) (serial : Binary64) : Option YearMonthDay :=
  match serial with
  | .finite x =>
    let day := x.value.floor
    if system = .from1900 ∧ day = DateSystem.phantomDay then some DateSystem.phantomDate
    else (system.date? day).map (·.toYearMonthDay)
  | _ => none

/-- The timestamp of a serial number, to the nearest second. A time that rounds up to midnight
belongs to the next day. -/
def toTimestamp? (system : DateSystem) (serial : Binary64) : Option Timestamp :=
  match serial with
  | .finite x =>
    if x.value < 0 then none
    else
      let day := x.value.floor
      let second := (serial.fract * secondsPerDay).round.toInt.toNat
      if h : second < 86400 then
        (system.date? day).map fun date => ⟨date, .ofSecondOfDay second h⟩
      else (system.date? (day + 1)).map Date.atMidnight
  | _ => none

/-- The serial number of a timestamp; none before the epoch. -/
def ofTimestamp? (system : DateSystem) (t : Timestamp) : Option Binary64 :=
  (system.day? t.date).map fun day =>
    let seconds : Binary64 :=
      .ofInt t.time.secondOfDay + .ofInt t.time.nanosecond / .ofInt 1000000000
    .ofInt day + seconds / secondsPerDay

/-- The serial number of a day; none for a day that neither the calendar nor the system has. -/
def ofDate? (system : DateSystem) (d : YearMonthDay) : Option Binary64 :=
  if system = .from1900 ∧ d = DateSystem.phantomDate then some (.ofInt DateSystem.phantomDay)
  else (Date.ofYearMonthDay? d).bind fun date => ofTimestamp? system date.atMidnight

/-- The whole seconds since the epoch as the serial number counts them; before the epoch those
since midnight. -/
def elapsedSeconds (system : DateSystem) (t : Timestamp) : Nat :=
  match ofTimestamp? system t with
  | some serial => (serial * secondsPerDay).round.toInt.toNat
  | none => t.time.secondOfDay

end Serial

end CellDisplay
