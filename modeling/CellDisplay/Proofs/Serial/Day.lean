import CellDisplay.Proofs.Calendar.DayNumber
import CellDisplay.Serial

/-! Dates and their serial days. The 1900 system leaves a gap at day 60 when it counts a date and
closes the same gap when it looks a day up, so a counted date is found again (`date?_day?`). -/
namespace CellDisplay.DateSystem

open Calendar (Date)

theorem epoch_dayNumber (system : DateSystem) :
    system.epoch.dayNumber = if system = from1900 then 693595 else 695056 := by
  cases system <;> decide

/-- The days of a date since the epoch, with the days of a system that no calendar has. -/
theorem day?_eq_some {system : DateSystem} {d : Date}
    (since : system.epoch.dayNumber ≤ d.dayNumber) :
    system.day? d = some (system.serialDay (d.dayNumber - system.epoch.dayNumber)) := by
  simp only [day?]
  rw [if_neg (by omega)]

theorem date?_serialDay {system : DateSystem} {elapsed : Int} (h : 0 ≤ elapsed) :
    system.date? (system.serialDay elapsed) =
      Date.ofDayNumber? (system.epoch.dayNumber + elapsed) := by
  cases system with
  | from1904 =>
    simp only [date?, serialDay, reduceCtorEq, false_and, or_false, if_false]
    rw [if_neg (by omega)]
  | from1900 =>
    simp only [date?, serialDay, phantomDay, true_and]
    by_cases late : 60 ≤ elapsed
    · rw [if_pos late, if_neg (by omega), if_pos (by omega), Int.add_sub_cancel]
    · rw [if_neg late, if_neg (by omega), if_neg (by omega)]

/-- A date is found again under its serial day. -/
theorem date?_day? {system : DateSystem} {d : Date} {day : Int} (h : system.day? d = some day) :
    system.date? day = some d := by
  by_cases since : system.epoch.dayNumber ≤ d.dayNumber
  · rw [day?_eq_some since, Option.some_inj] at h
    rw [← h, date?_serialDay (by omega), Int.add_comm, Int.sub_add_cancel]
    exact d.ofDayNumber?_dayNumber
  · simp only [day?] at h
    rw [if_pos (by omega)] at h
    contradiction

/-- Serial days of the calendar have 27 bits. -/
theorem day?_bounds {system : DateSystem} {d : Date} {day : Int} (h : system.day? d = some day) :
    0 ≤ day ∧ day < 134217727 := by
  have high := d.dayNumber_bounds.2
  have year := d.valid.1.2
  have epoch := system.epoch_dayNumber
  simp only [Calendar.daysBeforeYear] at high
  simp only [day?] at h
  split at h
  · contradiction
  · rw [Option.some_inj] at h
    simp only [serialDay] at h
    split at epoch <;> split at h <;> omega

end CellDisplay.DateSystem
