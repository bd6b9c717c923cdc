import CellDisplay.Proofs.Serial.Clock
import CellDisplay.Render

/-! A timestamp to the second survives its serial number. Its day and its time of day are added in
one double and taken apart again, with a rounding at each of five steps. The day has 27 bits, so
the sum keeps 26 bits of the time and the second comes back within a thousandth; the time of day
stays a hundred-thousandth of a day below the next midnight, so the floor is still the day. -/
namespace CellDisplay.Serial

open Binary64 Rounding
open Calendar (Date Time Timestamp)

/-! ### Days and seconds in one rational -/

/-- Whole seconds divided by those of a day, rounded. -/
def dayFraction (second : ℕ) : ℚ := rounded (second / 86400)

/-- The serial number of a day and a second of it. -/
def serialValue (day : ℤ) (second : ℕ) : ℚ := rounded (day + dayFraction second)

/-- The time of day that is read from a serial number of that day, in seconds. -/
def secondsAfter (day : ℤ) (serial : ℚ) : ℚ := rounded (rounded (serial - day) * 86400)

section Recovery

variable {day : ℤ} {second : ℕ}

theorem abs_quotient_le_one (h : second < 86400) : |(second : ℚ) / 86400| ≤ 2 ^ (0 : ℤ) := by
  have : (second : ℚ) < 86400 := by exact_mod_cast h
  rw [abs_of_nonneg (by positivity), zpow_zero]
  linarith

theorem dayFraction_nonneg (second : ℕ) : 0 ≤ dayFraction second :=
  rounded_nonneg (by positivity)

theorem dayFraction_le_one (h : second < 86400) : dayFraction second ≤ 1 := by
  have := abs_rounded_le (by norm_num) (abs_quotient_le_one h)
  rw [zpow_zero] at this
  exact (le_abs_self _).trans this

theorem abs_dayFraction_sub_le (h : second < 86400) :
    |dayFraction second - second / 86400| ≤ 2 ^ (0 - 54 : ℤ) :=
  abs_rounded_sub_le (by norm_num) (abs_quotient_le_one h)

variable (low : 0 ≤ day) (high : day < 134217727)
include low high

theorem day_le_serialValue : day ≤ serialValue day second := by
  have held : rounded day = day := rounded_intCast (by omega)
  rw [← held]
  apply rounded_mono
  linarith [dayFraction_nonneg second]

variable (h : second < 86400)
include h

theorem abs_day_add_le : |day + dayFraction second| ≤ 2 ^ (27 : ℤ) := by
  have nonneg := dayFraction_nonneg second
  have le_one := dayFraction_le_one h
  have day_nonneg : (0 : ℚ) ≤ day := by exact_mod_cast low
  have day_le : (day : ℚ) ≤ 134217727 := by exact_mod_cast high.le
  rw [abs_of_nonneg (by linarith)]
  norm_num
  linarith

/-- Two roundings, of which the second has the unit of the day. -/
theorem abs_serialValue_sub_le :
    |serialValue day second - (day + second / 86400)| ≤ 1 / 100000000 := by
  have sum := abs_rounded_sub_le (by norm_num) (abs_day_add_le low high h)
  have fraction := abs_dayFraction_sub_le h
  norm_num at sum fraction
  rw [← serialValue] at sum
  rw [abs_le] at *
  constructor <;> linarith

theorem floor_serialValue : (serialValue day second).floor = day := by
  apply floor_eq (day_le_serialValue low high)
  have near := abs_serialValue_sub_le low high h
  have last : (second : ℚ) ≤ 86399 := by exact_mod_cast (show second ≤ 86399 by omega)
  rw [abs_le] at near
  linarith

theorem abs_serialValue_sub_day_le : |serialValue day second - day| ≤ 2 ^ (0 : ℤ) := by
  have above : (day : ℚ) ≤ serialValue day second := day_le_serialValue low high
  have below := lt_floor_add_one (serialValue day second)
  rw [floor_serialValue low high h] at below
  rw [abs_of_nonneg (by linarith), zpow_zero]
  linarith

theorem abs_seconds_le : |rounded (serialValue day second - day) * 86400| ≤ 2 ^ (17 : ℤ) := by
  have := abs_rounded_le (by norm_num) (abs_serialValue_sub_day_le low high h)
  rw [abs_mul]
  norm_num at this ⊢
  linarith

/-- The seconds come back within a thousandth. -/
theorem abs_secondsAfter_sub_le :
    |secondsAfter day (serialValue day second) - second| ≤ 1 / 1000 := by
  have near := abs_serialValue_sub_le low high h
  have taken := abs_rounded_sub_le (by norm_num) (abs_serialValue_sub_day_le low high h)
  have scaled := abs_rounded_sub_le (by norm_num) (abs_seconds_le low high h)
  rw [← secondsAfter] at scaled
  norm_num at taken scaled
  rw [abs_le] at *
  constructor <;> linarith

theorem nearestAway_secondsAfter :
    nearestAway (secondsAfter day (serialValue day second)) = second :=
  nearestAway_eq ((abs_secondsAfter_sub_le low high h).trans_lt (by norm_num))

end Recovery

/-! ### The way into a double and back -/

/-- The serial number of a timestamp without a part of a second. -/
theorem ofTimestamp?_hasValue {system : DateSystem} {t : Timestamp} {day : ℤ}
    (whole : t.time.nanosecond = 0) (h : system.day? t.date = some day) :
    ∃ serial, ofTimestamp? system t = some serial ∧
      serial.HasValue (serialValue day t.time.secondOfDay) := by
  have lt := t.time.secondOfDay_lt
  have clock : clockSeconds t.time = t.time.secondOfDay := by
    have held := rounded_intCast (n := t.time.secondOfDay) (by omega)
    rw [clockSeconds, whole, Nat.cast_zero, zero_div, rounded_zero, add_zero]
    exact_mod_cast held
  have same : timestampValue day t.time = serialValue day t.time.secondOfDay := by
    rw [timestampValue, clock, serialValue, dayFraction]
  exact same ▸ ofTimestamp?_hasTimestampValue h

theorem read_second {serial : Binary64} {day : ℤ} {second : ℕ} (low : 0 ≤ day)
    (high : day < 134217727) (lt : second < 86400)
    (h : serial.HasValue (serialValue day second)) :
    (serial.fract * secondsPerDay).round.toInt = second := by
  have floor := floor_serialValue low high lt
  have away := nearestAway_secondsAfter low high lt
  have taken : serial.fract.HasValue (rounded (serialValue day second - day)) := by
    have := h.fract (by rw [floor]; omega)
    rwa [floor] at this
  have product : (serial.fract * secondsPerDay).HasValue
      (secondsAfter day (serialValue day second)) :=
    taken.mul hasValue_secondsPerDay (small_of_le (abs_seconds_le low high lt) (by norm_num))
  have whole := product.round (by rw [away]; omega)
  rw [away] at whole
  rw [whole.toInt, Rat.floor_intCast]

/-- A serial number gives back its day and its second. -/
theorem toTimestamp?_hasValue {system : DateSystem} {serial : Binary64} {day : ℤ} {second : ℕ}
    (low : 0 ≤ day) (high : day < 134217727) (lt : second < 86400)
    (h : serial.HasValue (serialValue day second)) :
    toTimestamp? system serial =
      (system.date? day).map fun date => ⟨date, .ofSecondOfDay second lt⟩ := by
  have floor := floor_serialValue low high lt
  have read : (serial.fract * secondsPerDay).round.toInt.toNat = second := by
    rw [read_second low high lt h, Int.toNat_natCast]
  have nonneg : ¬ serialValue day second < 0 :=
    not_lt.2 ((Int.cast_nonneg low).trans (day_le_serialValue low high))
  obtain ⟨f, rfl, value⟩ := h
  simp only [toTimestamp?, value, if_neg nonneg, read, dif_pos lt, floor]

/-- A timestamp to the second comes back from its serial number, and so does all that is rendered
for it. -/
theorem toTimestamp?_ofTimestamp? (system : DateSystem) (t : Timestamp)
    (whole : t.time.nanosecond = 0) (since : system.epoch.dayNumber ≤ t.date.dayNumber) :
    ∃ serial, ofTimestamp? system t = some serial ∧ toTimestamp? system serial = some t ∧
      ∀ (options : Options) (code : String), options.dateSystem = system →
        report options .date code (.number serial) = report options .date code (.timestamp t) := by
  have day := DateSystem.day?_eq_some since
  obtain ⟨low, high⟩ := DateSystem.day?_bounds day
  obtain ⟨serial, into, value⟩ := ofTimestamp?_hasValue whole day
  have back : toTimestamp? system serial = some t := by
    rw [toTimestamp?_hasValue low high t.time.secondOfDay_lt value, DateSystem.date?_day? day,
      Option.map_some, t.time.ofSecondOfDay_secondOfDay whole]
  refine ⟨serial, into, back, ?_⟩
  rintro options code rfl
  simp only [report, back]

/-- The last second of the day behind the gap of the 1900 system. -/
theorem toTimestamp?_ofTimestamp?_behind_gap :
    let t : Timestamp :=
      ⟨{ year := 1900, month := 3, day := 1, valid := by decide }, ⟨23, 59, 59, 0, by decide⟩⟩
    t.time.nanosecond = 0 ∧ DateSystem.from1900.epoch.dayNumber ≤ t.date.dayNumber ∧
      ∃ serial, ofTimestamp? .from1900 t = some serial ∧
        toTimestamp? .from1900 serial = some t ∧
        ∀ (options : Options) (code : String), options.dateSystem = .from1900 →
          report options .date code (.number serial) = report options .date code (.timestamp t) :=
  ⟨rfl, by decide, toTimestamp?_ofTimestamp? .from1900 _ rfl (by decide)⟩

end CellDisplay.Serial
