import CellDisplay.Proofs.Binary64.Operations
import CellDisplay.Proofs.Serial.Day

/-! The serial number of any timestamp, parts of a second included, as a rational. Five roundings
lie between the exact count of days and the seconds that the double stands for; the last two have
the units of the day and of all seconds since the epoch, so the seconds are right within two
thousandths (`abs_elapsedValue_sub_le`). -/
namespace CellDisplay.Serial

open Binary64 Rounding
open Calendar (Time Timestamp)

theorem hasValue_secondsPerDay : secondsPerDay.HasValue 86400 :=
  hasValue_ofInt (n := 86400) (by norm_num)

/-- The exact seconds since midnight. -/
def exactSeconds (t : Time) : ℚ := t.secondOfDay + t.nanosecond / 1000000000

/-- The seconds since midnight in doubles. -/
def clockSeconds (t : Time) : ℚ := rounded (t.secondOfDay + rounded (t.nanosecond / 1000000000))

/-- The value of the serial number of a time on a day. -/
def timestampValue (day : ℤ) (t : Time) : ℚ := rounded (day + rounded (clockSeconds t / 86400))

/-- The seconds since the epoch in doubles. -/
def elapsedValue (day : ℤ) (t : Time) : ℚ := rounded (timestampValue day t * 86400)

section Bounds

variable (t : Time)

theorem secondOfDay_le : (t.secondOfDay : ℚ) ≤ 86399 := by
  exact_mod_cast Nat.le_of_lt_succ t.secondOfDay_lt

theorem nanosecond_le : (t.nanosecond : ℚ) ≤ 2000000000 := by
  exact_mod_cast t.valid.2.2.2.1.le

theorem exactSeconds_bounds : 0 ≤ exactSeconds t ∧ exactSeconds t ≤ 86401 := by
  have second := secondOfDay_le t
  have nanosecond := nanosecond_le t
  unfold exactSeconds
  constructor
  · positivity
  · linarith

theorem abs_part_le : |(t.nanosecond : ℚ) / 1000000000| ≤ 2 ^ (1 : ℤ) := by
  have nanosecond := nanosecond_le t
  rw [abs_of_nonneg (by positivity)]
  norm_num
  linarith

theorem part_nonneg : 0 ≤ rounded ((t.nanosecond : ℚ) / 1000000000) :=
  rounded_nonneg (by positivity)

theorem abs_clock_sum_le :
    |(t.secondOfDay : ℚ) + rounded (t.nanosecond / 1000000000)| ≤ 2 ^ (17 : ℤ) := by
  have part := abs_rounded_le (by norm_num) (abs_part_le t)
  have second := secondOfDay_le t
  have nonneg := part_nonneg t
  rw [abs_of_nonneg (by positivity)]
  rw [abs_of_nonneg nonneg] at part
  norm_num at part ⊢
  linarith

theorem clockSeconds_nonneg : 0 ≤ clockSeconds t := by
  have nonneg := part_nonneg t
  exact rounded_nonneg (by positivity)

theorem abs_clockSeconds_sub_le : |clockSeconds t - exactSeconds t| ≤ 1 / 1000000000 := by
  have part := abs_rounded_sub_le (by norm_num) (abs_part_le t)
  have sum := abs_rounded_sub_le (by norm_num) (abs_clock_sum_le t)
  rw [← clockSeconds] at sum
  norm_num at part sum
  unfold exactSeconds
  rw [abs_le] at *
  constructor <;> linarith

theorem abs_fraction_le : |clockSeconds t / 86400| ≤ 2 ^ (1 : ℤ) := by
  have near := abs_clockSeconds_sub_le t
  have exact := (exactSeconds_bounds t).2
  have nonneg := clockSeconds_nonneg t
  rw [abs_of_nonneg (by positivity)]
  rw [abs_le] at near
  norm_num
  linarith

theorem fraction_nonneg : 0 ≤ rounded (clockSeconds t / 86400) :=
  rounded_nonneg (div_nonneg (clockSeconds_nonneg t) (by norm_num))

variable {day : ℤ} (low : 0 ≤ day)
include low

theorem elapsedValue_nonneg : 0 ≤ elapsedValue day t := by
  have fraction := fraction_nonneg t
  have day_nonneg : (0 : ℚ) ≤ day := by exact_mod_cast low
  have serial : 0 ≤ timestampValue day t := rounded_nonneg (by positivity)
  exact rounded_nonneg (by positivity)

variable (high : day < 134217727)
include high

theorem abs_day_sum_le : |day + rounded (clockSeconds t / 86400)| ≤ 2 ^ (27 : ℤ) := by
  have fraction := abs_rounded_le (by norm_num) (abs_fraction_le t)
  have nonneg := fraction_nonneg t
  have day_nonneg : (0 : ℚ) ≤ day := by exact_mod_cast low
  have day_le : (day : ℚ) ≤ 134217726 := by exact_mod_cast Int.le_of_lt_add_one high
  rw [abs_of_nonneg (by positivity)]
  rw [abs_of_nonneg nonneg] at fraction
  norm_num at fraction ⊢
  linarith

theorem abs_product_le : |timestampValue day t * 86400| ≤ 2 ^ (44 : ℤ) := by
  have serial := abs_rounded_le (by norm_num) (abs_day_sum_le t low high)
  rw [← timestampValue] at serial
  rw [abs_mul]
  norm_num at serial ⊢
  linarith

theorem abs_elapsedValue_sub_le :
    |elapsedValue day t - (86400 * day + exactSeconds t)| ≤ 1 / 500 := by
  have clock := abs_clockSeconds_sub_le t
  have fraction := abs_rounded_sub_le (by norm_num) (abs_fraction_le t)
  have serial := abs_rounded_sub_le (by norm_num) (abs_day_sum_le t low high)
  have product := abs_rounded_sub_le (by norm_num) (abs_product_le t low high)
  rw [← timestampValue] at serial
  rw [← elapsedValue] at product
  norm_num at fraction serial product
  rw [abs_le] at *
  constructor <;> linarith

end Bounds

/-! ### The double -/

theorem ofTimestamp?_hasTimestampValue {system : DateSystem} {t : Timestamp} {day : ℤ}
    (h : system.day? t.date = some day) :
    ∃ serial, ofTimestamp? system t = some serial ∧
      serial.HasValue (timestampValue day t.time) := by
  obtain ⟨low, high⟩ := DateSystem.day?_bounds h
  have lt := t.time.secondOfDay_lt
  have lt' := t.time.valid.2.2.2.1
  have whole : (ofInt t.time.secondOfDay).HasValue t.time.secondOfDay :=
    hasValue_ofInt (n := t.time.secondOfDay) (by omega)
  have nanos : (ofInt t.time.nanosecond).HasValue t.time.nanosecond :=
    hasValue_ofInt (n := t.time.nanosecond) (by omega)
  have billion : (ofInt 1000000000).HasValue 1000000000 :=
    hasValue_ofInt (n := 1000000000) (by norm_num)
  have part := nanos.div billion (by norm_num) (small_of_le (abs_part_le t.time) (by norm_num))
  have clock := whole.add part (small_of_le (abs_clock_sum_le t.time) (by norm_num))
  have fraction := clock.div hasValue_secondsPerDay (by norm_num)
    (small_of_le (abs_fraction_le t.time) (by norm_num))
  refine ⟨_, by rw [ofTimestamp?, h, Option.map_some], ?_⟩
  exact (hasValue_ofInt (by omega)).add fraction
    (small_of_le (abs_day_sum_le t.time low high) (by norm_num))

end CellDisplay.Serial
