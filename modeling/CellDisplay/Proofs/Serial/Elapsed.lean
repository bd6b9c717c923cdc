import CellDisplay.Proofs.Calendar.DateOrder
import CellDisplay.Proofs.Serial.Clock

/-! The whole seconds since the epoch. They are counted by rounding what a serial number gives, parts
of a second included, so in the second half of a second the count runs one second ahead of the
clock. Which half it is, the doubles decide; they are right but for two thousandths around it. -/
namespace CellDisplay

open Binary64 Rounding
open Calendar (Date Time Timestamp)

/-- The days since the epoch, and one more from 1 March 1900 on in the 1900 system. -/
def DateSystem.daysSince (system : DateSystem) (d : Date) : ℤ :=
  d.dayNumber - system.epoch.dayNumber +
    if system = from1900 ∧ ¬ d.Before ⟨1900, 3, 1⟩ then 1 else 0

theorem DateSystem.day?_eq_daysSince {system : DateSystem} {d : Date}
    (since : system.epoch.dayNumber ≤ d.dayNumber) :
    system.day? d = some (system.daysSince d) := by
  let morrow : Date := { year := 1900, month := 3, day := 1, valid := by decide }
  have number : morrow.dayNumber = 693655 := by decide
  have before : d.Before ⟨1900, 3, 1⟩ ↔ d.dayNumber < 693655 := by
    rw [← number]
    exact Date.before_iff (b := morrow)
  have epoch := system.epoch_dayNumber
  rw [day?_eq_some since, serialDay, daysSince, Option.some_inj]
  simp only [before]
  cases system with
  | from1904 => simp
  | from1900 =>
    simp only [true_and, if_true, phantomDay] at epoch ⊢
    rw [epoch]
    split_ifs <;> omega

namespace Serial

/-- The seconds since the epoch by day and clock, without a part of a second. -/
def secondsSince (system : DateSystem) (t : Timestamp) : ℤ :=
  86400 * system.daysSince t.date + t.time.secondOfDay

/-- Whether the seconds of a serial number come to the half of the next second. -/
def RoundsUp (system : DateSystem) (t : Timestamp) : Prop :=
  ∃ serial product, ofTimestamp? system t = some serial ∧
    serial * secondsPerDay = .finite product ∧ secondsSince system t + 1 / 2 ≤ product.value

variable {system : DateSystem} {t : Timestamp}
variable (since : system.epoch.dayNumber ≤ t.date.dayNumber)
include since

theorem daysSince_bounds : 0 ≤ system.daysSince t.date ∧ system.daysSince t.date < 134217727 :=
  DateSystem.day?_bounds (DateSystem.day?_eq_daysSince since)

theorem secondsSince_nonneg : 0 ≤ secondsSince system t := by
  have := (daysSince_bounds since).1
  unfold secondsSince
  omega

theorem exists_product :
    ∃ serial product, ofTimestamp? system t = some serial ∧
      serial * secondsPerDay = .finite product ∧
        product.value = elapsedValue (system.daysSince t.date) t.time := by
  obtain ⟨low, high⟩ := daysSince_bounds since
  obtain ⟨serial, into, value⟩ :=
    ofTimestamp?_hasTimestampValue (DateSystem.day?_eq_daysSince since)
  obtain ⟨product, finite, value⟩ := value.mul hasValue_secondsPerDay
    (small_of_le (abs_product_le t.time low high) (by norm_num))
  exact ⟨serial, product, into, finite, value⟩

theorem roundsUp_iff :
    RoundsUp system t ↔
      secondsSince system t + 1 / 2 ≤ elapsedValue (system.daysSince t.date) t.time := by
  obtain ⟨serial, product, into, finite, value⟩ := exists_product since
  rw [← value]
  constructor
  · rintro ⟨serial', product', into', finite', reached⟩
    obtain rfl := Option.some.inj (into.symm.trans into')
    obtain rfl := Binary64.finite.inj (finite.symm.trans finite')
    exact reached
  · intro reached
    exact ⟨serial, product, into, finite, reached⟩

/-- The seconds in doubles are those of the clock and the part of a second, almost. -/
theorem abs_elapsedValue_sub_secondsSince_le :
    |elapsedValue (system.daysSince t.date) t.time -
      (secondsSince system t + t.time.nanosecond / 1000000000)| ≤ 1 / 500 := by
  obtain ⟨low, high⟩ := daysSince_bounds since
  have near := abs_elapsedValue_sub_le t.time low high
  have same : (86400 * system.daysSince t.date + exactSeconds t.time : ℚ) =
      secondsSince system t + t.time.nanosecond / 1000000000 := by
    unfold exactSeconds secondsSince
    push_cast
    ring
  rwa [same] at near

theorem not_roundsUp (early : t.time.nanosecond < 498000000) : ¬ RoundsUp system t := by
  have near := (abs_le.1 (abs_elapsedValue_sub_secondsSince_le since)).2
  have part : (t.time.nanosecond : ℚ) < 498000000 := by exact_mod_cast early
  rw [roundsUp_iff since]
  linarith

theorem roundsUp (late : 502000000 ≤ t.time.nanosecond) : RoundsUp system t := by
  have near := (abs_le.1 (abs_elapsedValue_sub_secondsSince_le since)).1
  have part : (502000000 : ℚ) ≤ t.time.nanosecond := by exact_mod_cast late
  rw [roundsUp_iff since]
  linarith

/-! ### The count -/

variable (noLeap : t.time.nanosecond < 1000000000)
include noLeap

theorem nearestAway_elapsedValue :
    nearestAway (elapsedValue (system.daysSince t.date) t.time) =
      if secondsSince system t + 1 / 2 ≤ elapsedValue (system.daysSince t.date) t.time then
        secondsSince system t + 1
      else secondsSince system t := by
  have near := abs_le.1 (abs_elapsedValue_sub_secondsSince_le since)
  have part : (t.time.nanosecond : ℚ) < 1000000000 := by exact_mod_cast noLeap
  have nonneg : (0 : ℚ) ≤ t.time.nanosecond := Nat.cast_nonneg _
  apply nearestAway_eq_ite (elapsedValue_nonneg t.time (daysSince_bounds since).1) <;> linarith

/-- The serial number counts the seconds of the clock, or one more. -/
theorem elapsedSeconds_eq_ite [Decidable (RoundsUp system t)] :
    (elapsedSeconds system t : ℤ) =
      if RoundsUp system t then secondsSince system t + 1 else secondsSince system t := by
  obtain ⟨low, high⟩ := daysSince_bounds since
  obtain ⟨serial, product, into, finite, value⟩ := exists_product since
  have nonneg := secondsSince_nonneg since
  have small : secondsSince system t ≤ 86400 * 134217727 := by
    have := t.time.secondOfDay_lt
    unfold secondsSince
    omega
  have count := nearestAway_elapsedValue since noLeap
  rw [← value] at count
  have whole : (Binary64.finite product).round.HasValue (nearestAway product.value) :=
    (hasValue_finite product).round (by rw [count]; split <;> omega)
  have read : elapsedSeconds system t = (nearestAway product.value).toNat := by
    unfold elapsedSeconds
    rw [into]
    simp only [finite]
    rw [whole.toInt, Rat.floor_intCast]
  rw [read, count, value]
  simp only [← roundsUp_iff since]
  split <;> omega

/-- A count of whole units is that of the clock unless the second that is added completes one. -/
theorem elapsedSeconds_div_eq_iff {total : ℕ} (h : (total : ℤ) = secondsSince system t)
    (unit : ℕ) :
    elapsedSeconds system t / unit = total / unit ↔
      ¬ (RoundsUp system t ∧ unit ∣ total + 1) := by
  classical
  have count := elapsedSeconds_eq_ite since noLeap
  rw [← h] at count
  split at count
  next up =>
    obtain seconds : elapsedSeconds system t = total + 1 := by exact_mod_cast count
    rw [seconds, Nat.succ_div]
    simp [up]
  next exact =>
    obtain seconds : elapsedSeconds system t = total := by exact_mod_cast count
    simp [seconds, exact]

end Serial

end CellDisplay
