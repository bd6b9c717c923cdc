import CellDisplay.Proofs.Serial.Elapsed
import CellDisplay.Proofs.Serial.Instant

/-! Serial numbers and the order of timestamps. A greater serial number is never read as an earlier
timestamp, and a later timestamp never has a smaller serial number. It has a greater one as soon as
it is later by more than the doubles of its day are apart; two timestamps that are closer can share
a serial number, also across the end of a second (`keepsOrder`). -/
namespace CellDisplay

open Binary64 Rounding
open Calendar (Date Time Timestamp)

/-! ### The order of timestamps -/

namespace Calendar

/-- By whole second, then by the part of a second. -/
def Time.Before (a b : Time) : Prop :=
  a.secondOfDay < b.secondOfDay ∨ a.secondOfDay = b.secondOfDay ∧ a.nanosecond < b.nanosecond

instance (a b : Time) : Decidable (a.Before b) := inferInstanceAs (Decidable (_ ∨ _))

/-- By date, then by time of day. -/
def Timestamp.Before (a b : Timestamp) : Prop :=
  a.date.Before b.date.toYearMonthDay ∨ a.date = b.date ∧ a.time.Before b.time

instance (a b : Timestamp) : Decidable (a.Before b) := inferInstanceAs (Decidable (_ ∨ _))

end Calendar

/-- The order of timestamps by their serial days. -/
theorem DateSystem.timestamp_before_iff {system : DateSystem} {s t : Timestamp} {m n : ℤ}
    (hs : system.day? s.date = some m) (ht : system.day? t.date = some n) :
    s.Before t ↔ m < n ∨ m = n ∧ s.time.Before t.time := by
  have sameDate : s.date = t.date ↔ m = n := by
    constructor
    · intro same
      rw [same, ht, Option.some_inj] at hs
      exact hs.symm
    · rintro rfl
      exact Option.some.inj ((date?_day? hs).symm.trans (date?_day? ht))
  rw [Timestamp.Before, before_iff_lt hs ht, sameDate]

namespace Serial

variable {system : DateSystem}

/-! ### From serial numbers to timestamps -/

section

variable {x y : Finite} (le : x.value ≤ y.value)

/-- A second that is carried into the next day is counted all the same. -/
theorem roundedDay_clockTime (x : Finite) :
    86400 * roundedDay x + ((clockTime x).secondOfDay : ℤ) =
      86400 * x.value.floor + nearestSecond x := by
  have bounds := nearestSecond_bounds x
  rw [clockTime, Time.secondOfDay_ofSecondOfDay, roundedDay]
  split <;> omega

include le

theorem nearestSecond_mono (sameDay : x.value.floor = y.value.floor) :
    nearestSecond x ≤ nearestSecond y := by
  have low := floor_le x.value
  apply nearestAway_mono (rounded_nonneg (mul_nonneg (by linarith) (by norm_num)))
  apply rounded_mono
  rw [sameDay]
  gcongr

/-- The rounded second counted from day 0. What is carried does not pass the next day. -/
theorem countedSecond_mono :
    86400 * x.value.floor + nearestSecond x ≤ 86400 * y.value.floor + nearestSecond y := by
  have floors : x.value.floor ≤ y.value.floor := Rat.floor_monotone le
  have first := nearestSecond_bounds x
  have second := nearestSecond_bounds y
  rcases floors.eq_or_lt with sameDay | later
  · have := nearestSecond_mono le sameDay
    omega
  · omega

theorem not_before_of_le {s t : Timestamp} (hs : toTimestamp? system (.finite x) = some s)
    (ht : toTimestamp? system (.finite y) = some t) : ¬ t.Before s := by
  have nonneg : 0 ≤ x.value := by
    by_contra negative
    rw [toTimestamp?, if_pos (not_le.1 negative)] at hs
    contradiction
  rw [toTimestamp?_eq_map nonneg] at hs
  rw [toTimestamp?_eq_map (nonneg.trans le)] at ht
  obtain ⟨d, hd, rfl⟩ := Option.map_eq_some_iff.1 hs
  obtain ⟨e, he, rfl⟩ := Option.map_eq_some_iff.1 ht
  rw [DateSystem.timestamp_before_iff (DateSystem.date?_eq_some_iff.1 he)
    (DateSystem.date?_eq_some_iff.1 hd), Time.Before]
  have counted := countedSecond_mono le
  rw [← roundedDay_clockTime, ← roundedDay_clockTime] at counted
  have first := (clockTime x).secondOfDay_lt
  have second := (clockTime y).secondOfDay_lt
  have whole : (clockTime x).nanosecond = 0 ∧ (clockTime y).nanosecond = 0 := ⟨rfl, rfl⟩
  dsimp only
  omega

end

/-! ### From timestamps to serial numbers -/

section

variable {a b : Time} (noLeap : a.nanosecond < 1000000000)
include noLeap

theorem part_le_one : rounded ((a.nanosecond : ℚ) / 1000000000) ≤ 1 := by
  have part : (a.nanosecond : ℚ) < 1000000000 := by exact_mod_cast noLeap
  calc rounded (a.nanosecond / 1000000000) ≤ rounded 1 := rounded_mono (by linarith)
    _ = 1 := rounded_of_holds holds_one

/-- The clock in doubles does not pass the next second. -/
theorem clockSeconds_le_next : clockSeconds a ≤ (a.secondOfDay + 1 : ℕ) := by
  have lt := a.secondOfDay_lt
  have sum : a.secondOfDay + rounded ((a.nanosecond : ℚ) / 1000000000) ≤
      (a.secondOfDay + 1 : ℕ) := by
    push_cast
    linarith [part_le_one noLeap]
  calc clockSeconds a ≤ rounded (a.secondOfDay + 1 : ℕ) := rounded_mono sum
    _ = (a.secondOfDay + 1 : ℕ) := rounded_of_holds (holds_natCast (by omega))

theorem clockSeconds_mono (upTo : ¬ b.Before a) : clockSeconds a ≤ clockSeconds b := by
  have lt := b.secondOfDay_lt
  simp only [Time.Before, not_or, not_and, not_lt] at upTo
  rcases upTo.1.lt_or_eq with earlier | same
  · calc clockSeconds a ≤ (a.secondOfDay + 1 : ℕ) := clockSeconds_le_next noLeap
      _ ≤ b.secondOfDay := by exact_mod_cast earlier
      _ = rounded b.secondOfDay := (rounded_of_holds (holds_natCast (by omega))).symm
      _ ≤ clockSeconds b := rounded_mono (by linarith [part_nonneg b])
  · have part := upTo.2 same.symm
    rw [clockSeconds, clockSeconds, same]
    apply rounded_mono
    gcongr
    apply rounded_mono
    gcongr

theorem fraction_le_one : rounded (clockSeconds a / 86400) ≤ 1 := by
  have lt := a.secondOfDay_lt
  have next : clockSeconds a ≤ 86400 :=
    (clockSeconds_le_next noLeap).trans (by exact_mod_cast lt)
  calc rounded (clockSeconds a / 86400) ≤ rounded 1 := rounded_mono (by linarith)
    _ = 1 := rounded_of_holds holds_one

/-- A day has its time of day behind it, and no time of day passes the next day. -/
theorem timestampValue_mono {m n : ℤ} (upTo : m < n ∨ m = n ∧ ¬ b.Before a) :
    timestampValue m a ≤ timestampValue n b := by
  apply rounded_mono
  rcases upTo with earlier | ⟨rfl, upTo⟩
  · have next : (m : ℚ) + 1 ≤ n := by exact_mod_cast earlier
    linarith [fraction_le_one noLeap, fraction_nonneg b]
  · gcongr
    apply rounded_mono
    have := clockSeconds_mono noLeap upTo
    gcongr

/-! ### How far apart is far enough -/

theorem abs_clockSeconds_sub_exactSeconds_le :
    |clockSeconds a - exactSeconds a| ≤ 1 / 100000000000 := by
  have part : (a.nanosecond : ℚ) < 1000000000 := by exact_mod_cast noLeap
  have small : |(a.nanosecond : ℚ) / 1000000000| ≤ 2 ^ (0 : ℤ) := by
    rw [abs_of_nonneg (by positivity), zpow_zero]
    linarith
  have first := abs_rounded_sub_le (by norm_num) small
  have second : |clockSeconds a - (a.secondOfDay + rounded (a.nanosecond / 1000000000))| ≤ _ :=
    abs_rounded_sub_le (by norm_num) (abs_clock_sum_le a)
  norm_num at first second
  unfold exactSeconds
  rw [abs_le] at first second ⊢
  constructor <;> linarith

/-- In seconds a serial number is off by half the distance of the doubles of its day, and by what
the time of day was rounded before. -/
theorem abs_timestampValue_sub_le {day : ℤ} (low : 0 ≤ day) {k : ℕ} (high : day < 2 ^ k) :
    |86400 * timestampValue day a - (86400 * day + exactSeconds a)| ≤
      86400 * 2 ^ (k - 54 : ℤ) + 1 / 40000000000 := by
  have le_one := fraction_le_one noLeap
  have nonneg := fraction_nonneg a
  have day_nonneg : (0 : ℚ) ≤ day := by exact_mod_cast low
  have next : (day : ℚ) + 1 ≤ 2 ^ (k : ℤ) := by
    rw [zpow_natCast]
    exact_mod_cast Int.add_one_le_iff.2 high
  have sum : |day + rounded (clockSeconds a / 86400)| ≤ 2 ^ (k : ℤ) := by
    rw [abs_of_nonneg (by linarith)]
    linarith
  have clock := abs_clockSeconds_sub_exactSeconds_le noLeap
  have quotient : |clockSeconds a / 86400| ≤ 2 ^ (1 : ℤ) := abs_fraction_le a
  have fraction := abs_rounded_sub_le (by norm_num) quotient
  have serial : |timestampValue day a - (day + rounded (clockSeconds a / 86400))| ≤
      2 ^ (k - 54 : ℤ) := abs_rounded_sub_le (by omega) sum
  norm_num at fraction
  rw [abs_le] at clock fraction serial ⊢
  constructor <;> linarith

theorem timestampValue_lt (noLeap' : b.nanosecond < 1000000000) {m n : ℤ} (low : 0 ≤ m)
    (le : m ≤ n) {k : ℕ} (high : n < 2 ^ k)
    (apart : 86400 * 2 ^ (k - 53 : ℤ) + 1 / 10000000000 ≤
      (86400 * n + exactSeconds b) - (86400 * m + exactSeconds a)) :
    timestampValue m a < timestampValue n b := by
  have first := abs_timestampValue_sub_le noLeap low (le.trans_lt high)
  have second := abs_timestampValue_sub_le noLeap' (low.trans le) high
  have halves : (2 : ℚ) ^ (k - 53 : ℤ) = 2 ^ (k - 54 : ℤ) + 2 ^ (k - 54 : ℤ) := by
    rw [← mul_two, ← zpow_add_one₀ (by norm_num)]
    congr 1
    omega
  rw [abs_le] at first second
  linarith

end

/-! ### Both directions -/

/-- The exact seconds since the epoch, as serial numbers count days. -/
def exactSince (system : DateSystem) (t : Timestamp) : ℚ :=
  86400 * system.daysSince t.date + exactSeconds t.time

/-- How the order of serial numbers belongs to that of the timestamps they stand for. On the days
before 2 ^ k the doubles are no further apart than 2 ^ (k - 53) days. -/
structure KeepsOrder (system : DateSystem) : Prop where
  read : ∀ (x y : Finite) (s t : Timestamp), x.value ≤ y.value →
    toTimestamp? system (.finite x) = some s → toTimestamp? system (.finite y) = some t →
      ¬ t.Before s
  counted : ∀ s t : Timestamp, s.time.nanosecond < 1000000000 → t.time.nanosecond < 1000000000 →
    system.epoch.dayNumber ≤ s.date.dayNumber → ¬ t.Before s →
      ∃ x y : Finite, ofTimestamp? system s = some (.finite x) ∧
        ofTimestamp? system t = some (.finite y) ∧ x.value ≤ y.value ∧
        (13 / 10000 ≤ exactSince system t - exactSince system s → x.value < y.value) ∧
        ∀ k : ℕ, system.daysSince t.date < 2 ^ k →
          86400 * 2 ^ (k - 53 : ℤ) + 1 / 10000000000 ≤ exactSince system t - exactSince system s →
            x.value < y.value

theorem keepsOrder (system : DateSystem) : KeepsOrder system where
  read x y s t le hs ht := not_before_of_le le hs ht
  counted s t noLeap noLeap' since upTo := by
    have since' : system.epoch.dayNumber ≤ t.date.dayNumber := by
      refine since.trans (not_lt.1 fun earlier => upTo (.inl ?_))
      exact Date.before_iff.2 earlier
    have first := DateSystem.day?_eq_daysSince since
    have second := DateSystem.day?_eq_daysSince since'
    rw [DateSystem.timestamp_before_iff second first] at upTo
    have order : system.daysSince s.date < system.daysSince t.date ∨
        system.daysSince s.date = system.daysSince t.date ∧ ¬ t.time.Before s.time := by
      rw [not_or, not_and, not_lt] at upTo
      exact upTo.1.lt_or_eq.imp_right fun same => ⟨same, upTo.2 same.symm⟩
    obtain ⟨_, into, x, rfl, hx⟩ := ofTimestamp?_hasTimestampValue first
    obtain ⟨_, into', y, rfl, hy⟩ := ofTimestamp?_hasTimestampValue second
    have strict (k : ℕ) (high : system.daysSince t.date < 2 ^ k)
        (apart : 86400 * 2 ^ (k - 53 : ℤ) + 1 / 10000000000 ≤
          exactSince system t - exactSince system s) : x.value < y.value := by
      rw [hx, hy]
      exact timestampValue_lt noLeap noLeap' (daysSince_bounds since).1 (by omega) high apart
    refine ⟨x, y, into, into', ?_, fun apart => strict 27 ?_ ?_, strict⟩
    · rw [hx, hy]
      exact timestampValue_mono noLeap order
    · exact (daysSince_bounds since').2.trans (by norm_num)
    · norm_num
      linarith

/-- In 2024 the doubles are more than half a microsecond apart, so the last nanosecond of a second
has the serial number of the next second. -/
theorem ofTimestamp?_not_strict :
    let day : Date := { year := 2024, month := 1, day := 1, valid := by decide }
    let s : Timestamp := ⟨day, ⟨0, 0, 0, 999999999, by decide⟩⟩
    let t : Timestamp := ⟨day, ⟨0, 0, 1, 0, by decide⟩⟩
    let x : Finite := ⟨false, 6224885082244553, -37, by decide⟩
    s.Before t ∧ s.time.secondOfDay ≠ t.time.secondOfDay ∧
      DateSystem.from1900.epoch.dayNumber ≤ day.dayNumber ∧
      ofTimestamp? .from1900 s = some (.finite x) ∧
      ofTimestamp? .from1900 t = some (.finite x) := by
  decide +kernel

end Serial

end CellDisplay
