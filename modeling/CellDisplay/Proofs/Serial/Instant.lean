import CellDisplay.Proofs.Binary64.RelativeError
import CellDisplay.Proofs.Serial.Clock
import CellDisplay.Proofs.Serial.Numbering

/-! A serial number read in two ways. Its date is that of its floor. Its point in time has the
second rounded, and a second that rounds up to midnight is the first of the next day. Short of that
both readings name one day, but for the phantom one, on which there is no point in time; at that
midnight the point in time is the whole serial number of the next day (`readsAlike`). -/
namespace CellDisplay.Serial

open Binary64 Rounding
open Calendar (Time)

variable {system : DateSystem} {x : Finite}

/-! ### The rounded second and its day -/

/-- The seconds since midnight to the nearest one. Their product is taken in doubles. -/
def nearestSecond (x : Finite) : ℤ := nearestAway (rounded ((x.value - x.value.floor) * 86400))

/-- The day of a serial number, or the next one if its second rounds up to midnight. -/
def roundedDay (x : Finite) : ℤ := x.value.floor + if 86400 ≤ nearestSecond x then 1 else 0

/-- No second lies behind the next midnight, so there is one day at most to carry. -/
theorem nearestSecond_bounds (x : Finite) : 0 ≤ nearestSecond x ∧ nearestSecond x ≤ 86400 := by
  have low := floor_le x.value
  have high := lt_floor_add_one x.value
  have nonneg : 0 ≤ rounded ((x.value - x.value.floor) * 86400) :=
    rounded_nonneg (mul_nonneg (by linarith) (by norm_num))
  have le : rounded ((x.value - x.value.floor) * 86400) ≤ 86400 := by
    have held : rounded 86400 = 86400 := rounded_intCast (n := 86400) (by norm_num)
    exact (rounded_mono (by linarith)).trans_eq held
  exact ⟨nearestAway_nonneg nonneg, nearestAway_le nonneg (by exact_mod_cast le)⟩

theorem toInt_round_eq_nearestSecond (nonneg : 0 ≤ x.value) :
    ((finite x).fract * secondsPerDay).round.toInt = nearestSecond x := by
  have low := floor_le x.value
  have high := lt_floor_add_one x.value
  have part := (hasValue_finite x).fract_of_nonneg nonneg
  have product := part.mul hasValue_secondsPerDay (small_of_le (k := 17) (by
    rw [abs_of_nonneg (mul_nonneg (by linarith) (by norm_num))]
    norm_num
    linarith) (by norm_num))
  have bounds := nearestSecond_bounds x
  rw [nearestSecond] at *
  rw [(product.round (by omega)).toInt, Rat.floor_intCast]

theorem floor_le_roundedDay (x : Finite) : x.value.floor ≤ roundedDay x := by
  unfold roundedDay
  split <;> omega

/-- The time of day at the rounded second, which is midnight for a carried one. -/
def clockTime (x : Finite) : Time := .ofSecondOfDay (nearestSecond x % 86400).toNat (by omega)

theorem clockTime_of_lt (lt : nearestSecond x < 86400) :
    ((clockTime x).secondOfDay : ℤ) = nearestSecond x ∧ (clockTime x).nanosecond = 0 := by
  have low := (nearestSecond_bounds x).1
  rw [clockTime, Time.secondOfDay_ofSecondOfDay]
  exact ⟨by omega, rfl⟩

theorem clockTime_of_eq (carried : nearestSecond x % 86400 = 0) : clockTime x = .midnight := by
  simp only [clockTime, carried]
  rfl

/-- A serial number is the time of its rounded second on its rounded day. -/
theorem toTimestamp?_eq_map (nonneg : 0 ≤ x.value) :
    toTimestamp? system (.finite x) =
      (system.date? (roundedDay x)).map fun date => ⟨date, clockTime x⟩ := by
  have bounds := nearestSecond_bounds x
  simp only [toTimestamp?, if_neg (not_lt.2 nonneg), toInt_round_eq_nearestSecond nonneg,
    roundedDay]
  by_cases carried : 86400 ≤ nearestSecond x
  · rw [dif_neg (by omega), if_pos carried, clockTime_of_eq (by omega)]
    rfl
  · have same : nearestSecond x % 86400 = nearestSecond x := by omega
    rw [dif_pos (by omega), if_neg carried, add_zero]
    simp only [clockTime, same]

theorem toDate?_eq_named? (system : DateSystem) (x : Finite) :
    toDate? system (.finite x) = system.named? x.value.floor := rfl

/-! ### Whole serial numbers -/

theorem nearestSecond_of_whole {day : ℤ} (whole : x.value = day) : nearestSecond x = 0 := by
  rw [nearestSecond, whole, Rat.floor_intCast, sub_self, zero_mul, rounded_zero, nearestAway_zero]

/-- A whole serial number is the midnight of its day. -/
theorem toTimestamp?_of_hasValue {serial : Binary64} {day : ℤ} (nonneg : 0 ≤ day)
    (h : serial.HasValue day) :
    toTimestamp? system serial = (system.date? day).map fun date => ⟨date, .midnight⟩ := by
  obtain ⟨x, rfl, whole⟩ := h
  have second := nearestSecond_of_whole whole
  have value : 0 ≤ x.value := by
    rw [whole]
    exact_mod_cast nonneg
  rw [toTimestamp?_eq_map value, roundedDay, second, clockTime_of_eq (by omega), whole,
    Rat.floor_intCast, if_neg (by norm_num), add_zero]

/-- What has a second to carry is not whole, so its day and the next one are doubles. -/
theorem floor_bounds_of_carried (nonneg : 0 ≤ x.value) (carried : nearestSecond x = 86400) :
    0 ≤ x.value.floor ∧ x.value.floor < 4503599627370496 := by
  refine ⟨Rat.le_floor_iff.2 (by exact_mod_cast nonneg), ?_⟩
  rcases x.abs_value_lt_or_whole with small | ⟨day, whole⟩
  · rw [abs_of_nonneg nonneg] at small
    have := (floor_le x.value).trans_lt small
    exact_mod_cast this
  · rw [nearestSecond_of_whole whole] at carried
    contradiction

/-! ### Days of 64 bits -/

/-- A whole number cut to the range of 64 bits. -/
def clamped (n : ℤ) : ℤ := max (-9223372036854775808) (min n 9223372036854775807)

/-- A day out of that range has no date, and is cut to one that has none. -/
theorem date?_clamped (system : DateSystem) (day : ℤ) :
    system.date? (clamped day) = system.date? day := by
  have last : system.lastDay < 9223372036854775807 := by cases system <;> decide
  rcases lt_or_ge day 0 with before | nonneg
  · have clamped : clamped day < 0 := by
      unfold clamped
      omega
    rw [DateSystem.date?_eq_none_iff.2 (.inl before), DateSystem.date?_eq_none_iff.2 (.inl clamped)]
  rcases le_or_gt day 9223372036854775807 with fits | beyond
  · have same : clamped day = day := by
      unfold clamped
      omega
    rw [same]
  · have cut : clamped day = 9223372036854775807 := by
      unfold clamped
      omega
    rw [cut, DateSystem.date?_eq_none_iff.2 (.inr (.inr last)),
      DateSystem.date?_eq_none_iff.2 (.inr (.inr (last.trans beyond)))]

/-- A second is carried only where the day was not cut, so 64 bits are enough for every day, and a
serial number too large for them is past the calendar in them as well. -/
theorem toTimestamp?_eq_clamped (nonneg : 0 ≤ x.value) :
    let day := clamped x.value.floor + if 86400 ≤ nearestSecond x then 1 else 0
    (0 ≤ day ∧ day ≤ 9223372036854775807) ∧
      toTimestamp? system (finite x) = (system.date? day).map fun date => ⟨date, clockTime x⟩ := by
  have low : 0 ≤ x.value.floor := Rat.le_floor_iff.2 (by exact_mod_cast nonneg)
  have range : 0 ≤ clamped x.value.floor ∧ clamped x.value.floor ≤ 9223372036854775807 := by
    unfold clamped
    omega
  rw [toTimestamp?_eq_map nonneg, roundedDay]
  dsimp only
  split
  next carried =>
    have second : nearestSecond x = 86400 := le_antisymm (nearestSecond_bounds x).2 carried
    have small := (floor_bounds_of_carried nonneg second).2
    have same : clamped x.value.floor = x.value.floor := by
      unfold clamped
      omega
    rw [same]
    exact ⟨by omega, rfl⟩
  next =>
    simpa only [add_zero, date?_clamped, and_true] using range

/-! ### Both readings -/

/-- How the date and the point in time of a serial number belong together, which has a day and a
rounded second of that day. -/
structure ReadsAlike (system : DateSystem) (x : Finite) (day second : ℤ) : Prop where
  range : 0 ≤ second ∧ second ≤ 86400
  phantom : second < 86400 → system = .from1900 → day = 60 →
    toTimestamp? system (.finite x) = none ∧ toDate? system (.finite x) = some ⟨1900, 2, 29⟩
  found : second < 86400 → ¬ (system = .from1900 ∧ day = 60) →
    ((toTimestamp? system (.finite x)).isSome ↔ (toDate? system (.finite x)).isSome)
  sameDay : second < 86400 → ¬ (system = .from1900 ∧ day = 60) →
    ∀ t, toTimestamp? system (.finite x) = some t →
      toDate? system (.finite x) = some t.date.toYearMonthDay ∧
        (t.time.secondOfDay : ℤ) = second ∧ t.time.nanosecond = 0
  carried : second = 86400 →
    ((Binary64.ofInt day).HasValue day ∧ (Binary64.ofInt (day + 1)).HasValue (day + 1 : ℤ)) ∧
      toTimestamp? system (.finite x) = toTimestamp? system (.ofInt (day + 1)) ∧
      toDate? system (.finite x) = toDate? system (.ofInt day)
  missing : second = 86400 → (toTimestamp? system (.finite x) = none ↔
    (system = .from1900 ∧ day + 1 = 60) ∨ system.lastDay < day + 1)

theorem readsAlike (system : DateSystem) {x : Finite} (nonneg : 0 ≤ x.value) :
    ReadsAlike system x x.value.floor ((finite x).fract * secondsPerDay).round.toInt := by
  have bounds := nearestSecond_bounds x
  have instant : toTimestamp? system (.finite x) = _ := toTimestamp?_eq_map nonneg
  have date := toDate?_eq_named? system x
  rw [toInt_round_eq_nearestSecond nonneg]
  have sameDay (lt : nearestSecond x < 86400) : roundedDay x = x.value.floor := by
    rw [roundedDay, if_neg (by omega), add_zero]
  have real (h : ¬ (system = .from1900 ∧ x.value.floor = 60)) :
      system.named? x.value.floor = (system.date? x.value.floor).map (·.toYearMonthDay) := if_neg h
  have nextDay (carried : nearestSecond x = 86400) : roundedDay x = x.value.floor + 1 := by
    rw [roundedDay, if_pos (by omega)]
  refine ⟨bounds, ?_, ?_, ?_, ?_, ?_⟩
  · rintro lt rfl phantom
    rw [instant, date, sameDay lt, phantom]
    exact ⟨rfl, rfl⟩
  · intro lt h
    rw [instant, date, sameDay lt, real h, Option.isSome_map, Option.isSome_map]
  · intro lt h t found
    rw [instant, sameDay lt] at found
    obtain ⟨d, named, rfl⟩ := Option.map_eq_some_iff.1 found
    rw [date, real h, named]
    exact ⟨rfl, clockTime_of_lt lt⟩
  · intro carried
    obtain ⟨low, high⟩ := floor_bounds_of_carried nonneg carried
    have day := hasValue_ofInt (n := x.value.floor) (by omega)
    have next := hasValue_ofInt (n := x.value.floor + 1) (by omega)
    refine ⟨⟨day, next⟩, ?_, ?_⟩
    · rw [instant, nextDay carried, clockTime_of_eq (by omega),
        toTimestamp?_of_hasValue (by omega) next]
    · rw [date, toDate?_of_hasValue day]
  · intro carried
    have low := (floor_bounds_of_carried nonneg carried).1
    rw [instant, nextDay carried, Option.map_eq_none_iff, DateSystem.date?_eq_none_iff,
      or_iff_right (by omega)]
    rfl

/-- A quarter of a second before the phantom day the second is carried into it. -/
theorem readsAlike_before_phantomDay :
    let x : Finite := ⟨false, 8444248894093151, -47, by decide⟩
    0 ≤ x.value ∧ ReadsAlike .from1900 x 59 86400 ∧ toTimestamp? .from1900 (finite x) = none ∧
      toDate? .from1900 (finite x) = toDate? .from1900 (.ofInt 59) := by
  intro x
  have nonneg : 0 ≤ x.value := by decide +kernel
  have day : x.value.floor = 59 := by decide +kernel
  have second : ((finite x).fract * secondsPerDay).round.toInt = 86400 := by decide +kernel
  have reads := readsAlike .from1900 nonneg
  rw [day, second] at reads
  exact ⟨nonneg, reads, (reads.missing rfl).2 (.inl ⟨rfl, rfl⟩), (reads.carried rfl).2.2⟩

end CellDisplay.Serial
