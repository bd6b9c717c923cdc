import CellDisplay.Proofs.Options
import CellDisplay.Proofs.Serial.Instant

/-! The two date systems are 1462 days apart: from the first day of the 1904 system on, a serial
number of the 1900 system is that of the other with 1462 more. The difference is taken in doubles,
and it is exact as far as there are days; past that both numbers are beyond the calendar. So both
have the same date and the same point in time, and the same text too, where no time is counted from
the epoch (`systems_shifted`). -/
namespace CellDisplay

open Binary64

/-! ### Days -/

namespace DateSystem

/-- The days of both systems from the later epoch on. -/
theorem date?_shift {day : ℤ} (late : 1462 ≤ day) :
    from1900.date? day = from1904.date? (day - 1462) := by
  have first : from1900.serialDay (day - 1) = day := by
    simp only [serialDay, phantomDay, true_and]
    rw [if_pos (by omega)]
    omega
  have second : from1904.serialDay (day - 1462) = day - 1462 := rfl
  have epochs : from1900.epoch.dayNumber + (day - 1) = from1904.epoch.dayNumber + (day - 1462) := by
    rw [epoch_dayNumber, epoch_dayNumber, if_pos rfl, if_neg (by decide)]
    omega
  rw [← first, date?_serialDay (by omega), epochs, ← date?_serialDay (by omega), second, first]

theorem named?_shift {day : ℤ} (late : 1462 ≤ day) :
    from1900.named? day = from1904.named? (day - 1462) := by
  have real : ¬ (from1900 = from1900 ∧ day = phantomDay) := by
    rw [phantomDay]
    omega
  rw [named?, named?, if_neg real, if_neg (by simp), date?_shift late]

/-- No system has days of more than 27 bits. -/
theorem lastDay_lt_floor (system : DateSystem) {q : ℚ} (large : 134217727 ≤ q) :
    system.lastDay < q.floor :=
  (number?_bounds system.number?_last).2.trans_le (Rat.le_floor_iff.2 (by exact_mod_cast large))

end DateSystem

/-! ### Serial numbers -/

namespace Serial

theorem toTimestamp?_eq_none_of_large (system : DateSystem) {x : Finite}
    (large : 134217727 ≤ x.value) : toTimestamp? system (.finite x) = none := by
  have beyond : system.lastDay < roundedDay x :=
    (system.lastDay_lt_floor large).trans_le (floor_le_roundedDay x)
  rw [toTimestamp?_eq_map (by linarith), Option.map_eq_none_iff, DateSystem.date?_eq_none_iff]
  exact .inr (.inr beyond)

theorem toDate?_eq_none_of_large (system : DateSystem) {x : Finite}
    (large : 134217727 ≤ x.value) : toDate? system (.finite x) = none := by
  rw [toDate?_eq_named?, ← Option.not_isSome_iff_eq_none, DateSystem.named?_isSome_iff]
  exact fun inside => (system.lastDay_lt_floor large).not_ge inside.2

section

variable {x y : Finite} (late : 1462 ≤ x.value) (shifted : y.value = x.value - 1462)

include late in
theorem le_floor : 1462 ≤ x.value.floor := Rat.le_floor_iff.2 (by exact_mod_cast late)

include shifted

theorem floor_shift : y.value.floor = x.value.floor - 1462 := by
  have low := Rounding.floor_le x.value
  have high := Rounding.lt_floor_add_one x.value
  rw [shifted]
  apply Rounding.floor_eq <;> push_cast <;> linarith

theorem nearestSecond_shift : nearestSecond y = nearestSecond x := by
  rw [nearestSecond, nearestSecond, floor_shift shifted, shifted]
  congr 3
  push_cast
  ring

include late

theorem toTimestamp?_shift :
    toTimestamp? .from1900 (.finite x) = toTimestamp? .from1904 (.finite y) := by
  have day : roundedDay y = roundedDay x - 1462 := by
    rw [roundedDay, roundedDay, nearestSecond_shift shifted, floor_shift shifted]
    omega
  have clock : clockTime y = clockTime x := by
    simp only [clockTime, nearestSecond_shift shifted]
  rw [toTimestamp?_eq_map (by linarith), toTimestamp?_eq_map (by linarith), clock, day,
    DateSystem.date?_shift ((le_floor late).trans (floor_le_roundedDay x))]

theorem toDate?_shift : toDate? .from1900 (.finite x) = toDate? .from1904 (.finite y) := by
  rw [toDate?_eq_named?, toDate?_eq_named?, floor_shift shifted,
    DateSystem.named?_shift (le_floor late)]

end

/-- The difference is exact below 2 ^ 53, and past it no day is left after it either. -/
theorem exists_shifted {x : Finite} (late : 1462 ≤ x.value) :
    ∃ y : Finite, finite x - ofInt 1462 = .finite y ∧
      (y.value = x.value - 1462 ∨ 134217727 ≤ x.value ∧ 134217727 ≤ y.value) := by
  have offset : (ofInt 1462).HasValue (1462 : ℕ) := by
    simpa using hasValue_ofInt (n := 1462) (by norm_num)
  have late : ((1462 : ℕ) : ℚ) ≤ x.value := by exact_mod_cast late
  obtain ⟨y, difference, value⟩ := (hasValue_finite x).sub_of_le offset (Nat.cast_nonneg _) late
  refine ⟨y, difference, ?_⟩
  -- Past 2 ^ 53 doubles are further apart than one, and the difference may be rounded.
  rcases le_or_gt x.value 9007199254740992 with small | large
  · left
    have held := (hasValue_finite x).holds_of_nonneg ((Nat.cast_nonneg _).trans late)
    rw [value, rounded_of_holds (held.sub_natCast late small)]
    norm_num
  · right
    refine ⟨by linarith, ?_⟩
    rw [value]
    exact_mod_cast rounded_intCast_le (n := 134217727) (by norm_num) (by push_cast; linarith)

theorem readings_shifted {x : Finite} (late : 1462 ≤ x.value) :
    toTimestamp? .from1900 (.finite x) = toTimestamp? .from1904 (finite x - ofInt 1462) ∧
      toDate? .from1900 (.finite x) = toDate? .from1904 (finite x - ofInt 1462) := by
  obtain ⟨y, difference, shifted | ⟨large, large'⟩⟩ := exists_shifted late
  · rw [difference]
    exact ⟨toTimestamp?_shift late shifted, toDate?_shift late shifted⟩
  · rw [difference, toTimestamp?_eq_none_of_large _ large, toTimestamp?_eq_none_of_large _ large',
      toDate?_eq_none_of_large _ large, toDate?_eq_none_of_large _ large']
    exact ⟨rfl, rfl⟩

/-! ### Reports -/

/-- Two reports that differ in the serial number that an error quotes, and in nothing else. -/
inductive SameButSerial (serial serial' : Binary64) :
    Except RenderError Rendered → Except RenderError Rendered → Prop
  | ok (rendered : Rendered) : SameButSerial serial serial' (.ok rendered) (.ok rendered)
  | error : SameButSerial serial serial' (.error (.invalidSerialDate serial))
      (.error (.invalidSerialDate serial'))

/-- With 1462 less, a serial number of the 1900 system says the same in the 1904 system. -/
theorem systems_shifted {x : Finite} (late : 1462 ≤ x.value) :
    toTimestamp? .from1900 (.finite x) = toTimestamp? .from1904 (finite x - ofInt 1462) ∧
    toDate? .from1900 (.finite x) = toDate? .from1904 (finite x - ofInt 1462) ∧
    ∀ (options : Options) (code : String),
      ¬ (DateCode.tokenize code.toList).any DateCode.Token.isElapsed →
      SameButSerial (.finite x) (finite x - ofInt 1462)
        (report { options with dateSystem := .from1900 } .date code (.number (.finite x)))
        (report { options with dateSystem := .from1904 } .date code
          (.number (finite x - ofInt 1462))) := by
  obtain ⟨instant, date⟩ := readings_shifted late
  refine ⟨instant, date, fun options code uncounted => ?_⟩
  have written := writeTimestamp_congr (a := { options with dateSystem := .from1900 })
    (b := { options with dateSystem := .from1904 }) ⟨rfl, rfl, rfl, rfl, rfl, rfl⟩ (.inr uncounted)
  rw [report, report, ← instant]
  cases toTimestamp? .from1900 (.finite x) with
  | none => exact .error
  | some t =>
    simp only [written]
    exact .ok _

/-- The last serial number of the first day of 1904. Its second is carried into the next day. -/
theorem systems_shifted_before_midnight :
    let x : Finite := ⟨false, 6434342045745151, -42, by decide⟩
    let y : Binary64 := finite x - ofInt 1462
    let code := "yyyy-mm-dd hh:mm:ss"
    1462 ≤ x.value ∧ ¬ (DateCode.tokenize code.toList).any DateCode.Token.isElapsed ∧
      toDate? .from1904 y = some ⟨1904, 1, 1⟩ ∧
      toTimestamp? .from1900 (finite x) = toTimestamp? .from1904 y ∧
      ∀ options : Options, SameButSerial (finite x) y
        (report { options with dateSystem := .from1900 } .date code (.number (finite x)))
        (report { options with dateSystem := .from1904 } .date code (.number y)) := by
  intro x y code
  have late : 1462 ≤ x.value := by decide +kernel
  have uncounted : ¬ (DateCode.tokenize code.toList).any DateCode.Token.isElapsed := by
    decide +kernel
  have date : toDate? .from1900 (finite x) = some ⟨1904, 1, 1⟩ := by decide +kernel
  obtain ⟨instant, sameDate, reports⟩ := systems_shifted late
  exact ⟨late, uncounted, sameDate.symm.trans date, instant,
    fun options => reports options code uncounted⟩

end Serial

end CellDisplay
