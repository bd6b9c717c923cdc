import CellDisplay.Proofs.Binary64.Operations
import CellDisplay.Proofs.Calendar.DateOrder
import CellDisplay.Proofs.Serial.Day

/-! Whole serial numbers and dates stand for one another. A date system numbers the dates from its
epoch to the end of the calendar in their order and without a gap, the 1900 system with a date of
its own for day 60, which is no date of the calendar. -/
namespace CellDisplay

open Calendar (Date YearMonthDay)

/-! ### Days as integers -/

namespace DateSystem

variable {system : DateSystem} {day : ℤ} {d : YearMonthDay} {date : Date}

theorem serialDay_le_iff {a b : ℤ} : system.serialDay a ≤ system.serialDay b ↔ a ≤ b := by
  cases system with
  | from1904 => rfl
  | from1900 =>
    simp only [serialDay, true_and]
    split_ifs <;> omega

/-- The phantom day is the only one that no count of days comes to. -/
theorem exists_serialDay (pos : 0 ≤ day) (real : ¬ (system = from1900 ∧ day = phantomDay)) :
    ∃ elapsed, 0 ≤ elapsed ∧ system.serialDay elapsed = day := by
  cases system with
  | from1904 => exact ⟨day, pos, rfl⟩
  | from1900 =>
    simp only [true_and, phantomDay] at real
    by_cases late : 60 < day
    · refine ⟨day - 1, by omega, ?_⟩
      rw [serialDay, if_pos ⟨rfl, by rw [phantomDay]; omega⟩, Int.sub_add_cancel]
    · exact ⟨day, pos, if_neg (by rw [phantomDay]; omega)⟩

theorem date?_phantomDay : from1900.date? phantomDay = none := if_pos (.inr ⟨rfl, rfl⟩)

theorem date?_eq_some_iff : system.date? day = some date ↔ system.day? date = some day := by
  constructor
  · intro h
    by_cases absent : day < 0 ∨ (system = from1900 ∧ day = phantomDay)
    · rw [date?, if_pos absent] at h
      contradiction
    · rw [not_or] at absent
      obtain ⟨elapsed, pos, rfl⟩ := exists_serialDay (Int.not_lt.1 absent.1) absent.2
      rw [date?_serialDay pos, Date.ofDayNumber?_eq_some_iff] at h
      rw [day?_eq_some (by omega), h, add_sub_cancel_left]
  · exact date?_day?

/-- The date that a system gives to a day, the phantom one included. -/
def named? (system : DateSystem) (day : ℤ) : Option YearMonthDay :=
  if system = from1900 ∧ day = phantomDay then some phantomDate
  else (system.date? day).map (·.toYearMonthDay)

/-- The day that a system gives to a date, the phantom one included. -/
def number? (system : DateSystem) (d : YearMonthDay) : Option ℤ :=
  if system = from1900 ∧ d = phantomDate then some phantomDay
  else (Date.ofYearMonthDay? d).bind system.day?

theorem toYearMonthDay_ne_phantomDate (date : Date) : date.toYearMonthDay ≠ phantomDate := by
  intro h
  have := date.valid
  rw [h] at this
  revert this
  decide

theorem day?_ne_phantomDay (date : Date) : from1900.day? date ≠ some phantomDay := by
  intro h
  have := date?_eq_some_iff.2 h
  rw [date?_phantomDay] at this
  contradiction

/-- A system gives a date to a day just when it gives the day to the date. -/
theorem named?_eq_some_iff : system.named? day = some d ↔ system.number? d = some day := by
  unfold named? number?
  split
  next phantom =>
    obtain ⟨rfl, rfl⟩ := phantom
    rw [Option.some_inj]
    constructor
    · rintro rfl
      rw [if_pos ⟨rfl, rfl⟩]
    · intro h
      by_contra other
      rw [if_neg (by simpa [eq_comm] using other)] at h
      obtain ⟨date, -, h⟩ := Option.bind_eq_some_iff.1 h
      exact day?_ne_phantomDay date h
  next real =>
    simp only [Option.map_eq_some_iff, date?_eq_some_iff]
    split
    next phantom =>
      obtain ⟨rfl, rfl⟩ := phantom
      constructor
      · rintro ⟨date, -, h⟩
        exact absurd h (toYearMonthDay_ne_phantomDate date)
      · intro h
        exact absurd ⟨rfl, (Option.some.inj h).symm⟩ real
    next =>
      simp only [Option.bind_eq_some_iff, Date.ofYearMonthDay?_eq_some_iff]
      exact exists_congr fun _ => and_comm

theorem number?_bounds (h : system.number? d = some day) : 0 ≤ day ∧ day < 134217727 := by
  unfold number? at h
  split at h
  · rw [← Option.some.inj h]
    decide
  · obtain ⟨date, -, h⟩ := Option.bind_eq_some_iff.1 h
    exact day?_bounds h

/-! ### The range and the order -/

/-- The day of the end of the calendar. -/
def lastDay (system : DateSystem) : ℤ :=
  system.serialDay (Date.last.dayNumber - system.epoch.dayNumber)

theorem number?_last (system : DateSystem) :
    system.number? Date.last.toYearMonthDay = some system.lastDay := by
  unfold number?
  rw [if_neg fun h => toYearMonthDay_ne_phantomDate _ h.2, Date.ofYearMonthDay?_toYearMonthDay,
    Option.bind_some, day?_eq_some (Date.dayNumber_le_last _), lastDay]

theorem phantomDay_le_lastDay : phantomDay ≤ from1900.lastDay := by decide

theorem named?_isSome_iff : (system.named? day).isSome ↔ 0 ≤ day ∧ day ≤ system.lastDay := by
  unfold named?
  split
  next phantom =>
    obtain ⟨rfl, rfl⟩ := phantom
    simp only [Option.isSome_some, phantomDay_le_lastDay, and_true, true_iff]
    decide
  next real =>
    rw [Option.isSome_map]
    by_cases early : day < 0
    · rw [date?, if_pos (.inl early)]
      simp only [Option.isSome_none, Bool.false_eq_true, false_iff]
      omega
    · obtain ⟨elapsed, pos, rfl⟩ := exists_serialDay (Int.not_lt.1 early) real
      have first : Date.first.dayNumber ≤ system.epoch.dayNumber := Date.dayNumber_first_le _
      rw [date?_serialDay pos, Date.ofDayNumber?_isSome_iff, lastDay, serialDay_le_iff]
      omega

/-- The days that a system has no date for. -/
theorem date?_eq_none_iff :
    system.date? day = none ↔
      day < 0 ∨ (system = from1900 ∧ day = phantomDay) ∨ system.lastDay < day := by
  by_cases phantom : system = from1900 ∧ day = phantomDay
  · obtain ⟨rfl, rfl⟩ := phantom
    simp [date?_phantomDay]
  · have named : system.named? day = (system.date? day).map (·.toYearMonthDay) := if_neg phantom
    have inRange : (system.named? day).isSome ↔ 0 ≤ day ∧ day ≤ system.lastDay := named?_isSome_iff
    rw [named, Option.isSome_map] at inRange
    rw [← Option.not_isSome_iff_eq_none, inRange, or_iff_right phantom]
    omega

/-- Dates are numbered in their order. -/
theorem before_iff_lt {a b : Date} {m n : ℤ} (ha : system.day? a = some m)
    (hb : system.day? b = some n) : a.Before b.toYearMonthDay ↔ m < n := by
  have count {d : Date} {k : ℤ} (h : system.day? d = some k) :
      system.serialDay (d.dayNumber - system.epoch.dayNumber) = k := by
    simp only [day?] at h
    split at h
    · contradiction
    · exact Option.some.inj h
  rw [Date.before_iff, ← count ha, ← count hb, ← not_le, ← not_le, serialDay_le_iff]
  omega

/-- The days on both sides of the phantom one are those of its neighbours in the calendar. -/
theorem before_phantomDate (h : from1900.day? date = some day) (lt : day < phantomDay) :
    date.Before phantomDate := by
  let eve : Date := { year := 1900, month := 2, day := 28, valid := by decide }
  have number : from1900.day? eve = some 59 := by decide
  have upTo : ¬ eve.Before date.toYearMonthDay := by
    rw [before_iff_lt number h]
    exact not_lt.2 (Int.lt_add_one_iff.1 lt)
  simp only [YearMonthDay.Before, phantomDate, eve] at *
  omega

theorem phantomDate_before (h : from1900.day? date = some day) (lt : phantomDay < day) :
    phantomDate.Before date.toYearMonthDay := by
  let morrow : Date := { year := 1900, month := 3, day := 1, valid := by decide }
  have number : from1900.day? morrow = some 61 := by decide
  have since : ¬ date.Before morrow.toYearMonthDay := by
    rw [before_iff_lt h number]
    exact not_lt.2 lt
  simp only [YearMonthDay.Before, phantomDate, morrow] at *
  omega

/-- Of two days the later one has the later date. -/
theorem named?_increasing {later : ℤ} {e : YearMonthDay} (lt : day < later)
    (hd : system.named? day = some d) (he : system.named? later = some e) : d.Before e := by
  unfold named? at hd he
  split at hd
  next phantom =>
    obtain ⟨rfl, rfl⟩ := phantom
    obtain rfl := Option.some.inj hd
    rw [if_neg (by omega)] at he
    obtain ⟨date, h, rfl⟩ := Option.map_eq_some_iff.1 he
    exact phantomDate_before (date?_eq_some_iff.1 h) lt
  next =>
    obtain ⟨date, h, rfl⟩ := Option.map_eq_some_iff.1 hd
    have number := date?_eq_some_iff.1 h
    split at he
    next phantom =>
      obtain ⟨rfl, rfl⟩ := phantom
      obtain rfl := Option.some.inj he
      exact before_phantomDate number lt
    next =>
      obtain ⟨other, h', rfl⟩ := Option.map_eq_some_iff.1 he
      exact (before_iff_lt number (date?_eq_some_iff.1 h')).2 lt

end DateSystem

/-! ### Whole serial numbers -/

namespace Serial

open Binary64

variable {system : DateSystem} {serial : Binary64} {day : ℤ} {d : YearMonthDay}

theorem toDate?_of_hasValue (h : serial.HasValue day) :
    toDate? system serial = system.named? day := by
  obtain ⟨x, rfl, value⟩ := h
  simp only [toDate?, value, Rat.floor_intCast]
  rfl

/-- A midnight adds nothing to the day. -/
theorem ofInt_add_zero (h : day.natAbs ≤ 9007199254740992) : ofInt day + zero = ofInt day := by
  obtain ⟨x, finite, value⟩ := hasValue_ofInt h
  have sum : Binary64.finite x + zero = ofRat (x.negative && false) (x.value + 0) := by
    have none : (Finite.zero false).value = 0 := by
      simp [Finite.value, Finite.magnitude, Finite.zero]
    rw [← none]
    rfl
  rw [finite, sum, value, Bool.and_false, add_zero, ← finite, ofInt]

theorem ofTimestamp?_atMidnight (date : Date) :
    ofTimestamp? system date.atMidnight = (system.day? date).map .ofInt := by
  have midnight : (ofInt 0 + ofInt 0 / ofInt 1000000000) / secondsPerDay = zero := by
    decide +kernel
  have sum : ofTimestamp? system date.atMidnight = (system.day? date).map (ofInt · + zero) := by
    rw [← midnight, ofTimestamp?]
    simp only [Date.atMidnight, Calendar.Time.midnight, Calendar.Time.secondOfDay, Nat.zero_mul,
      Nat.add_zero, Nat.cast_zero]
  rw [sum]
  refine Option.map_congr fun day h => ofInt_add_zero ?_
  have bounds := DateSystem.day?_bounds h
  omega

theorem ofDate?_eq (d : YearMonthDay) : ofDate? system d = (system.number? d).map .ofInt := by
  unfold ofDate? DateSystem.number?
  split
  · rfl
  · rw [Option.map_bind]
    congr 1
    funext date
    exact ofTimestamp?_atMidnight date

/-- How whole serial numbers and dates belong together. -/
structure NumbersDays (system : DateSystem) : Prop where
  counted : ∀ (serial : Binary64) (day : ℤ) (d : YearMonthDay), serial.HasValue day →
    toDate? system serial = some d → ofDate? system d = some (.ofInt day)
  found : ∀ (d : YearMonthDay) (serial : Binary64), ofDate? system d = some serial →
    (∃ day : ℕ, serial.HasValue day) ∧ toDate? system serial = some d
  phantom : system = .from1900 →
    toDate? system (.ofInt 60) = some ⟨1900, 2, 29⟩ ∧ ofDate? system ⟨1900, 2, 29⟩ = some (.ofInt 60)
  range : ∃ last : ℕ, ofDate? system ⟨262142, 12, 31⟩ = some (.ofInt last) ∧
    ∀ (serial : Binary64) (day : ℤ), serial.HasValue day →
      ((toDate? system serial).isSome ↔ 0 ≤ day ∧ day ≤ last)
  increasing : ∀ (serial next : Binary64) (day later : ℤ) (d e : YearMonthDay),
    serial.HasValue day → next.HasValue later → day < later →
      toDate? system serial = some d → toDate? system next = some e → d.Before e

theorem numbersDays (system : DateSystem) : NumbersDays system where
  counted serial day d h hd := by
    rw [toDate?_of_hasValue h, DateSystem.named?_eq_some_iff] at hd
    rw [ofDate?_eq, hd, Option.map_some]
  found d serial h := by
    rw [ofDate?_eq] at h
    obtain ⟨day, number, rfl⟩ := Option.map_eq_some_iff.1 h
    obtain ⟨low, high⟩ := DateSystem.number?_bounds number
    lift day to ℕ using low
    have value := hasValue_ofInt (n := day) (by omega)
    refine ⟨⟨day, value⟩, ?_⟩
    rw [toDate?_of_hasValue value, DateSystem.named?_eq_some_iff, number]
  phantom := by
    rintro rfl
    exact ⟨toDate?_of_hasValue (hasValue_ofInt (n := 60) (by norm_num)), rfl⟩
  range := by
    have last := system.number?_last
    obtain ⟨low, -⟩ := DateSystem.number?_bounds last
    refine ⟨system.lastDay.toNat, ?_, ?_⟩
    · rw [Int.toNat_of_nonneg low, ofDate?_eq]
      exact congrArg (Option.map ofInt) last
    · intro serial day h
      rw [toDate?_of_hasValue h, DateSystem.named?_isSome_iff, Int.toNat_of_nonneg low]
  increasing serial next day later d e h h' lt hd he := by
    rw [toDate?_of_hasValue h] at hd
    rw [toDate?_of_hasValue h'] at he
    exact DateSystem.named?_increasing lt hd he

end Serial

end CellDisplay
