import CellDisplay.Proofs.DateCode.Reading
import CellDisplay.Proofs.Number.Faults
import CellDisplay.Proofs.Serial.Instant

/-! Errors belong to values. `Refuses` says which values have no text under a type tag; no format
code makes another value fail, and none saves one of these (`report_error_independent_of_code`). The
only condition that takes an argument is the one on serial numbers: such a number is a point in time
unless it is negative or the day that its second is rounded into is missing
(`toTimestamp?_eq_none_iff`). None of the steps that could fail on the way does: reading a code,
writing a number, keeping a day in 64 bits. -/
namespace CellDisplay

open Binary64
open Calendar (Date Timestamp)

namespace Serial

/-! ### Serial numbers that are no point in time -/

variable {system : DateSystem} {x : Finite}

/-- The serial numbers that are no point in time. -/
def Missing (system : DateSystem) : Binary64 → Prop
  | .finite x =>
    x.value < 0 ∨ (system = .from1900 ∧ roundedDay x = DateSystem.phantomDay) ∨
      system.lastDay < roundedDay x
  | _ => True

theorem toTimestamp?_eq_none_iff {serial : Binary64} :
    toTimestamp? system serial = none ↔ Missing system serial := by
  cases serial with
  | nan => exact iff_of_true rfl trivial
  | infinite => exact iff_of_true rfl trivial
  | finite x =>
    by_cases negative : x.value < 0
    · exact iff_of_true (if_pos negative) (.inl negative)
    · have nonneg := not_lt.1 negative
      have floor_nonneg : 0 ≤ x.value.floor := Rat.le_floor_iff.2 (by exact_mod_cast nonneg)
      have day_nonneg : ¬ roundedDay x < 0 := not_lt.2 (floor_nonneg.trans (floor_le_roundedDay x))
      rw [toTimestamp?_eq_map nonneg, Option.map_eq_none_iff, DateSystem.date?_eq_none_iff, Missing,
        or_iff_right day_nonneg, or_iff_right negative]

end Serial

/-! ### Values that are refused -/

/-- The values that a type tag refuses, and the error for each. -/
inductive Refuses (system : DateSystem) : TypeTag → Value → RenderError → Prop
  | notFinite {x : Binary64} (h : x.isFinite = false) :
    Refuses system .numeric (.number x) (.nonFiniteNumber x)
  | date (d : Date) : Refuses system .numeric (.date d) (.typeMismatch (.date d))
  | timestamp (t : Timestamp) :
    Refuses system .numeric (.timestamp t) (.typeMismatch (.timestamp t))
  | serial {serial : Binary64} (h : Serial.Missing system serial) :
    Refuses system .date (.number serial) (.invalidSerialDate serial)

variable {options : Options} {tag : TypeTag} {value : Value}

theorem report_of_refuses {error : RenderError} (h : Refuses options.dateSystem tag value error)
    (code : String) : report options tag code value = .error error := by
  cases h with
  | notFinite h => simp [report, h]
  | date | timestamp => rfl
  | serial h => rw [report, Serial.toTimestamp?_eq_none_iff.2 h]

theorem report_of_not_refuses (h : ∀ error, ¬ Refuses options.dateSystem tag value error)
    (code : String) : ∃ written : Written,
      report options tag code value =
        .ok ⟨written.1, Category.ofCode tag code.toList, written.2⟩ := by
  cases tag with
  | numeric =>
    cases value with
    | number x =>
      have finite : x.isFinite = true := by
        rw [← Bool.not_eq_false]
        exact fun other => h _ (.notFinite other)
      exact ⟨_, if_pos finite⟩
    | date d => exact absurd (.date d) (h _)
    | timestamp t => exact absurd (.timestamp t) (h _)
  | date =>
    cases value with
    | number serial =>
      cases instant : Serial.toTimestamp? options.dateSystem serial with
      | none => exact absurd (.serial (Serial.toTimestamp?_eq_none_iff.1 instant)) (h _)
      | some t => exact ⟨writeTimestamp options code t, by rw [report, instant]⟩
    | date d => exact ⟨_, rfl⟩
    | timestamp t => exact ⟨_, rfl⟩

/-- A report fails with just the error of its value. -/
theorem report_eq_error_iff {code : String} {error : RenderError} :
    report options tag code value = .error error ↔ Refuses options.dateSystem tag value error := by
  refine ⟨fun failed => ?_, fun h => report_of_refuses h code⟩
  by_cases refused : ∃ error, Refuses options.dateSystem tag value error
  · obtain ⟨other, h⟩ := refused
    rw [report_of_refuses h code] at failed
    exact Except.error.inj failed ▸ h
  · obtain ⟨written, done⟩ := report_of_not_refuses (not_exists.1 refused) code
    rw [done] at failed
    contradiction

/-- Whether a value has a text, and which error if it has none, is the same for all codes. A code
is read to its end, and it alone decides the category. A finite number is written without a fault as
long as the decimals of the code fit a formatter, and no serial number is too large for its day. -/
theorem report_error_independent_of_code (options : Options) (tag : TypeTag) (value : Value) :
    (∀ (a b : String) (error : RenderError),
      report options tag a value = .error error ↔ report options tag b value = .error error) ∧
    (∀ (code : String) (error : RenderError),
      report options tag code value = .error error ↔
        Refuses options.dateSystem tag value error) ∧
    (∀ code : String, (∃ error, Refuses options.dateSystem tag value error) ∨
      (DateCode.Reader.start code.toList).tokens? = some (DateCode.lex code.toList) ∧
        ∃ rendered, report options tag code value = .ok rendered ∧
          rendered.category = Category.ofCode tag code.toList) ∧
    (∀ d, (RenderError.typeMismatch (.date d)).message =
      "type mismatch: expected number, got date") ∧
    (∀ t, (RenderError.typeMismatch (.timestamp t)).message =
      "type mismatch: expected number, got datetime") ∧
    (∀ (code : String) (x : Finite),
      (Category.ofCode .numeric code.toList).decimals code.toList < 65535 →
      ∃ (turns : ℕ) (written : Written), Nat.fib turns ≤ 10 ^ 9 ∧
        writeNumber? (turns + 1) options.locale (Category.ofCode .numeric code.toList) code x =
          some written ∧
        report options .numeric code (.number (.finite x)) =
          .ok ⟨written.1, Category.ofCode .numeric code.toList, written.2⟩) ∧
    ∀ x : Finite, 0 ≤ x.value →
      let day := Serial.clamped x.value.floor + if 86400 ≤ Serial.nearestSecond x then 1 else 0
      (0 ≤ day ∧ day ≤ 9223372036854775807) ∧
        Serial.toTimestamp? options.dateSystem (.finite x) =
          (options.dateSystem.date? day).map fun date => ⟨date, Serial.clockTime x⟩ := by
  refine ⟨fun a b error => ?_, fun _ _ => report_eq_error_iff, fun code => ?_, fun _ => rfl,
    fun _ => rfl, fun code x fits => ?_, fun x nonneg => Serial.toTimestamp?_eq_clamped nonneg⟩
  · rw [report_eq_error_iff, report_eq_error_iff]
  · refine or_iff_not_imp_left.2 fun accepted => ⟨?_, ?_⟩
    · rw [DateCode.Reader.tokens?_start, DateCode.Reader.lex_eq]
    · obtain ⟨written, done⟩ := report_of_not_refuses (not_exists.1 accepted) code
      exact ⟨_, done, rfl⟩
  · obtain ⟨turns, few, written⟩ := writeNumber?_eq options.locale fits x
    exact ⟨turns, _, few, written, rfl⟩

/-- The greatest double is past the calendar, although its floor does not fit 64 bits; as a number
it is written by a code of two decimals. -/
theorem report_error_greatest :
    let x : Finite := ⟨false, 9007199254740991, 971, by decide⟩
    let code : String := "#,##0.00"
    (Category.ofCode .numeric code.toList).decimals code.toList < 65535 ∧ 0 ≤ x.value ∧
      Serial.clamped x.value.floor = 9223372036854775807 ∧
      (∀ other : String,
        report {} .date other (.number (.finite x)) = .error (.invalidSerialDate (.finite x))) ∧
      ∃ (turns : ℕ) (written : Written), Nat.fib turns ≤ 10 ^ 9 ∧
        writeNumber? (turns + 1) Locale.enUS .currency code x = some written ∧
        report {} .numeric code (.number (.finite x)) = .ok ⟨written.1, .currency, written.2⟩ := by
  intro x code
  have fits : (Category.ofCode .numeric code.toList).decimals code.toList < 65535 := by decide
  have nonneg : 0 ≤ x.value := by decide +kernel
  have cut : Serial.clamped x.value.floor = 9223372036854775807 := by decide +kernel
  have category : Category.ofCode .numeric code.toList = .currency := by decide
  obtain ⟨-, refused, -, -, -, -, day⟩ :=
    report_error_independent_of_code {} .date (.number (.finite x))
  obtain ⟨-, -, -, -, -, written, -⟩ :=
    report_error_independent_of_code {} .numeric (.number (.finite x))
  obtain ⟨-, instant⟩ := day x nonneg
  have missing : Serial.toTimestamp? .from1900 (.finite x) = none := by
    have last : DateSystem.from1900.lastDay < 9223372036854775807 := by decide
    rw [instant, cut, Option.map_eq_none_iff, DateSystem.date?_eq_none_iff]
    refine .inr (.inr (last.trans_le ?_))
    split <;> omega
  refine ⟨fits, nonneg, cut, fun other => ?_, ?_⟩
  · exact (refused other _).2 (.serial (Serial.toTimestamp?_eq_none_iff.1 missing))
  · rw [← category]
    exact written code x fits

end CellDisplay
