import CellDisplay.DateCode.Text
import CellDisplay.Proofs.Number.Numeral
import CellDisplay.Proofs.Serial.Elapsed

/-! Elapsed hours, minutes and seconds beside those of the clock. A token of elapsed time counts the
rounded seconds of the serial number and the tokens of the clock leave out the part of a second, so
they disagree where the second that is rounded up completes the unit. -/
namespace CellDisplay.DateCode

open Calendar (Timestamp)
open Serial (RoundsUp secondsSince)

/-! ### Texts of counts -/

def Width.text : Width → ℕ → List Char
  | natural, n => Decimal.digits n
  | padded, n => Decimal.padded 2 n

theorem Width.text_inj {width : Width} {a b : ℕ} : width.text a = width.text b ↔ a = b := by
  have read (n : ℕ) : Nat.ofDigitChars 10 (width.text n) 0 = n := by
    cases width with
    | natural => exact Nat.ofDigitChars_ten_toDigits
    | padded => exact Decimal.ofDigitChars_padded 2 n
  constructor
  · intro same
    rw [← read a, same, read]
  · rintro rfl
    rfl

/-- The seconds of a unit. -/
def ElapsedUnit.length : ElapsedUnit → ℕ
  | hours => 3600
  | minutes => 60
  | seconds => 1

theorem elapsedText_eq (system : DateSystem) (unit : ElapsedUnit) (width : Width) (t : Timestamp) :
    elapsedText system unit width t =
      width.text (Serial.elapsedSeconds system t / unit.length) := by
  cases unit with
  | seconds =>
    rw [ElapsedUnit.length, Nat.div_one]
    cases width <;> rfl
  | _ => cases width <;> rfl

/-! ### Beside the clock -/

theorem tokenize_clock :
    tokenize "[h]:mm:ss".toList =
      [.elapsed .hours .natural, .literal [':'], .minute .padded, .literal [':'],
        .second .padded] := by
  decide +kernel

theorem text_clock (options : Options) (t : Timestamp) :
    text options (tokenize "[h]:mm:ss".toList) t =
      Decimal.digits (Serial.elapsedSeconds options.dateSystem t / 3600) ++
        ':' :: Decimal.padded 2 t.time.minute ++ ':' :: Decimal.padded 2 t.time.second := by
  rw [tokenize_clock]
  simp [text, hasTokens, Token.isLiteral, Token.text, elapsedText, numberText]

variable {options : Options} {t : Timestamp}

/-- The minute and the second are what whole hours leave of the seconds since the epoch. -/
theorem clock_sum_iff {total : ℕ} (since : options.dateSystem.epoch.dayNumber ≤ t.date.dayNumber)
    (h : (total : ℤ) = secondsSince options.dateSystem t) (hours : ℕ) :
    3600 * hours + 60 * t.time.minute + t.time.second = total ↔ hours = total / 3600 := by
  obtain ⟨-, minute, second, -⟩ := t.time.valid
  have days := (Serial.daysSince_bounds since).1
  simp only [secondsSince, Calendar.Time.secondOfDay] at h
  omega

/-- The tokens of elapsed time print the whole units of the seconds since the epoch unless the serial
number rounds up to a second that completes a unit; below 498 thousandths of a second it does not
round up, and from 502 on it does. -/
theorem elapsed_iff (options : Options) (t : Timestamp) (noLeap : t.time.nanosecond < 1000000000)
    (since : options.dateSystem.epoch.dayNumber ≤ t.date.dayNumber) :
    ∃ total : ℕ, (total : ℤ) = secondsSince options.dateSystem t ∧
      (∀ (twelve : Bool) (unit : ElapsedUnit) (width : Width),
        Token.text options twelve t (.elapsed unit width) = width.text (total / unit.length) ↔
          ¬ (RoundsUp options.dateSystem t ∧ unit.length ∣ total + 1)) ∧
      (∃ hours : ℕ,
        text options (tokenize "[h]:mm:ss".toList) t =
          Decimal.digits hours ++ ':' :: Decimal.padded 2 t.time.minute ++
            ':' :: Decimal.padded 2 t.time.second ∧
        (3600 * hours + 60 * t.time.minute + t.time.second = total ↔
          ¬ (RoundsUp options.dateSystem t ∧ 3600 ∣ total + 1))) ∧
      (t.time.nanosecond < 498000000 → ¬ RoundsUp options.dateSystem t) ∧
      (502000000 ≤ t.time.nanosecond → RoundsUp options.dateSystem t) := by
  obtain ⟨total, h⟩ := Int.eq_ofNat_of_zero_le (Serial.secondsSince_nonneg since)
  have exact := Serial.elapsedSeconds_div_eq_iff since noLeap h.symm
  refine ⟨total, h.symm, ?_, ⟨_, text_clock options t, ?_⟩, Serial.not_roundsUp since,
    Serial.roundsUp since⟩
  · intro twelve unit width
    rw [Token.text, elapsedText_eq, Width.text_inj, exact]
  · rw [clock_sum_iff since h.symm, exact]

/-- In the first half of the last second of an hour all agree. -/
theorem elapsed_iff_in_first_half :
    let t : Timestamp :=
      ⟨{ year := 1900, month := 1, day := 1, valid := by decide },
        ⟨12, 59, 59, 400000000, by decide⟩⟩
    t.time.nanosecond < 1000000000 ∧
      DateSystem.from1900.epoch.dayNumber ≤ t.date.dayNumber ∧
      ∃ total : ℕ, (total : ℤ) = secondsSince .from1900 t ∧
        (∀ (twelve : Bool) (unit : ElapsedUnit) (width : Width),
          Token.text {} twelve t (.elapsed unit width) = width.text (total / unit.length)) ∧
        ∃ hours : ℕ, text {} (tokenize "[h]:mm:ss".toList) t =
            Decimal.digits hours ++ ':' :: Decimal.padded 2 59 ++ ':' :: Decimal.padded 2 59 ∧
          3600 * hours + 60 * 59 + 59 = total := by
  intro t
  have noLeap : t.time.nanosecond < 1000000000 := by decide
  have since : DateSystem.from1900.epoch.dayNumber ≤ t.date.dayNumber := by decide
  obtain ⟨total, h, tokens, ⟨hours, shown, sum⟩, early, -⟩ := elapsed_iff {} t noLeap since
  have exact (p : Prop) : ¬ (RoundsUp .from1900 t ∧ p) := fun up => early (by decide) up.1
  exact ⟨noLeap, since, total, h, fun twelve unit width => (tokens twelve unit width).2 (exact _),
    hours, shown, sum.2 (exact _)⟩

/-- In its second half the hour runs ahead: 36 hours, 59 minutes and 59 seconds are shown as 37. -/
theorem elapsed_runs_ahead :
    let t : Timestamp :=
      ⟨{ year := 1900, month := 1, day := 1, valid := by decide },
        ⟨12, 59, 59, 600000000, by decide⟩⟩
    t.time.nanosecond < 1000000000 ∧
      DateSystem.from1900.epoch.dayNumber ≤ t.date.dayNumber ∧
      secondsSince .from1900 t = 3600 * 36 + 60 * 59 + 59 ∧
      text {} (tokenize "[h]:mm:ss".toList) t = "37:59:59".toList := by
  decide +kernel

end CellDisplay.DateCode
