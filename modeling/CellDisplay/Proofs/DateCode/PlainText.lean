import Mathlib.Data.Nat.Digits.Defs
import CellDisplay.Proofs.Calendar.DateOrder
import CellDisplay.Proofs.Number.Numeral
import CellDisplay.Render

/-! The plain text of a timestamp, spelled out by a code. With a year of four digits and no part of
a second every number stands in columns of its own, so the text of `yyyy-mm-dd hh:mm:ss` is the
plain text, and each field can be read back from it. Clock hours that count to twelve are read back
with the mark of the half of the day behind them, as long as the two marks differ
(`writeTimestamp_plain`). -/
namespace CellDisplay

/-! ### Columns of digits -/

theorem Decimal.length_padded {width n : ℕ} (wide : 0 < width) (small : n < 10 ^ width) :
    (padded width n).length = width := by
  have few : (digits n).length ≤ width := Nat.toDigits_length 10 n width wide small
  rw [padded, List.length_leftpad, max_eq_left few]

/-- Numbers in columns of the same width are read back one after the other. -/
theorem Decimal.padded_append_inj {width m n : ℕ} {a b : List Char} (wide : 0 < width)
    (hm : m < 10 ^ width) (hn : n < 10 ^ width) (same : padded width m ++ a = padded width n ++ b) :
    m = n ∧ a = b := by
  have length : (padded width m).length = (padded width n).length := by
    rw [length_padded wide hm, length_padded wide hn]
  obtain ⟨digits, rest⟩ := List.append_inj same length
  exact ⟨by rw [← ofDigitChars_padded width m, digits, ofDigitChars_padded], rest⟩

theorem Decimal.padded_cons_inj {width m n : ℕ} {c : Char} {a b : List Char} (wide : 0 < width)
    (hm : m < 10 ^ width) (hn : n < 10 ^ width)
    (same : padded width m ++ c :: a = padded width n ++ c :: b) : m = n ∧ a = b := by
  obtain ⟨numbers, rest⟩ := padded_append_inj wide hm hn same
  exact ⟨numbers, (List.cons.inj rest).2⟩

namespace Calendar

theorem daysInMonth_le (year : ℤ) (month : ℕ) : daysInMonth year month ≤ 31 := by
  unfold daysInMonth
  split_ifs <;> omega

/-- A year of four digits, and no part of a second. -/
def Timestamp.IsPlain (t : Timestamp) : Prop :=
  (0 ≤ t.date.year ∧ t.date.year ≤ 9999) ∧ t.time.nanosecond = 0

instance (t : Timestamp) : Decidable t.IsPlain := inferInstanceAs (Decidable (_ ∧ _))

end Calendar

namespace DateCode

open Calendar (Timestamp)

/-- The fields of a timestamp in their columns, with a number for the hour, and what follows. -/
def columns (t : Timestamp) (hour : ℕ) (rest : List Char) : List Char :=
  Decimal.padded 4 t.date.year.toNat ++ '-' :: (Decimal.padded 2 t.date.month ++
    '-' :: (Decimal.padded 2 t.date.day ++ ' ' :: (Decimal.padded 2 hour ++
      ':' :: (Decimal.padded 2 t.time.minute ++ ':' :: (Decimal.padded 2 t.time.second ++ rest)))))

variable {s t : Timestamp}

/-- All but the hour is read back from the columns. -/
theorem eq_of_columns (hs : s.IsPlain) (ht : t.IsPlain) {m n : ℕ} {a b : List Char} (hm : m < 100)
    (hn : n < 100) (same : columns s m a = columns t n b) :
    m = n ∧ a = b ∧ (s.time.hour = t.time.hour → s = t) := by
  obtain ⟨⟨fromYear, toYear⟩, wholeSecond⟩ := hs
  obtain ⟨⟨fromYear', toYear'⟩, wholeSecond'⟩ := ht
  obtain ⟨-, month, day⟩ := s.date.valid
  obtain ⟨-, month', day'⟩ := t.date.valid
  obtain ⟨-, minute, second, -⟩ := s.time.valid
  obtain ⟨-, minute', second', -⟩ := t.time.valid
  have days := Calendar.daysInMonth_le s.date.year s.date.month
  have days' := Calendar.daysInMonth_le t.date.year t.date.month
  obtain ⟨years, same⟩ := Decimal.padded_cons_inj (by decide) (by omega) (by omega) same
  obtain ⟨months, same⟩ := Decimal.padded_cons_inj (by decide) (by omega) (by omega) same
  obtain ⟨days, same⟩ := Decimal.padded_cons_inj (by decide) (by omega) (by omega) same
  obtain ⟨numbers, same⟩ := Decimal.padded_cons_inj (by decide) (by omega) (by omega) same
  obtain ⟨minutes, same⟩ := Decimal.padded_cons_inj (by decide) (by omega) (by omega) same
  obtain ⟨seconds, rest⟩ := Decimal.padded_append_inj (by decide) (by omega) (by omega) same
  refine ⟨numbers, rest, fun hours => ?_⟩
  have date : s.date = t.date := by
    have years : s.date.year = t.date.year := by omega
    apply Calendar.Date.eq_of_toYearMonthDay
    rw [Calendar.YearMonthDay.mk.injEq]
    exact ⟨years, months, days⟩
  have time : s.time = t.time := by
    rw [Calendar.Time.mk.injEq]
    exact ⟨hours, minutes, seconds, wholeSecond.trans wholeSecond'.symm⟩
  rw [Timestamp.mk.injEq]
  exact ⟨date, time⟩

/-! ### The code -/

def columnTokens : List Token :=
  [.year .full, .literal ['-'], .month (.number .padded), .literal ['-'], .day (.number .padded),
    .literal [' '], .hour (.clock .padded), .literal [':'], .minute .padded, .literal [':'],
    .second .padded]

theorem tokenize_columns : tokenize "yyyy-mm-dd hh:mm:ss".toList = columnTokens := by
  decide +kernel

theorem tokenize_columns_meridiem :
    tokenize "yyyy-mm-dd hh:mm:ss AM/PM".toList =
      columnTokens ++ [.literal [' '], .meridiem .full] := by
  decide +kernel

theorem flatMap_columnTokens (options : Options) (twelve : Bool) (plain : t.IsPlain)
    (rest : List Char) :
    columnTokens.flatMap (·.text options twelve t) ++ rest =
      columns t (if twelve then twelveHour t.time.hour else t.time.hour) rest := by
  have year : yearText .full t.date.year = Decimal.padded 4 t.date.year.toNat := by
    have number : t.date.year.natAbs = t.date.year.toNat := by
      have fromYear := plain.1.1
      omega
    rw [yearText, Decimal.paddedInt, if_neg (not_lt.2 plain.1.1), number]
  simp [columnTokens, Token.text, year, monthText, dayText, hourText, numberText, columns]

theorem text_eq_columns (plain : t.IsPlain) : t.text = columns t t.time.hour [] := by
  obtain ⟨year, wholeSecond⟩ := plain
  simp [Timestamp.text, Calendar.Date.text, Calendar.yearText, year, Calendar.Time.text,
    Calendar.Time.isLeapSecond, Calendar.Time.fractionText, wholeSecond, columns]

theorem twelveHour_lt {hour : ℕ} (h : hour < 24) : twelveHour hour < 100 := by
  unfold twelveHour
  split_ifs <;> omega

/-- The clock of twelve hours and the half of the day make up the hour. -/
theorem eq_of_twelveHour {m n : ℕ} (hm : m < 24) (hn : n < 24)
    (same : twelveHour m = twelveHour n) (half : 12 ≤ m ↔ 12 ≤ n) : m = n := by
  unfold twelveHour at same
  split_ifs at same <;> omega

theorem meridiemText_full_inj {locale : Locale} (differ : locale.am ≠ locale.pm) {m n : ℕ} :
    meridiemText locale .full m = meridiemText locale .full n ↔ (12 ≤ m ↔ 12 ≤ n) := by
  simp only [meridiemText, String.toList_inj]
  by_cases hm : 12 ≤ m <;> by_cases hn : 12 ≤ n <;> simp [hm, hn, differ, differ.symm]

end DateCode

open DateCode (columns twelveHour meridiemText hasTokens tokenize)

section

variable {t : Calendar.Timestamp} (options : Options)

theorem writeTimestamp_columns (plain : t.IsPlain) :
    (writeTimestamp options "yyyy-mm-dd hh:mm:ss" t).1 = .ofList t.text := by
  have written := DateCode.flatMap_columnTokens options false plain []
  rw [List.append_nil] at written
  rw [writeTimestamp, DateCode.tokenize_columns, DateCode.text_eq_columns plain]
  exact congrArg String.ofList written

theorem writeTimestamp_columns_meridiem (plain : t.IsPlain) :
    (writeTimestamp options "yyyy-mm-dd hh:mm:ss AM/PM" t).1 =
      .ofList (columns t (twelveHour t.time.hour)
        (' ' :: meridiemText options.locale .full t.time.hour)) := by
  have written := DateCode.flatMap_columnTokens options true plain
    (' ' :: meridiemText options.locale .full t.time.hour)
  rw [writeTimestamp, DateCode.tokenize_columns_meridiem]
  have split :
      DateCode.text options (DateCode.columnTokens ++ [.literal [' '], .meridiem .full]) t =
        DateCode.columnTokens.flatMap (·.text options true t) ++
          ' ' :: meridiemText options.locale .full t.time.hour := by
    rw [← List.append_nil (meridiemText _ _ _)]
    exact List.flatMap_append
  exact congrArg String.ofList (split.trans written)

theorem writeTimestamp_of_no_tokens {code : String}
    (bare : hasTokens (tokenize code.toList) = false) (t : Calendar.Timestamp) :
    (writeTimestamp options code t).1 = .ofList t.text := by
  rw [writeTimestamp, DateCode.text, if_neg (by simp [bare])]

end

/-- The same day at noon. -/
def Calendar.Date.atNoon (d : Date) : Timestamp := ⟨d, 12, 0, 0, 0, by decide⟩

/-- Under equal marks midnight and noon have the same text. -/
theorem writeTimestamp_midnight_eq_noon {options : Options}
    (same : options.locale.am = options.locale.pm) {d : Calendar.Date} (plain : d.atNoon.IsPlain) :
    (writeTimestamp options "yyyy-mm-dd hh:mm:ss AM/PM" d.atMidnight).1 =
      (writeTimestamp options "yyyy-mm-dd hh:mm:ss AM/PM" d.atNoon).1 := by
  have plain' : d.atMidnight.IsPlain := ⟨plain.1, rfl⟩
  rw [writeTimestamp_columns_meridiem options plain, writeTimestamp_columns_meridiem options plain']
  simp [meridiemText, same, Calendar.Date.atNoon, Calendar.Date.atMidnight, Calendar.Time.midnight,
    columns, twelveHour]

/-- A plain timestamp is written faithfully: in columns it has the plain text, as under every code
without tokens, no two share it, and no two share their text on the clock of twelve hours just when
the marks of the two halves of the day differ. -/
theorem writeTimestamp_plain (options : Options) :
    (∀ t : Calendar.Timestamp, t.IsPlain → ∀ other : String,
      hasTokens (tokenize other.toList) = false →
        (writeTimestamp options "yyyy-mm-dd hh:mm:ss" t).1 = .ofList t.text ∧
          (writeTimestamp options other t).1 = .ofList t.text) ∧
    Set.InjOn (fun t => (writeTimestamp options "yyyy-mm-dd hh:mm:ss" t).1)
      {t | t.IsPlain} ∧
    (Set.InjOn (fun t => (writeTimestamp options "yyyy-mm-dd hh:mm:ss AM/PM" t).1)
      {t | t.IsPlain} ↔ options.locale.am ≠ options.locale.pm) := by
  refine ⟨fun t plain other bare => ⟨writeTimestamp_columns options plain,
    writeTimestamp_of_no_tokens options bare t⟩, fun s hs t ht same => ?_,
    fun injective equal => ?_, fun differ s hs t ht same => ?_⟩
  · have early := s.time.valid.1
    have early' := t.time.valid.1
    simp only [writeTimestamp_columns options hs, writeTimestamp_columns options ht,
      String.ofList_inj, DateCode.text_eq_columns hs, DateCode.text_eq_columns ht] at same
    obtain ⟨hour, -, rest⟩ := DateCode.eq_of_columns hs ht (by omega) (by omega) same
    exact rest hour
  · let d : Calendar.Date := { year := 2000, month := 1, day := 1, valid := by decide }
    have shared : d.atMidnight = d.atNoon :=
      injective (by decide) (by decide) (writeTimestamp_midnight_eq_noon equal (by decide))
    exact absurd shared (by decide)
  · have early := s.time.valid.1
    have early' := t.time.valid.1
    simp only [writeTimestamp_columns_meridiem options hs,
      writeTimestamp_columns_meridiem options ht, String.ofList_inj] at same
    obtain ⟨hour, marks, rest⟩ := DateCode.eq_of_columns hs ht (DateCode.twelveHour_lt early)
      (DateCode.twelveHour_lt early') same
    have half := (DateCode.meridiemText_full_inj differ).1 (List.cons.inj marks).2
    exact rest (DateCode.eq_of_twelveHour early early' hour half)

/-- Noon of a day in English, under a code without tokens too, and apart from midnight. -/
theorem writeTimestamp_plain_noon :
    let d : Calendar.Date := { year := 2024, month := 2, day := 29, valid := by decide }
    d.atNoon.IsPlain ∧ hasTokens (tokenize "General".toList) = false ∧
      Locale.enUS.am ≠ Locale.enUS.pm ∧
      (writeTimestamp {} "yyyy-mm-dd hh:mm:ss" d.atNoon).1 = "2024-02-29 12:00:00" ∧
      (writeTimestamp {} "General" d.atNoon).1 = "2024-02-29 12:00:00" ∧
      (writeTimestamp {} "yyyy-mm-dd hh:mm:ss AM/PM" d.atMidnight).1 ≠
        (writeTimestamp {} "yyyy-mm-dd hh:mm:ss AM/PM" d.atNoon).1 := by
  intro d
  have plain : d.atNoon.IsPlain := by decide
  have bare : hasTokens (tokenize "General".toList) = false := by decide +kernel
  have differ : Locale.enUS.am ≠ Locale.enUS.pm := by decide
  have shown : String.ofList d.atNoon.text = "2024-02-29 12:00:00" := by decide +kernel
  obtain ⟨texts, -, twelve⟩ := writeTimestamp_plain {}
  obtain ⟨written, fallback⟩ := texts _ plain _ bare
  refine ⟨plain, bare, differ, written.trans shown, fallback.trans shown, fun same => ?_⟩
  have shared : d.atMidnight = d.atNoon := twelve.2 differ (by decide) (by decide) same
  exact absurd shared (by decide)

end CellDisplay
