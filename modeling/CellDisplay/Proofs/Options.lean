import CellDisplay.Proofs.Number.Template

/-! Options reach only what they are for. A number has to do with the point and the separator of a
locale, and these stand in the open places of its template; a point in time has to do with the names
and with the marks of the halves of the day, and with the date system only if time is counted from
the epoch. The padding style reaches nothing (`report_options_confined`). -/
namespace CellDisplay

open Calendar (Timestamp)

/-! ### Points in time -/

/-- Two locales with the same words. -/
structure Locale.SameWords (a b : Locale) : Prop where
  am : a.am = b.am
  pm : a.pm = b.pm
  monthsShort : a.monthsShort = b.monthsShort
  monthsFull : a.monthsFull = b.monthsFull
  daysShort : a.daysShort = b.daysShort
  daysFull : a.daysFull = b.daysFull

namespace DateCode

/-- Either marker of a bare number leaves it bare. -/
theorem numberText_congr (p q : PaddingStyle) (width : Width) (n : ℕ) :
    numberText p width n = numberText q width n := by
  cases width <;> cases p <;> cases q <;> rfl

variable {a b : Options} (words : a.locale.SameWords b.locale) (t : Timestamp)
include words

theorem Token.text_congr {token : Token} (epoch : a.dateSystem = b.dateSystem ∨ ¬ token.isElapsed)
    (twelve : Bool) : token.text a twelve t = token.text b twelve t := by
  cases token with
  | literal | year => rfl
  | month style =>
    simp only [Token.text, monthText, numberText_congr a.padding b.padding, words.monthsShort,
      words.monthsFull]
  | day style =>
    simp only [Token.text, dayText, numberText_congr a.padding b.padding, words.daysShort,
      words.daysFull]
  | hour style => simp only [Token.text, hourText, numberText_congr a.padding b.padding]
  | minute | second => exact numberText_congr _ _ _ _
  | meridiem style => simp only [Token.text, meridiemText, words.am, words.pm]
  | elapsed unit width =>
    have same : a.dateSystem = b.dateSystem := epoch.resolve_right fun none => none rfl
    rw [Token.text, Token.text, same]

theorem text_congr {tokens : List Token}
    (epoch : a.dateSystem = b.dateSystem ∨ ¬ tokens.any Token.isElapsed) :
    text a tokens t = text b tokens t := by
  have each (token : Token) (mem : token ∈ tokens) (twelve : Bool) :
      token.text a twelve t = token.text b twelve t :=
    Token.text_congr words t
      (epoch.imp_right fun none elapsed => none (List.any_eq_true.2 ⟨token, mem, elapsed⟩)) twelve
  unfold text
  split
  · exact List.flatMap_congr fun token mem => each token mem _
  · rfl

end DateCode

theorem writeTimestamp_congr {a b : Options} (words : a.locale.SameWords b.locale) {code : String}
    (epoch : a.dateSystem = b.dateSystem ∨
      ¬ (DateCode.tokenize code.toList).any DateCode.Token.isElapsed) (t : Timestamp) :
    writeTimestamp a code t = writeTimestamp b code t := by
  rw [writeTimestamp, writeTimestamp, DateCode.text_congr words t epoch]

/-- A date or a timestamp is written with the words of a locale, and in the date system if the code
counts the time since its epoch. -/
theorem report_date_congr {a b : Options} (words : a.locale.SameWords b.locale) {code : String}
    (epoch : a.dateSystem = b.dateSystem ∨
      ¬ (DateCode.tokenize code.toList).any DateCode.Token.isElapsed)
    {value : Value} (noSerial : ∀ x, value ≠ .number x) :
    report a .date code value = report b .date code value := by
  have written := writeTimestamp_congr words epoch
  cases value with
  | number x => exact absurd rfl (noSerial x)
  | date d => rw [report, report, written]
  | timestamp t => rw [report, report, written]

/-! ### Numbers -/

/-- Two texts of a number from one template. They have the same length and differ only where the
point or a separator stands. -/
structure FromTemplate (template : List Piece) (a b : Locale) (s t : String) : Prop where
  left : s.toList = template.map (Piece.write a)
  right : t.toList = template.map (Piece.write b)
  onePoint : template.count .point ≤ 1
  length : s.length = t.length
  signs : ∀ i : ℕ, s.toList[i]? ≠ t.toList[i]? →
    template[i]? = some .point ∨ template[i]? = some .separator

theorem fromTemplate_of_eq {template : List Piece} {a b : Locale} {s t : String}
    (onePoint : template.count .point ≤ 1) (left : s.toList = template.map (Piece.write a))
    (right : t.toList = template.map (Piece.write b)) : FromTemplate template a b s t where
  left := left
  right := right
  onePoint := onePoint
  length := by
    rw [← String.length_toList, ← String.length_toList, left, right, List.length_map,
      List.length_map]
  signs i differ := by
    rw [left, right, List.getElem?_map, List.getElem?_map] at differ
    cases place : template[i]? with
    | none => simp [place] at differ
    | some piece =>
      rw [place, Option.map_some, Option.map_some, ne_eq, Option.some_inj] at differ
      simpa using (piece.write_eq_or a b).resolve_left differ

/-- What two reports for one number and one code have in common: both fail alike, or both texts are
from one template. -/
inductive SameTemplate (template : List Piece) (a b : Locale) :
    Except RenderError Rendered → Except RenderError Rendered → Prop
  | error (e : RenderError) : SameTemplate template a b (.error e) (.error e)
  | ok {s t : String} (category : Category) (degradation : Option Degradation)
    (texts : FromTemplate template a b s t) :
    SameTemplate template a b (.ok ⟨s, category, degradation⟩) (.ok ⟨t, category, degradation⟩)

variable {a b : Options} (code : String) (x : Binary64)

theorem report_numeric_congr (point : a.locale.point = b.locale.point)
    (separator : a.locale.separator = b.locale.separator) :
    report a .numeric code (.number x) = report b .numeric code (.number x) := by
  rw [report, report, Number.writeNumber_congr point separator]

theorem report_numeric_sameTemplate (left : a.locale.point ≠ '0') (right : b.locale.point ≠ '0') :
    SameTemplate (Number.template (Category.ofCode .numeric code.toList) code.toList x)
      a.locale b.locale (report a .numeric code (.number x))
      (report b .numeric code (.number x)) := by
  rw [report, report]
  split
  · have texts := fromTemplate_of_eq (Number.count_point_template_le _ _ _)
      (Number.writeNumber_text left (Category.ofCode .numeric code.toList) code x)
      (Number.writeNumber_text right (Category.ofCode .numeric code.toList) code x)
    dsimp only
    rw [Number.writeNumber_degradation a.locale b.locale]
    exact .ok _ _ texts
  · exact .error _

/-- A number that is written as a fraction or as it is has no signs of a locale. -/
theorem report_numeric_plain
    (category : Category.ofCode .numeric code.toList = .fraction ∨
      Category.ofCode .numeric code.toList = .general) :
    report a .numeric code (.number x) = report b .numeric code (.number x) := by
  rcases category with h | h <;> simp only [report, h] <;> rfl

/-- Whatever the first guess of an exponent is, two locales write exponential notation from one
template. -/
theorem scientificFrom_fromTemplate {a b : Locale} (left : a.point ≠ '0') (right : b.point ≠ '0')
    (code : List Char) (start : ℤ) (x : Binary64) :
    FromTemplate (Number.scientificPieces (FormatCode.decimals code) x start) a b
      (.ofList (Number.scientificFrom start (Number.decimalLayout a code) x))
      (.ofList (Number.scientificFrom start (Number.decimalLayout b code) x)) := by
  have written {locale : Locale} (noZero : locale.point ≠ '0') :
      (String.ofList (Number.scientificFrom start (Number.decimalLayout locale code) x)).toList =
        (Number.scientificPieces (FormatCode.decimals code) x start).map (Piece.write locale) := by
    rw [String.toList_ofList, Number.map_write_scientificPieces _ _ _ noZero]
    rfl
  exact fromTemplate_of_eq (Number.count_point_scientificPieces_le _ _ _) (written left)
    (written right)

/-- Options reach only what they are for. In exponential notation that holds for every first guess
of the exponent, and the logarithm is one. -/
theorem report_options_confined (a b : Options) (code : String) :
    (∀ x, a.locale.point = b.locale.point → a.locale.separator = b.locale.separator →
      report a .numeric code (.number x) = report b .numeric code (.number x)) ∧
    (∀ x, a.locale.point ≠ '0' → b.locale.point ≠ '0' →
      SameTemplate (Number.template (Category.ofCode .numeric code.toList) code.toList x)
        a.locale b.locale (report a .numeric code (.number x))
        (report b .numeric code (.number x))) ∧
    (∀ x, Category.ofCode .numeric code.toList = .fraction ∨
        Category.ofCode .numeric code.toList = .general →
      report a .numeric code (.number x) = report b .numeric code (.number x)) ∧
    (∀ value, (∀ x, value ≠ .number x) → a.locale.SameWords b.locale →
      (a.dateSystem = b.dateSystem ∨
        ¬ (DateCode.tokenize code.toList).any DateCode.Token.isElapsed) →
      report a .date code value = report b .date code value) ∧
    (∀ (locale : Locale) (x : Binary64.Finite), x.isZero = false →
      Number.exponential locale code.toList (.finite x) =
        Number.scientificFrom x.abs.logarithm (Number.decimalLayout locale code.toList)
          (.finite x)) ∧
    ∀ (start : ℤ) (x : Binary64),
      (a.locale.point = b.locale.point →
        Number.scientificFrom start (Number.decimalLayout a.locale code.toList) x =
          Number.scientificFrom start (Number.decimalLayout b.locale code.toList) x) ∧
      (a.locale.point ≠ '0' → b.locale.point ≠ '0' →
        FromTemplate (Number.scientificPieces (FormatCode.decimals code.toList) x start)
          a.locale b.locale
          (.ofList (Number.scientificFrom start (Number.decimalLayout a.locale code.toList) x))
          (.ofList (Number.scientificFrom start (Number.decimalLayout b.locale code.toList) x))) :=
  ⟨fun x => report_numeric_congr code x, fun x => report_numeric_sameTemplate code x,
    fun x => report_numeric_plain code x,
    fun _ noSerial words epoch => report_date_congr words epoch noSerial,
    fun _ _ nonzero => Number.scientific_of_nonzero _ nonzero,
    fun start x => ⟨fun point => by rw [Number.decimalLayout, Number.decimalLayout, point],
      fun left right => scientificFrom_fromTemplate left right code.toList start x⟩⟩

/-- The signs of a German text, with each other option another one too. The exponent of the number
is 3, and 4 is a first guess as good as that. -/
theorem report_options_confined_german :
    let german : Options :=
      { padding := .hash, dateSystem := .from1904
        locale := { Locale.enUS with point := ',', separator := '.' } }
    let v : Binary64.Finite := ⟨false, 5429388417957888, -42, by decide⟩
    let x : Binary64 := .finite v
    let day : Value := .date { year := 2024, month := 3, day := 5, valid := by decide }
    SameTemplate (Number.template .currency "#,##0.00".toList x) Locale.enUS german.locale
        (report {} .numeric "#,##0.00" (.number x))
        (report german .numeric "#,##0.00" (.number x)) ∧
      render {} .numeric "#,##0.00" (.number x) = .ok "1,234.50" ∧
      render german .numeric "#,##0.00" (.number x) = .ok "1.234,50" ∧
      report { german with locale := .enUS } .numeric "#,##0.00" (.number x) =
        report {} .numeric "#,##0.00" (.number x) ∧
      report german .numeric "# ?/?" (.number x) = report {} .numeric "# ?/?" (.number x) ∧
      report german .date "d mmm yyyy" day = report {} .date "d mmm yyyy" day ∧
      Number.exponential german.locale "0.00E+00".toList x =
        Number.scientificFrom v.abs.logarithm
          (Number.decimalLayout german.locale "0.00E+00".toList) x ∧
      FromTemplate (Number.scientificPieces 2 x 4) Locale.enUS german.locale
        (.ofList (Number.scientificFrom 4 (Number.decimalLayout .enUS "0.00E+00".toList) x))
        (.ofList
          (Number.scientificFrom 4 (Number.decimalLayout german.locale "0.00E+00".toList) x)) ∧
      Number.scientificFrom 4 (Number.decimalLayout .enUS "0.00E+00".toList) x =
        "1.23E+03".toList ∧
      Number.scientificFrom 4 (Number.decimalLayout german.locale "0.00E+00".toList) x =
        "1,23E+03".toList := by
  intro german v x day
  obtain ⟨-, signs, -⟩ := report_options_confined {} german "#,##0.00"
  obtain ⟨same, -⟩ := report_options_confined { german with locale := .enUS } {} "#,##0.00"
  obtain ⟨-, -, plain, -⟩ := report_options_confined german {} "# ?/?"
  obtain ⟨-, -, -, date, -, -⟩ := report_options_confined german {} "d mmm yyyy"
  obtain ⟨-, -, -, -, logarithm, guesses⟩ := report_options_confined {} german "0.00E+00"
  have anyGuess := (guesses 4 x).2 (by decide) (by decide)
  refine ⟨signs x (by decide) (by decide), by decide +kernel, by decide +kernel, same x rfl rfl,
    plain x (.inl (by decide)), date day (fun _ => by simp [day]) ⟨rfl, rfl, rfl, rfl, rfl, rfl⟩
      (.inr (by decide +kernel)), logarithm german.locale v (by decide), anyGuess,
    by decide +kernel, by decide +kernel⟩

end CellDisplay
