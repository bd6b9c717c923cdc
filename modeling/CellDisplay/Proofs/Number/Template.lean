import CellDisplay.Proofs.Number.Mantissa
import CellDisplay.Render

/-! What a locale has to do with the text of a number. A template is a text in which the places of
the point and of the separators are left open. Code and number alone make a template, and the text
under a locale is the template with its two signs filled in (`writeNumber_text`). Exponential
notation looks for a ten in a text that has the point in it already; a point that is no zero does
not mislead it (`startsWithTen_fixedPoint`). -/
namespace CellDisplay

/-- One place of a text: a character that is the same under every locale, or a sign of the
locale. -/
inductive Piece where
  | char (c : Char)
  | point
  | separator
  deriving DecidableEq

namespace Piece

def write (locale : Locale) : Piece → Char
  | char c => c
  | point => locale.point
  | separator => locale.separator

/-- A text without signs of a locale. -/
def plain (text : List Char) : List Piece := text.map char

@[simp] theorem map_write_plain (locale : Locale) (text : List Char) :
    (plain text).map (write locale) = text := by
  simp [plain, Function.comp_def, write]

/-- A separator before every group of three digits counted from the right, never first. -/
def grouped : List Char → List Piece
  | [] => []
  | c :: rest =>
    if rest ≠ [] ∧ rest.length % 3 = 0 then .char c :: .separator :: grouped rest
    else .char c :: grouped rest

@[simp] theorem map_write_grouped (locale : Locale) (digits : List Char) :
    (grouped digits).map (write locale) = Number.grouped locale.separator digits := by
  induction digits with
  | nil => rfl
  | cons c rest ih =>
    rw [grouped, Number.grouped]
    split <;> simp [write, ih]

@[simp] theorem count_point_plain (text : List Char) : (plain text).count .point = 0 := by
  simp [plain, List.count_eq_zero]

@[simp] theorem count_point_grouped (digits : List Char) : (grouped digits).count .point = 0 := by
  induction digits with
  | nil => rfl
  | cons c rest ih =>
    rw [grouped]
    split <;> simp [ih]

/-- A sign of the locale is the only thing that two locales can write differently. -/
theorem write_eq_or (a b : Locale) (piece : Piece) :
    piece.write a = piece.write b ∨ piece = .point ∨ piece = .separator := by
  cases piece <;> simp [write]

end Piece

namespace Number

open Piece (plain)

variable (decimals : ℕ) (isGrouped : Bool) (x : Binary64)

/-! ### Fixed decimals -/

/-- All that is written of a number but signs, at least one character more than there are
decimals. -/
def laidOut : List Char := (scaledDigits decimals x).leftpad (decimals + 1) '0'

/-- What stands before the point. -/
def whole : List Char := (laidOut decimals x).take ((laidOut decimals x).length - decimals)

/-- The layout of a locale. -/
def layoutFor (locale : Locale) : Layout :=
  ⟨decimals, locale.point, if isGrouped then some locale.separator else none⟩

def wholePieces : List Piece :=
  if isGrouped then Piece.grouped (whole decimals x) else plain (whole decimals x)

theorem map_write_wholePieces (locale : Locale) :
    (wholePieces decimals isGrouped x).map (Piece.write locale) =
      (layoutFor decimals isGrouped locale).wholePart (whole decimals x) := by
  cases isGrouped with
  | false => exact Piece.map_write_plain locale _
  | true => exact Piece.map_write_grouped locale _

theorem count_point_wholePieces : (wholePieces decimals isGrouped x).count .point = 0 := by
  cases isGrouped with
  | false => exact Piece.count_point_plain _
  | true => exact Piece.count_point_grouped _

/-- The template of a number with a fixed count of decimals. -/
def pieces : List Piece :=
  plain (if x.lt .zero && (laidOut decimals x).any (· ≠ '0') then ['-'] else []) ++
    wholePieces decimals isGrouped x ++
    if decimals = 0 then []
    else .point :: plain ((laidOut decimals x).drop ((laidOut decimals x).length - decimals))

theorem map_write_pieces (locale : Locale) :
    (pieces decimals isGrouped x).map (Piece.write locale) =
      fixedPoint (layoutFor decimals isGrouped locale) x := by
  have fractionPart (digits : List Char) :
      (if decimals = 0 then [] else .point :: plain digits).map (Piece.write locale) =
        (layoutFor decimals isGrouped locale).fractionPart digits := by
    rw [Layout.fractionPart, layoutFor]
    split
    · rfl
    · rw [List.map_cons, Piece.map_write_plain, Piece.write]
  rw [pieces, List.map_append, List.map_append, Piece.map_write_plain, map_write_wholePieces,
    fractionPart]
  rfl

theorem count_point_pieces_le : (pieces decimals isGrouped x).count .point ≤ 1 := by
  rw [pieces, List.count_append, List.count_append, count_point_wholePieces,
    Piece.count_point_plain]
  split <;> simp

theorem minus_not_mem_scaledDigits : '-' ∉ scaledDigits decimals x := by
  cases x with
  | nan =>
    show '-' ∉ "NaN".toList
    decide
  | infinite =>
    show '-' ∉ "inf".toList
    decide
  | finite x => exact fun mem => ne_minus_of_isDigit (Decimal.isDigit_of_mem_digits mem) rfl

theorem minus_not_mem_whole : '-' ∉ whole decimals x := by
  intro mem
  have mem := List.mem_of_mem_take mem
  rw [laidOut, List.leftpad, List.mem_append, List.mem_replicate] at mem
  rcases mem with ⟨-, zero⟩ | mem
  · exact absurd zero (by decide)
  · exact minus_not_mem_scaledDigits decimals x mem

theorem whole_ne_nil : whole decimals x ≠ [] := by
  have long : decimals + 1 ≤ (laidOut decimals x).length := by
    rw [laidOut, List.length_leftpad]
    exact le_max_left _ _
  rw [← List.length_pos_iff, whole, List.length_take]
  omega

/-- Whether a mantissa is a ten depends on its whole part. -/
theorem startsWithTen_fixedPoint {layout : Layout} (separator : layout.separator = none)
    (noZero : layout.point ≠ '0') :
    startsWithTen (fixedPoint layout x) = ['1', '0'].isPrefixOf (whole layout.decimals x) := by
  have minus (b : Bool) : (if b then ['-'] else []) = [] ∨ (if b then ['-'] else []) = ['-'] := by
    cases b <;> simp
  rw [fixedPoint, Layout.text, Layout.wholePart_eq separator]
  refine startsWithTen_append (minus _) (whole_ne_nil _ _) (minus_not_mem_whole _ _) ?_
  rw [Layout.fractionPart]
  split
  · simp
  · simpa using noZero

/-! ### Exponential notation -/

section

variable (start : ℤ)

/-- The exponent that is written behind a mantissa with a point, from a first guess. -/
def writtenExponent : ℤ := finalExponent start ⟨decimals, '.', none⟩ x

/-- Which exponent is written does not depend on the point. -/
theorem finalExponent_eq {layout : Layout} (separator : layout.separator = none)
    (noZero : layout.point ≠ '0') :
    finalExponent start layout x = writtenExponent layout.decimals x start := by
  have noZero' : '.' ≠ '0' := by decide
  rw [writtenExponent, finalExponent, finalExponent, mantissa, mantissa,
    startsWithTen_fixedPoint _ separator noZero, startsWithTen_fixedPoint _ rfl noZero']

/-- The template of mantissa and exponent. -/
def scientificPieces : List Piece :=
  pieces decimals false (scaleDown x (writtenExponent decimals x start)) ++
    plain (exponentText (writtenExponent decimals x start))

theorem map_write_scientificPieces {locale : Locale} (noZero : locale.point ≠ '0') :
    (scientificPieces decimals x start).map (Piece.write locale) =
      scientificFrom start ⟨decimals, locale.point, none⟩ x := by
  rw [scientificPieces, List.map_append, map_write_pieces, Piece.map_write_plain,
    scientificFrom_eq, finalExponent_eq _ _ rfl noZero]
  rfl

theorem count_point_scientificPieces_le :
    (scientificPieces decimals x start).count .point ≤ 1 := by
  rw [scientificPieces, List.count_append, Piece.count_point_plain]
  simpa using count_point_pieces_le _ _ _

end

/-- The template of exponential notation. -/
def exponentialPieces : List Piece :=
  if x.isZero then pieces decimals false .zero ++ plain (exponentText 0)
  else scientificPieces decimals x x.abs.logarithm

theorem map_write_exponentialPieces {locale : Locale} (noZero : locale.point ≠ '0') :
    (exponentialPieces decimals x).map (Piece.write locale) =
      scientific ⟨decimals, locale.point, none⟩ x := by
  rw [exponentialPieces, scientific]
  split
  · rw [List.map_append, map_write_pieces, Piece.map_write_plain]
    rfl
  · exact map_write_scientificPieces _ _ _ noZero

/-! ### Every category -/

/-- The template of a number under a code of the given category. -/
def template (category : Category) (code : List Char) (x : Binary64) : List Piece :=
  match category with
  | .currency => plain (FormatCode.currencySymbol code) ++ pieces (FormatCode.decimals code) true x
  | .percentage =>
    pieces (FormatCode.percentDecimals code) false (x * .ofInt 100) ++ plain ['%']
  | .scientific => exponentialPieces (FormatCode.decimals code) x
  | .fixedDecimal => pieces (FormatCode.decimals code) false x
  | .fraction =>
    match Fraction.Spec.ofCode? code with
    | some spec => plain (Fraction.text spec x)
    | none => plain x.text
  | .general | .dateTime => plain x.text

/-- A number has no more than one point. -/
theorem count_point_template_le (category : Category) (code : List Char) (x : Binary64) :
    (template category code x).count .point ≤ 1 := by
  cases category with
  | currency | percentage =>
    rw [template, List.count_append, Piece.count_point_plain]
    simpa using count_point_pieces_le _ _ _
  | scientific =>
    rw [template, exponentialPieces]
    split
    · simpa using count_point_pieces_le _ _ _
    · exact count_point_scientificPieces_le _ _ _
  | fixedDecimal => exact count_point_pieces_le _ _ _
  | fraction =>
    rw [template]
    cases Fraction.Spec.ofCode? code <;> simp
  | general | dateTime => simp [template]

theorem toList_ofList_plain (locale : Locale) (text : List Char) :
    (String.ofList text).toList = (plain text).map (Piece.write locale) := by
  rw [String.toList_ofList, Piece.map_write_plain]

/-- The text of a number is its template with the signs of the locale filled in. -/
theorem writeNumber_text {locale : Locale} (noZero : locale.point ≠ '0') (category : Category)
    (code : String) (x : Binary64) :
    (writeNumber locale category code x).1.toList =
      (template category code.toList x).map (Piece.write locale) := by
  cases category with
  | currency | percentage =>
    rw [writeNumber, template, String.toList_ofList, List.map_append, Piece.map_write_plain,
      map_write_pieces]
    rfl
  | scientific =>
    rw [writeNumber, template, String.toList_ofList, map_write_exponentialPieces _ _ noZero]
    rfl
  | fixedDecimal =>
    rw [writeNumber, template, String.toList_ofList, map_write_pieces]
    rfl
  | fraction =>
    rw [writeNumber, template]
    cases Fraction.Spec.ofCode? code.toList <;> exact toList_ofList_plain locale _
  | general | dateTime => exact toList_ofList_plain locale _

/-- What was not understood of a code does not depend on the locale. -/
theorem writeNumber_degradation (a b : Locale) (category : Category) (code : String)
    (x : Binary64) : (writeNumber a category code x).2 = (writeNumber b category code x).2 := by
  cases category <;> rfl

/-- Only the two signs of a locale are read. -/
theorem writeNumber_congr {a b : Locale} (point : a.point = b.point)
    (separator : a.separator = b.separator) (category : Category) (code : String) (x : Binary64) :
    writeNumber a category code x = writeNumber b category code x := by
  cases category <;>
    simp only [writeNumber, currency, percentage, exponential, fixedDecimal, decimalLayout, point,
      separator]

end Number

end CellDisplay
