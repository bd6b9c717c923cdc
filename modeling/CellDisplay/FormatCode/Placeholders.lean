import CellDisplay.FormatCode.Search

/-! What a number's format code asks for beside its category: how many decimals, and which text to
write before the number. -/
namespace CellDisplay.FormatCode

/-- The count of zeros directly after the first point. -/
def decimals (code : List Char) : Nat :=
  match after? ['.'] code with
  | some rest => (rest.takeWhile (· = '0')).length
  | none => 0

/-- The count of zeros between the last percent sign and the last point before it. -/
def percentDecimals (code : List Char) : Nat :=
  match beforeLast? '%' code with
  | some head => ((afterLast? '.' head).getD []).count '0'
  | none => 0

/-- The text between the first two quotes; one quote alone reaches to the end of the code. -/
def currencySymbol (code : List Char) : List Char :=
  ((after? ['"'] code).getD []).takeWhile (· ≠ '"')

end CellDisplay.FormatCode
