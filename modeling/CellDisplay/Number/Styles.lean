import CellDisplay.FormatCode.Placeholders
import CellDisplay.Locale
import CellDisplay.Number.Scientific

/-! Numbers as format codes ask for them: amounts of money, percentages, fixed decimals and
exponential notation. -/
namespace CellDisplay.Number

/-- The decimals that a code asks for, without separators. -/
def decimalLayout (locale : Locale) (code : List Char) : Layout :=
  ⟨FormatCode.decimals code, locale.point, none⟩

/-- The code's symbol before a number with separators. -/
def currency (locale : Locale) (code : List Char) (x : Binary64) : List Char :=
  FormatCode.currencySymbol code ++
    fixedPoint { decimalLayout locale code with separator := some locale.separator } x

/-- A hundred times the number, rounded as a double, before a percent sign. -/
def percentage (locale : Locale) (code : List Char) (x : Binary64) : List Char :=
  fixedPoint ⟨FormatCode.percentDecimals code, locale.point, none⟩ (x * .ofInt 100) ++ ['%']

def fixedDecimal (locale : Locale) (code : List Char) (x : Binary64) : List Char :=
  fixedPoint (decimalLayout locale code) x

def exponential (locale : Locale) (code : List Char) (x : Binary64) : List Char :=
  scientific (decimalLayout locale code) x

end CellDisplay.Number
