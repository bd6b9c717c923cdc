/-! Decimal digits of natural numbers and the decimal exponent of a rational. A digit text is a
list of characters, most significant first. -/
namespace CellDisplay.Decimal

/-- The digits without leading zeros; the number 0 has one digit. -/
def digits (n : Nat) : List Char := Nat.toDigits 10 n

/-- At least `width` digits, filled up with zeros on the left. -/
def padded (width n : Nat) : List Char := (digits n).leftpad width '0'

/-- The whole number with its sign; a minus sign takes one of the `width` places. -/
def paddedInt (width : Nat) (n : Int) : List Char :=
  if n < 0 then '-' :: padded (width - 1) n.natAbs else padded width n.natAbs

def dropTrailingZeros (text : List Char) : List Char :=
  (text.reverse.dropWhile (· = '0')).reverse

/-- The exponent of the highest power of ten that is not above a positive rational. The digit
counts of numerator and denominator leave two candidates. -/
def floorLog10 (q : Rat) : Int :=
  let estimate : Int := ((digits q.num.natAbs).length : Int) - ((digits q.den).length : Int)
  if (10 : Rat) ^ estimate ≤ q then estimate else estimate - 1

end CellDisplay.Decimal
