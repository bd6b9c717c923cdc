import CellDisplay.Binary64.Logarithm
import CellDisplay.Number.FixedPoint

/-! Exponential notation. The exponent starts from the whole part of the logarithm, moves by one
where the scaled number is not between 1 and 10, and by one more where the mantissa rounds up
to 10. -/
namespace CellDisplay.Number

/-- The quotient `x / 10 ^ exponent`. A negative power is multiplied on, in two halves where one
power of ten would overflow. -/
def scaleDown (x : Binary64) (exponent : Int) : Binary64 :=
  if 0 ≤ exponent then x / .powerOfTen exponent.toNat
  else
    let n := (-exponent).toNat
    if n < 300 then x * .powerOfTen n
    else x * .powerOfTen (n / 2) * .powerOfTen (n - n / 2)

/-- The exponent moved by one if the number scaled by it is not between 1 and 10. -/
def adjustedExponent (start : Int) (x : Binary64) : Int :=
  let magnitude := scaleDown x.abs start
  if (Binary64.ofInt 10).le magnitude then start + 1
  else if magnitude.lt (.ofInt 1) then start - 1
  else start

/-- A sign and at least two digits behind the letter. -/
def exponentText (exponent : Int) : List Char :=
  'E' :: (if exponent < 0 then '-' else '+') :: Decimal.padded 2 exponent.natAbs

/-- Whether a written mantissa has rounded up to 10. -/
def startsWithTen (mantissa : List Char) : Bool :=
  ['1', '0'].isPrefixOf (mantissa.dropWhile (· = '-'))

def mantissa (layout : Layout) (x : Binary64) (exponent : Int) : List Char :=
  fixedPoint layout (scaleDown x exponent)

/-- Mantissa and exponent, from a first guess of the exponent. -/
def scientificFrom (start : Int) (layout : Layout) (x : Binary64) : List Char :=
  let exponent := adjustedExponent start x
  let exponent :=
    if startsWithTen (mantissa layout x exponent) then exponent + 1 else exponent
  mantissa layout x exponent ++ exponentText exponent

/-- Zero has the exponent 0. -/
def scientific (layout : Layout) (x : Binary64) : List Char :=
  if x.isZero then fixedPoint layout .zero ++ exponentText 0
  else scientificFrom x.abs.logarithm layout x

end CellDisplay.Number
