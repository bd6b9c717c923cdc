import CellDisplay.Binary64.Basic
import CellDisplay.Decimal.Digits

/-! The whole part of a common logarithm that is rounded to a double first. Just below a power of
ten the rounded logarithm reaches the next whole number, so the result is the decimal exponent of
the number or one more. -/
namespace CellDisplay.Binary64

/-- Half the distance from a whole number other than 0 to the next double below it. -/
def halfGapBelow (k : Int) : Rat := (2 : Rat) ^ (unitExponent ((k : Rat) - 1 / 2).abs - 1)

/-- The natural logarithm of ten to 16 digits. -/
def naturalLogOfTen : Rat := 2302585092994046 / 1000000000000000

/-- Whether the logarithm of a number just below `10 ^ k` rounds to `k`. No logarithm rounds to 0,
where doubles are too dense. -/
def Finite.logarithmReaches (x : Finite) (k : Int) : Bool :=
  k ≠ 0 && 1 - x.magnitude / (10 : Rat) ^ k < halfGapBelow k * naturalLogOfTen

def Finite.logarithm (x : Finite) : Int :=
  let exponent := Decimal.floorLog10 x.magnitude
  if x.logarithmReaches (exponent + 1) then exponent + 1 else exponent

/-- The rounded logarithm's whole part as a 32-bit number: 0 for NaN, the largest for infinities. -/
def logarithm : Binary64 → Int
  | .nan => 0
  | .infinite _ => 2147483647
  | .finite x => x.logarithm

end CellDisplay.Binary64
