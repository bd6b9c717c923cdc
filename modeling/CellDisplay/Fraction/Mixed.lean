import CellDisplay.Decimal.Shortest
import CellDisplay.Fraction.Approximation
import CellDisplay.Fraction.Spec

/-! Mixed numbers: the floor of a number, a blank, and the rest as a fraction, so a negative number
counts up from the whole number below it. A numerator of zero is written too. -/
namespace CellDisplay.Fraction

/-- The nearest numerator over a fixed denominator; a half goes up. -/
def fixedNumerator (rest : Binary64) (denominator : Nat) : Nat :=
  (rest * .ofInt denominator).round.toInt.toNat

/-- Whether an approximation is asked for with a limit that leaves none to choose. -/
def Spec.overflows (spec : Spec) : Bool := spec.mode = .approximate && spec.limit ≤ 1

/-- The fraction for the part of a number above its floor. -/
def Spec.ratio (spec : Spec) (rest : Binary64) : Ratio :=
  if spec.mode = .approximate && !spec.overflows then best rest spec.limit
  else ⟨fixedNumerator rest spec.limit, spec.limit⟩

/-- The mixed number. What is not finite is written by its name and an empty fraction, which is the
text over a fixed denominator only: the search for a best fraction does not end there. -/
def text (spec : Spec) : Binary64 → List Char
  | .finite x =>
    let whole := x.value.floor
    Decimal.paddedInt 1 whole ++ ' ' :: (spec.ratio (.finite x - .ofInt whole)).text
  | other => other.text ++ ' ' :: (Ratio.mk 0 spec.limit).text

end CellDisplay.Fraction
