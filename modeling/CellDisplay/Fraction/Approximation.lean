import CellDisplay.Binary64.Arithmetic
import CellDisplay.Decimal.Digits

/-! The best fraction with a bounded denominator. The continued fraction of a number gives
fractions that come closer with every partial quotient; past the last one within the limit, the
only other candidate is a blend of the last two. Both errors are compared in doubles, and the
simpler fraction wins a tie. -/
namespace CellDisplay

structure Ratio where
  numerator : Nat
  denominator : Nat
  deriving DecidableEq, Repr

def Ratio.text (r : Ratio) : List Char :=
  Decimal.digits r.numerator ++ '/' :: Decimal.digits r.denominator

namespace Fraction

/-- Two successive fractions `p₀ / q₀` and `p₁ / q₁` of a continued fraction. -/
structure Convergents where
  p₀ : Nat
  q₀ : Nat
  p₁ : Nat
  q₁ : Nat
  deriving DecidableEq, Repr

namespace Convergents

/-- The pair moved on by `a` times its second member. -/
def next (c : Convergents) (a : Nat) : Convergents := ⟨c.p₁, c.q₁, c.p₀ + a * c.p₁, c.q₀ + a * c.q₁⟩

def last (c : Convergents) : Ratio := ⟨c.p₁, c.q₁⟩

/-- The first member plus the second as often as the limit of the denominator allows. -/
def blend (c : Convergents) (limit : Nat) : Ratio :=
  let k := (limit - c.q₀) / c.q₁
  ⟨c.p₀ + k * c.p₁, c.q₀ + k * c.q₁⟩

end Convergents

/-- A remainder below a billionth counts as none. -/
def negligible (remainder : Binary64) : Bool := remainder.lt (.ofRat false (1 / 1000000000))

/-- The distance from a fraction to a number, with the quotient and the difference rounded. -/
def error (x : Binary64) (r : Ratio) : Binary64 :=
  (Binary64.ofInt r.numerator / Binary64.ofInt r.denominator - x).abs

/-- The better one of the last fraction within the limit and the blend. -/
def closer (x : Binary64) (limit : Nat) (c : Convergents) : Ratio :=
  if (error x c.last).le (error x (c.blend limit)) then c.last else c.blend limit

/-- Follows the continued fraction of `rest`. Partial quotients are positive, so denominators
grow and the walk ends. -/
def walk (x : Binary64) (limit : Nat) (rest : Binary64) (c : Convergents) : Ratio :=
  let a := rest.toInt.toNat
  let next := c.next a
  if a ≤ limit ∧ c.q₀ < next.q₁ ∧ next.q₁ ≤ limit then
    if negligible rest.fract then next.last
    else walk x limit (.ofInt 1 / rest.fract) next
  else closer x limit c
termination_by (limit + 1 - c.q₀) + (limit + 1 - c.q₁)
decreasing_by
  simp only [next, a, Convergents.next] at *
  omega

/-- The best fraction for a number from 0 to 1. -/
def best (x : Binary64) (limit : Nat) : Ratio :=
  let whole := x.toInt.toNat
  if negligible x.fract then ⟨whole, 1⟩
  else walk x limit (.ofInt 1 / x.fract) ⟨1, 0, whole, 1⟩

end Fraction

end CellDisplay
