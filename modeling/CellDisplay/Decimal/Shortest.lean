import CellDisplay.Binary64.Basic
import CellDisplay.Decimal.Digits

/-! The plain text of a double: the shortest decimal that reads back as the same double, written
without an exponent. The decimals that read back form an interval around the value; of the grids
with 1, 2, ... 17 significant digits the first that meets it gives the digits, and of two points on
that grid the nearer one, the upper one when they are equally near. -/
namespace CellDisplay.Decimal

/-- The number `coefficient * 10 ^ exponent`. -/
structure Scaled where
  coefficient : Nat
  exponent : Int
  deriving DecidableEq

def Scaled.value (d : Scaled) : Rat := d.coefficient * (10 : Rat) ^ d.exponent

/-- Positional notation, without a point for a whole number and without trailing zeros behind a
point. -/
def Scaled.text (d : Scaled) : List Char :=
  if 0 ≤ d.exponent then digits (d.coefficient * Nat.pow 10 d.exponent.toNat)
  else
    let decimals := (-d.exponent).toNat
    let all := padded (decimals + 1) d.coefficient
    let whole := all.take (all.length - decimals)
    let fraction := dropTrailingZeros (all.drop (all.length - decimals))
    if fraction.isEmpty then whole else whole ++ '.' :: fraction

end CellDisplay.Decimal

namespace CellDisplay.Binary64

open Decimal (Scaled)

namespace Finite

/-- The lower end of the rationals that round to a magnitude: halfway to the next smaller one,
which is nearer below a power of two. -/
def lowerEnd (x : Finite) : Rat :=
  if x.significand = 4503599627370496 ∧ -1074 < x.exponent then
    x.magnitude - (2 : Rat) ^ (x.exponent - 2)
  else x.magnitude - (2 : Rat) ^ (x.exponent - 1)

def upperEnd (x : Finite) : Rat := x.magnitude + (2 : Rat) ^ (x.exponent - 1)

/-- Whether a positive rational rounds to the magnitude. The ends do if the significand is even. -/
def readsBack (x : Finite) (q : Rat) : Bool :=
  if x.significand % 2 = 0 then x.lowerEnd ≤ q && q ≤ x.upperEnd
  else x.lowerEnd < q && q < x.upperEnd

/-- The nearest decimal with `count` significant digits that reads back. -/
def ofDigitCount? (x : Finite) (count : Nat) : Option Scaled :=
  let unit := Decimal.floorLog10 x.magnitude - ((count : Int) - 1)
  let below := (x.magnitude / (10 : Rat) ^ unit).floor.toNat
  let low : Scaled := ⟨below, unit⟩
  let high : Scaled := ⟨below + 1, unit⟩
  if x.readsBack low.value then
    if x.readsBack high.value && high.value - x.magnitude ≤ x.magnitude - low.value then some high
    else some low
  else if x.readsBack high.value then some high
  else none

/-- The shortest decimal that reads back; 17 digits always suffice. -/
def shortest (x : Finite) : Scaled :=
  if x.isZero then ⟨0, 0⟩
  else ((List.range' 1 17).findSome? x.ofDigitCount?).getD ⟨0, 0⟩

end Finite

/-- The plain text of a number; a negative zero keeps its sign. -/
def text : Binary64 → List Char
  | .nan => "NaN".toList
  | .infinite negative => if negative then "-inf".toList else "inf".toList
  | .finite x => if x.negative then '-' :: x.shortest.text else x.shortest.text

end CellDisplay.Binary64
