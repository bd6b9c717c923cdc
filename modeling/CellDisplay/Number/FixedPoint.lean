import CellDisplay.Binary64.Arithmetic
import CellDisplay.Decimal.Digits

/-! Numbers with a fixed count of decimals. `Finite.scaled` rounds `|x| * 10 ^ decimals` to a whole
number, and `Layout.text` writes digits with a point before the last `decimals` of them. The product
is taken in doubles and its halves go away from zero; where it has no bits left to round, from
2 ^ 53 on, the exact product is rounded instead.

Any count of decimals has a text here. Where numbers are padded and rounded by a formatter that
keeps width and precision in 16 bits, the texts stand for counts below that limit. -/
namespace CellDisplay

/-- The exact product with a power of ten, rounded to a whole number. -/
def Binary64.Finite.exactScaled (x : Binary64.Finite) (decimals : Nat) : Nat :=
  (Rounding.nearestEven (x.magnitude * (10 : Rat) ^ decimals)).toNat

/-- The whole number nearest to `|x| * 10 ^ decimals`. -/
def Binary64.Finite.scaled (x : Binary64.Finite) (decimals : Nat) : Nat :=
  match Binary64.finite x.abs * Binary64.powerOfTen decimals with
  | .finite product =>
    if product.value < 9007199254740992 then (Rounding.nearestAway product.value).toNat
    else x.exactScaled decimals
  | _ => x.exactScaled decimals

namespace Number

/-- The digits to lay out; what is not finite is laid out by the letters of its name. -/
def scaledDigits (decimals : Nat) : Binary64 → List Char
  | .nan => "NaN".toList
  | .infinite _ => "inf".toList
  | .finite x => Decimal.digits (x.scaled decimals)

/-- A separator before every group of three digits counted from the right, never first. -/
def grouped (separator : Char) : List Char → List Char
  | [] => []
  | c :: rest =>
    if rest ≠ [] ∧ rest.length % 3 = 0 then c :: separator :: grouped separator rest
    else c :: grouped separator rest

/-- How a fixed count of decimals is written. -/
structure Layout where
  decimals : Nat
  point : Char
  separator : Option Char

namespace Layout

def wholePart (layout : Layout) (digits : List Char) : List Char :=
  match layout.separator with
  | some separator => grouped separator digits
  | none => digits

def fractionPart (layout : Layout) (digits : List Char) : List Char :=
  if layout.decimals = 0 then [] else layout.point :: digits

/-- The digits with a point before the last `decimals` of them, at least one before the point. A
minus sign is written only in front of a digit that is not zero. -/
def text (layout : Layout) (negative : Bool) (digits : List Char) : List Char :=
  let all := digits.leftpad (layout.decimals + 1) '0'
  let size := all.length - layout.decimals
  (if negative && all.any (· ≠ '0') then ['-'] else []) ++
    layout.wholePart (all.take size) ++ layout.fractionPart (all.drop size)

end Layout

/-- The number rounded to the layout's decimals. -/
def fixedPoint (layout : Layout) (x : Binary64) : List Char :=
  layout.text (x.lt .zero) (scaledDigits layout.decimals x)

end Number

end CellDisplay
