import CellDisplay.Rounding

/-! Double-precision numbers as data. A finite double is a sign and a magnitude
`significand * 2 ^ exponent` whose pair is canonical, so equal values of equal sign are equal
terms; its exact value is a rational. `ofRat` is the one place where a result is rounded: to the
nearest double, ties to the even significand, and to an infinity from half a unit above the
largest finite double. -/
namespace CellDisplay

/-- The pairs that name each magnitude once: the significand has 53 bits, its top bit set unless
the exponent is the least one. -/
def Binary64.Canonical (significand : Nat) (exponent : Int) : Prop :=
  significand < 9007199254740992 ∧ -1074 ≤ exponent ∧ exponent ≤ 971 ∧
    (4503599627370496 ≤ significand ∨ exponent = -1074)

instance (significand : Nat) (exponent : Int) :
    Decidable (Binary64.Canonical significand exponent) :=
  inferInstanceAs (Decidable (_ ∧ _))

structure Binary64.Finite where
  negative : Bool
  significand : Nat
  exponent : Int
  canonical : Binary64.Canonical significand exponent
  deriving DecidableEq

inductive Binary64 where
  | nan
  | infinite (negative : Bool)
  | finite (x : Binary64.Finite)
  deriving DecidableEq

namespace Binary64

namespace Finite

def magnitude (x : Finite) : Rat := x.significand * (2 : Rat) ^ x.exponent

/-- The exact value; both zeros have value 0. -/
def value (x : Finite) : Rat := if x.negative then -x.magnitude else x.magnitude

def zero (negative : Bool) : Finite := ⟨negative, 0, -1074, by decide⟩

def isZero (x : Finite) : Bool := x.significand = 0

def neg (x : Finite) : Finite := { x with negative := !x.negative }

def abs (x : Finite) : Finite := { x with negative := false }

@[simp] theorem magnitude_neg (x : Finite) : x.neg.magnitude = x.magnitude := rfl

@[simp] theorem magnitude_abs (x : Finite) : x.abs.magnitude = x.magnitude := rfl

@[simp] theorem value_neg (x : Finite) : x.neg.value = -x.value := by
  cases h : x.negative <;> simp [value, neg, magnitude, h]

@[simp] theorem value_abs (x : Finite) : x.abs.value = x.magnitude := rfl

end Finite

def isFinite : Binary64 → Bool
  | .finite _ => true
  | _ => false

def isZero : Binary64 → Bool
  | .finite x => x.isZero
  | _ => false

def zero : Binary64 := .finite (.zero false)

/-- A canonical pair is a finite double and any other an infinity. -/
def pack (negative : Bool) (significand : Nat) (exponent : Int) : Binary64 :=
  if h : Canonical significand exponent then .finite ⟨negative, significand, exponent, h⟩
  else .infinite negative

/-- The exponent of the highest power of two that is not above a positive rational. -/
def floorLog2 (q : Rat) : Int :=
  let estimate : Int := (q.num.natAbs.log2 : Int) - (q.den.log2 : Int)
  if (2 : Rat) ^ estimate ≤ q then estimate else estimate - 1

/-- The exponent of the last bit that a double keeps at a positive magnitude. -/
def unitExponent (q : Rat) : Int := max (-1074) (floorLog2 q - 52)

/-- The double of the given sign nearest to a magnitude. A significand that rounds up to 54 bits
carries into the exponent. -/
def ofMagnitude (negative : Bool) (q : Rat) : Binary64 :=
  if q ≤ 0 then .finite (.zero negative)
  else
    let unit := unitExponent q
    let significand := (Rounding.nearestEven (q / (2 : Rat) ^ unit)).toNat
    if significand = 9007199254740992 then pack negative 4503599627370496 (unit + 1)
    else pack negative significand unit

/-- The double nearest to a rational. A rational has no sign of zero, so the operation that rounds
says which zero an exact 0 becomes; a result that underflows keeps its own sign. -/
def ofRat (negativeZero : Bool) (q : Rat) : Binary64 :=
  if q = 0 then .finite (.zero negativeZero)
  else if q < 0 then ofMagnitude true (-q)
  else ofMagnitude false q

def ofInt (n : Int) : Binary64 := ofRat false n

end Binary64

end CellDisplay
