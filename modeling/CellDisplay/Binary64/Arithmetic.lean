import CellDisplay.Binary64.Basic

/-! Arithmetic on doubles. Each operation on finite operands is the exact rational operation
followed by one rounding; the branches beside it say what infinities, NaN and the sign of zero do.
`powerOfTen` multiplies rounded squares, so past the 22nd power it need not be the nearest double,
and past the 308th it is infinite. -/
namespace CellDisplay.Binary64

def neg : Binary64 → Binary64
  | .nan => .nan
  | .infinite negative => .infinite (!negative)
  | .finite x => .finite x.neg

def abs : Binary64 → Binary64
  | .nan => .nan
  | .infinite _ => .infinite false
  | .finite x => .finite x.abs

/-- An exact sum of zero is a negative zero only if both operands are negative. -/
def add : Binary64 → Binary64 → Binary64
  | .finite x, .finite y => ofRat (x.negative && y.negative) (x.value + y.value)
  | .infinite a, .infinite b => if a = b then .infinite a else .nan
  | .infinite a, .finite _ => .infinite a
  | .finite _, .infinite b => .infinite b
  | _, _ => .nan

def sub (x y : Binary64) : Binary64 := x.add y.neg

def mul : Binary64 → Binary64 → Binary64
  | .finite x, .finite y => ofRat (x.negative != y.negative) (x.value * y.value)
  | .infinite a, .infinite b => .infinite (a != b)
  | .infinite a, .finite y => if y.isZero then .nan else .infinite (a != y.negative)
  | .finite x, .infinite b => if x.isZero then .nan else .infinite (x.negative != b)
  | _, _ => .nan

def div : Binary64 → Binary64 → Binary64
  | .finite x, .finite y =>
    if y.isZero then (if x.isZero then .nan else .infinite (x.negative != y.negative))
    else ofRat (x.negative != y.negative) (x.value / y.value)
  | .infinite a, .finite y => .infinite (a != y.negative)
  | .finite x, .infinite b => .finite (.zero (x.negative != b))
  | _, _ => .nan

instance : Neg Binary64 := ⟨neg⟩
instance : Add Binary64 := ⟨add⟩
instance : Sub Binary64 := ⟨sub⟩
instance : Mul Binary64 := ⟨mul⟩
instance : Div Binary64 := ⟨div⟩

/-- The order of numbers, with the infinities at its ends; NaN stands in no relation. -/
def lt : Binary64 → Binary64 → Bool
  | .finite x, .finite y => x.value < y.value
  | .infinite a, .infinite b => a && !b
  | .infinite a, .finite _ => a
  | .finite _, .infinite b => !b
  | _, _ => false

@[inherit_doc lt]
def le : Binary64 → Binary64 → Bool
  | .finite x, .finite y => x.value ≤ y.value
  | .infinite a, .infinite b => a || !b
  | .infinite a, .finite _ => a
  | .finite _, .infinite b => !b
  | _, _ => false

/-- A function of the exact value whose zero keeps the operand's sign. -/
def mapValue (f : Rat → Rat) : Binary64 → Binary64
  | .nan => .nan
  | .infinite negative => .infinite negative
  | .finite x => ofRat x.negative (f x.value)

/-- The greatest whole number that is not above the operand. -/
def floor : Binary64 → Binary64 := mapValue fun q => q.floor

/-- The nearest whole number; a half goes away from zero. -/
def round : Binary64 → Binary64 := mapValue fun q => Rounding.nearestAway q

/-- The floor as an integer; NaN and infinities count as 0. -/
def toInt : Binary64 → Int
  | .finite x => x.value.floor
  | _ => 0

/-- The distance above the floor, which is exact for an operand that is not negative. -/
def fract (x : Binary64) : Binary64 := x - x.floor

/-- The product of `power` and the `n`th power of `base`, one bit of `n` at a time. -/
def mulPower (base power : Binary64) (n : Nat) : Binary64 :=
  let power := if n % 2 = 1 then power * base else power
  if n / 2 = 0 then power else mulPower (base * base) power (n / 2)
termination_by n

def powerOfTen (n : Nat) : Binary64 := mulPower (ofInt 10) (ofInt 1) n

end CellDisplay.Binary64
