import CellDisplay.Decimal.Digits
import CellDisplay.FormatCode.Search

/-! What a fraction code asks for: a fixed denominator, or the best one up to a limit. It is read
from the signs behind the first slash that follows a question mark: question marks for a count of
digits, or the digits of the denominator itself. The common codes stand in a table. -/
namespace CellDisplay.Fraction

inductive Mode where
  | approximate
  | fixed
  deriving DecidableEq, Repr

structure Spec where
  limit : Nat
  mode : Mode
  deriving DecidableEq, Repr

namespace Spec

/-- The common codes and their limits. -/
def table : List (String × Nat) :=
  [("# ?/?", 10), ("# ??/??", 100), ("#\\ ???/???", 1000), ("#\\ ?/2", 2), ("#\\ ?/4", 4),
    ("#\\ ?/8", 8), ("#\\ ??/16", 16), ("#\\ ?/10", 10), ("#\\ ??/100", 100)]

/-- The signs of a denominator that follow the first slash behind a question mark. -/
def denominatorSigns (code : List Char) : List Char :=
  ((FormatCode.after? ['?', '/'] code).getD []).takeWhile fun c => c = '?' || c.isDigit

/-- Ten to the power of a count, where that is below 2 ^ 32. -/
def powerOfTen? (count : Nat) : Option Nat :=
  let power := Nat.pow 10 count
  if power < 4294967296 then some power else none

/-- Question marks ask for a denominator of at most so many zeros behind a one, where their count is
kept to 32 bits and the limit has to be below 2 ^ 32; digits fix a denominator, which is positive
and below 2 ^ 32. -/
def ofDenominator? (signs : List Char) : Option Spec :=
  if signs.isEmpty then none
  else if signs.all (· = '?') then
    (powerOfTen? (signs.length % 4294967296)).map fun limit => ⟨limit, .approximate⟩
  else if signs.all Char.isDigit then
    let denominator := Nat.ofDigitChars 10 signs 0
    if 0 < denominator ∧ denominator < 4294967296 then some ⟨denominator, .fixed⟩ else none
  else none

def ofCode? (code : List Char) : Option Spec :=
  match table.find? fun entry => entry.1.toList = code with
  | some (_, limit) =>
    some ⟨limit, if FormatCode.contains ['?', '/', '?'] code then .approximate else .fixed⟩
  | none => ofDenominator? (denominatorSigns code)

end Spec

end CellDisplay.Fraction
