import CellDisplay.Binary64.Encoding
import CellDisplay.Serial

/-! The value of a cell. A number in a date cell is the serial number of a timestamp. -/
namespace CellDisplay

open Calendar (Date Timestamp)

inductive Value where
  | number (x : Binary64)
  | date (d : Date)
  | timestamp (t : Timestamp)
  deriving DecidableEq

namespace Value

def ofInt (n : Int) : Value := number (.ofInt n)

/-- The value of a single-precision number, given by its bits. -/
def ofSingleBits (bits : Nat) : Value := number (.ofSingleBits bits)

/-- The word for the kind of value. -/
def kind : Value → String
  | number _ => "number"
  | date _ => "date"
  | timestamp _ => "datetime"

end Value

end CellDisplay
