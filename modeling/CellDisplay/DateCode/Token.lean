/-! The tokens of a date code: texts to copy, and the parts of a timestamp to write in their
place. -/
namespace CellDisplay.DateCode

/-- Whether a number is written bare or with at least two digits. -/
inductive Width where
  | natural
  | padded
  deriving DecidableEq, Repr

/-- A single letter asks for the bare number. -/
def Width.ofCount (count : Nat) : Width := if 2 ≤ count then padded else natural

inductive YearStyle where
  | short
  | full
  deriving DecidableEq, Repr

inductive MonthStyle where
  | number (width : Width)
  | abbreviated
  | full
  | letter
  deriving DecidableEq, Repr

inductive DayStyle where
  | number (width : Width)
  | weekdayAbbreviated
  | weekdayFull
  deriving DecidableEq, Repr

/-- A clock hour counts to 12 in a code with a meridiem and to 24 in any other. -/
inductive HourStyle where
  | clock (width : Width)
  | twentyFour
  deriving DecidableEq, Repr

/-- The locale's strings, or one letter in upper or lower case. -/
inductive MeridiemStyle where
  | full
  | upper
  | lower
  deriving DecidableEq, Repr

inductive ElapsedUnit where
  | hours
  | minutes
  | seconds
  deriving DecidableEq, Repr

inductive Token where
  | literal (text : List Char)
  | year (style : YearStyle)
  | month (style : MonthStyle)
  | day (style : DayStyle)
  | hour (style : HourStyle)
  | minute (width : Width)
  | second (width : Width)
  | meridiem (style : MeridiemStyle)
  | elapsed (unit : ElapsedUnit) (width : Width)
  deriving DecidableEq, Repr

namespace Token

def isLiteral : Token → Bool
  | literal _ => true
  | _ => false

def isMeridiem : Token → Bool
  | meridiem _ => true
  | _ => false

def isElapsed : Token → Bool
  | elapsed _ _ => true
  | _ => false

end Token

end CellDisplay.DateCode
