import CellDisplay.DateCode.Token

/-! The letters of a date code whose runs stand for a part of a timestamp. -/
namespace CellDisplay.DateCode

inductive Letter where
  | year
  | month
  | day
  | clockHour
  | fullHour
  | second
  deriving DecidableEq, Repr

namespace Letter

/-- Only for hours does the case of a letter matter. -/
def ofChar? (c : Char) : Option Letter :=
  if c = 'y' ∨ c = 'Y' then some year
  else if c = 'm' ∨ c = 'M' then some month
  else if c = 'd' ∨ c = 'D' then some day
  else if c = 'h' then some clockHour
  else if c = 'H' then some fullHour
  else if c = 's' ∨ c = 'S' then some second
  else none

/-- The token of a run of equal letters. Next to a colon a month's number is a minute. -/
def token (letter : Letter) (afterColon : Bool) (count : Nat) : Token :=
  match letter with
  | year => .year (if 3 ≤ count then .full else .short)
  | month =>
    if count ≤ 2 then
      if afterColon then .minute (.ofCount count) else .month (.number (.ofCount count))
    else .month (if count = 3 then .abbreviated else if count = 4 then .full else .letter)
  | day =>
    if count ≤ 2 then .day (.number (.ofCount count))
    else .day (if count = 3 then .weekdayAbbreviated else .weekdayFull)
  | clockHour => .hour (.clock (.ofCount count))
  | fullHour => .hour .twentyFour
  | second => .second (.ofCount count)

end Letter

end CellDisplay.DateCode
