import CellDisplay.DateCode.Minutes
import CellDisplay.Options

/-! The text of a timestamp for the tokens of a date code. A code without any token of a date or a
time gives the plain text of the timestamp. -/
namespace CellDisplay.DateCode

open Calendar (Timestamp)

/-- A number of a date or a time. Either marker of a bare number leaves it bare. -/
def numberText (padding : PaddingStyle) (width : Width) (n : Nat) : List Char :=
  match width, padding with
  | .padded, _ => Decimal.padded 2 n
  | .natural, .hyphen => Decimal.digits n
  | .natural, .hash => Decimal.digits n

def yearText (style : YearStyle) (year : Int) : List Char :=
  match style with
  | .short => Decimal.padded 2 (year % 100).toNat
  | .full => Decimal.paddedInt 4 year

def monthText (options : Options) (style : MonthStyle) (t : Timestamp) : List Char :=
  match style with
  | .number width => numberText options.padding width t.date.month
  | .abbreviated => (options.locale.monthsShort.get t.date.monthIndex).toList
  | .full => (options.locale.monthsFull.get t.date.monthIndex).toList
  | .letter => (options.locale.monthsFull.get t.date.monthIndex).toList.take 1

def dayText (options : Options) (style : DayStyle) (t : Timestamp) : List Char :=
  match style with
  | .number width => numberText options.padding width t.date.day
  | .weekdayAbbreviated => (options.locale.daysShort.get t.date.weekday).toList
  | .weekdayFull => (options.locale.daysFull.get t.date.weekday).toList

/-- Twelve, one, two, ... eleven for either half of the day. -/
def twelveHour (hour : Nat) : Nat :=
  if hour = 0 then 12 else if hour ≤ 12 then hour else hour - 12

def hourText (padding : PaddingStyle) (twelve : Bool) (style : HourStyle) (hour : Nat) :
    List Char :=
  match style with
  | .twentyFour => Decimal.padded 2 hour
  | .clock width => numberText padding width (if twelve then twelveHour hour else hour)

def meridiemText (locale : Locale) (style : MeridiemStyle) (hour : Nat) : List Char :=
  match style with
  | .full => (if 12 ≤ hour then locale.pm else locale.am).toList
  | .upper => [if 12 ≤ hour then 'P' else 'A']
  | .lower => [if 12 ≤ hour then 'p' else 'a']

/-- The whole units since the epoch of the date system. -/
def elapsedText (system : DateSystem) (unit : ElapsedUnit) (width : Width) (t : Timestamp) :
    List Char :=
  let seconds := Serial.elapsedSeconds system t
  let count :=
    match unit with
    | .hours => seconds / 3600
    | .minutes => seconds / 60
    | .seconds => seconds
  match width with
  | .padded => Decimal.padded 2 count
  | .natural => Decimal.digits count

/-- The text of one token, where `twelve` says whether the code counts clock hours to 12. -/
def Token.text (options : Options) (twelve : Bool) (t : Timestamp) : Token → List Char
  | .literal text => text
  | .year style => yearText style t.date.year
  | .month style => monthText options style t
  | .day style => dayText options style t
  | .hour style => hourText options.padding twelve style t.time.hour
  | .minute width => numberText options.padding width t.time.minute
  | .second width => numberText options.padding width t.time.second
  | .meridiem style => meridiemText options.locale style t.time.hour
  | .elapsed unit width => elapsedText options.dateSystem unit width t

def hasTokens (tokens : List Token) : Bool := tokens.any fun token => !token.isLiteral

def text (options : Options) (tokens : List Token) (t : Timestamp) : List Char :=
  if hasTokens tokens then tokens.flatMap (·.text options (tokens.any Token.isMeridiem) t)
  else t.text

end CellDisplay.DateCode
