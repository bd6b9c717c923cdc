import CellDisplay.Calendar.Date
import CellDisplay.Decimal.Digits

/-! Times of day and timestamps, and the plain text of a timestamp. A time has a nanosecond field
that runs past a full second within the last second of a minute only: that is a leap second. -/
namespace CellDisplay.Calendar

/-- The ranges of the fields of a time of day. A calendar may let the nanoseconds run on behind any
second; such a time, which no conversion and no text gives, is left out. -/
def IsTime (hour minute second nanosecond : Nat) : Prop :=
  hour < 24 ∧ minute < 60 ∧ second < 60 ∧ nanosecond < 2000000000 ∧
    (nanosecond < 1000000000 ∨ second = 59)

instance (hour minute second nanosecond : Nat) : Decidable (IsTime hour minute second nanosecond) :=
  inferInstanceAs (Decidable (_ ∧ _))

structure Time where
  hour : Nat
  minute : Nat
  second : Nat
  nanosecond : Nat
  valid : IsTime hour minute second nanosecond
  deriving DecidableEq

namespace Time

def ofFields? (hour minute second nanosecond : Nat) : Option Time :=
  if valid : IsTime hour minute second nanosecond then
    some ⟨hour, minute, second, nanosecond, valid⟩
  else none

def midnight : Time := ⟨0, 0, 0, 0, by decide⟩

/-- The whole seconds since midnight. -/
def secondOfDay (t : Time) : Nat := t.hour * 3600 + t.minute * 60 + t.second

def ofSecondOfDay (n : Nat) (h : n < 86400) : Time :=
  ⟨n / 3600, n / 60 % 60, n % 60, 0, by unfold IsTime; omega⟩

theorem secondOfDay_ofSecondOfDay (n : Nat) (h : n < 86400) :
    (ofSecondOfDay n h).secondOfDay = n := by
  simp only [secondOfDay, ofSecondOfDay]
  omega

theorem secondOfDay_lt (t : Time) : t.secondOfDay < 86400 := by
  obtain ⟨hour, minute, second, nanosecond, h⟩ := t
  simp only [IsTime] at h
  simp only [secondOfDay]
  omega

/-- A time without a part of a second is given by its second of the day. -/
theorem ofSecondOfDay_secondOfDay (t : Time) (h : t.nanosecond = 0) :
    ofSecondOfDay t.secondOfDay t.secondOfDay_lt = t := by
  obtain ⟨hour, minute, second, nanosecond, valid⟩ := t
  have bounds := valid
  simp only [IsTime] at bounds
  simp only [ofSecondOfDay, secondOfDay, mk.injEq] at h ⊢
  omega

def isLeapSecond (t : Time) : Bool := 1000000000 ≤ t.nanosecond

/-- The part of a second in 3, 6 or 9 digits, the fewest that are exact; nothing for none. -/
def fractionText (nanosecond : Nat) : List Char :=
  if nanosecond = 0 then []
  else if nanosecond % 1000000 = 0 then '.' :: Decimal.padded 3 (nanosecond / 1000000)
  else if nanosecond % 1000 = 0 then '.' :: Decimal.padded 6 (nanosecond / 1000)
  else '.' :: Decimal.padded 9 nanosecond

/-- Hour, minute and second; a leap second is second 60. -/
def text (t : Time) : List Char :=
  Decimal.padded 2 t.hour ++ ':' :: Decimal.padded 2 t.minute ++
    ':' :: Decimal.padded 2 (if t.isLeapSecond then t.second + 1 else t.second) ++
    fractionText (t.nanosecond % 1000000000)

end Time

/-- Years of four digits stand alone; earlier and later ones carry a sign. -/
def yearText (year : Int) : List Char :=
  if 0 ≤ year ∧ year ≤ 9999 then Decimal.padded 4 year.toNat
  else (if year < 0 then '-' else '+') :: Decimal.padded 4 year.natAbs

def Date.text (d : Date) : List Char :=
  yearText d.year ++ '-' :: Decimal.padded 2 d.month ++ '-' :: Decimal.padded 2 d.day

structure Timestamp where
  date : Date
  time : Time
  deriving DecidableEq

def Date.atMidnight (d : Date) : Timestamp := ⟨d, .midnight⟩

def Timestamp.text (t : Timestamp) : List Char := t.date.text ++ ' ' :: t.time.text

end CellDisplay.Calendar
