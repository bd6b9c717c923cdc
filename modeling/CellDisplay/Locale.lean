/-! What a language contributes to a text: the signs inside numbers, the names of the months and
of the days of the week, and the marks of the two halves of the day. -/
namespace CellDisplay

structure Locale where
  point : Char
  separator : Char
  am : String
  pm : String
  monthsShort : Vector String 12
  monthsFull : Vector String 12
  /-- The days of the week, from Sunday on. -/
  daysShort : Vector String 7
  daysFull : Vector String 7
  deriving DecidableEq

namespace Locale

def enUS : Locale where
  point := '.'
  separator := ','
  am := "AM"
  pm := "PM"
  monthsShort :=
    ⟨#["Jan", "Feb", "Mar", "Apr", "May", "Jun", "Jul", "Aug", "Sep", "Oct", "Nov", "Dec"], rfl⟩
  monthsFull :=
    ⟨#["January", "February", "March", "April", "May", "June", "July", "August", "September",
      "October", "November", "December"], rfl⟩
  daysShort := ⟨#["Sun", "Mon", "Tue", "Wed", "Thu", "Fri", "Sat"], rfl⟩
  daysFull :=
    ⟨#["Sunday", "Monday", "Tuesday", "Wednesday", "Thursday", "Friday", "Saturday"], rfl⟩

def jaJP : Locale where
  point := '.'
  separator := ','
  am := "午前"
  pm := "午後"
  monthsShort :=
    ⟨#["1月", "2月", "3月", "4月", "5月", "6月", "7月", "8月", "9月", "10月", "11月", "12月"], rfl⟩
  monthsFull :=
    ⟨#["1月", "2月", "3月", "4月", "5月", "6月", "7月", "8月", "9月", "10月", "11月", "12月"], rfl⟩
  daysShort := ⟨#["日", "月", "火", "水", "木", "金", "土"], rfl⟩
  daysFull :=
    ⟨#["日曜日", "月曜日", "火曜日", "水曜日", "木曜日", "金曜日", "土曜日"], rfl⟩

instance : Inhabited Locale := ⟨enUS⟩

end Locale

end CellDisplay
