/-! The coarse type that a spreadsheet states for a cell, independent of the value it stores. -/
namespace CellDisplay

inductive TypeTag where
  | numeric
  | date
  deriving DecidableEq, Repr

namespace TypeTag

/-- The letter a spreadsheet file marks the type with. -/
def letter : TypeTag → String
  | numeric => "n"
  | date => "d"

def ofLetter? (text : String) : Option TypeTag :=
  if text = "n" then some numeric else if text = "d" then some date else none

theorem ofLetter?_letter (tag : TypeTag) : ofLetter? tag.letter = some tag := by
  cases tag <;> simp [ofLetter?, letter]

end TypeTag

end CellDisplay
