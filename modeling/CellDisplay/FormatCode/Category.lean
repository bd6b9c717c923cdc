import CellDisplay.FormatCode.Search
import CellDisplay.TypeTag

/-! The category of a format code, which says how a value is written. A numeric cell's code is
searched for the patterns of `signatures` in their order; a code can hold several of them, and the
first found decides. -/
namespace CellDisplay

inductive Category where
  | currency
  | percentage
  | fraction
  | scientific
  | fixedDecimal
  | dateTime
  | general
  deriving DecidableEq, Repr

/-- A pattern whose occurrence in a code marks a category. -/
structure Signature where
  pattern : List Char
  category : Category

def Signature.matches (signature : Signature) (code : List Char) : Bool :=
  FormatCode.contains signature.pattern code

namespace Category

def signatures : List Signature :=
  [⟨[',', '#'], .currency⟩, ⟨['0', '%'], .percentage⟩, ⟨['?', '/'], .fraction⟩,
    ⟨['E', '+', '0'], .scientific⟩, ⟨['0', '.', '0'], .fixedDecimal⟩]

/-- Every code of a date cell is a date code; a numeric cell's code without a signature leaves the
number as it is. -/
def ofCode (tag : TypeTag) (code : List Char) : Category :=
  match tag with
  | .date => .dateTime
  | .numeric =>
    match signatures.find? (·.matches code) with
    | some signature => signature.category
    | none => .general

end Category

end CellDisplay
