import CellDisplay.Locale
import CellDisplay.Serial

/-! The choices of a caller that are not part of a format code. -/
namespace CellDisplay

/-- The marker by which a single letter asks for a number without a leading zero. -/
inductive PaddingStyle where
  | hyphen
  | hash
  deriving DecidableEq, Repr

structure Options where
  padding : PaddingStyle := .hyphen
  dateSystem : DateSystem := .from1900
  locale : Locale := .enUS
  deriving DecidableEq

end CellDisplay
