import CellDisplay.Decimal.Shortest
import CellDisplay.FormatCode.Category
import CellDisplay.Value

/-! What rendering a cell can end in: a text with the category of its code, and where the code was
only partly understood the reason, or an error of the value. -/
namespace CellDisplay

inductive RenderError where
  | nonFiniteNumber (x : Binary64)
  | invalidSerialDate (serial : Binary64)
  /-- A value of another kind where a number is needed. -/
  | typeMismatch (value : Value)
  deriving DecidableEq

def RenderError.message : RenderError → String
  | nonFiniteNumber x => "non-finite number: " ++ String.ofList x.text
  | invalidSerialDate serial => "invalid serial date: " ++ String.ofList serial.text
  | typeMismatch value => "type mismatch: expected number, got " ++ value.kind

inductive MalformedReason where
  | unrecognizedDenominator
  | noDateTokens
  deriving DecidableEq, Repr

def MalformedReason.text : MalformedReason → String
  | unrecognizedDenominator => "unrecognized fraction denominator"
  | noDateTokens => "no date or time tokens"

/-- A condition that a text was produced in spite of. -/
inductive Degradation where
  | malformedFormat (code : String) (reason : MalformedReason)
  | fractionOverflow (limit : Nat)
  deriving DecidableEq

def Degradation.message : Degradation → String
  | malformedFormat code reason => "malformed format '" ++ code ++ "': " ++ reason.text
  | fractionOverflow limit =>
    "fraction limit " ++ String.ofList (Decimal.digits limit) ++
      " too small for approximation, used fixed denominator"

structure Rendered where
  text : String
  category : Category
  degradation : Option Degradation
  deriving DecidableEq

end CellDisplay
