import CellDisplay.DateCode.Text
import CellDisplay.FormatCode.Builtin
import CellDisplay.Fraction.Mixed
import CellDisplay.Number.Styles
import CellDisplay.Outcome

/-! A cell's value as the text that a spreadsheet shows for it. The type tag says whether the value
is a number or a point in time, and the format code how to write it. Errors come from the value
alone; a code that is not understood still gives a text and says so. -/
namespace CellDisplay

open Calendar (Timestamp)

/-- A text, and what kept it from being all that its code asks for. -/
abbrev Written := String × Option Degradation

/-- A mixed number for a given denominator or limit. -/
def writeFraction (spec : Fraction.Spec) (x : Binary64) : Written :=
  (.ofList (Fraction.text spec x),
    if spec.overflows then some (.fractionOverflow spec.limit) else none)

/-- A timestamp for a date code. -/
def writeTimestamp (options : Options) (code : String) (t : Timestamp) : Written :=
  let tokens := DateCode.tokenize code.toList
  (.ofList (DateCode.text options tokens t),
    if DateCode.hasTokens tokens then none else some (.malformedFormat code .noDateTokens))

/-- A number for a code of the given category. -/
def writeNumber (locale : Locale) (category : Category) (code : String) (x : Binary64) :
    Written :=
  match category with
  | .currency => (.ofList (Number.currency locale code.toList x), none)
  | .percentage => (.ofList (Number.percentage locale code.toList x), none)
  | .scientific => (.ofList (Number.exponential locale code.toList x), none)
  | .fixedDecimal => (.ofList (Number.fixedDecimal locale code.toList x), none)
  | .fraction =>
    match Fraction.Spec.ofCode? code.toList with
    | some spec => writeFraction spec x
    | none => (.ofList x.text, some (.malformedFormat code .unrecognizedDenominator))
  | .general | .dateTime => (.ofList x.text, none)

/-- The text, the category of the code and what was not understood of it. -/
def report (options : Options) (tag : TypeTag) (code : String) (value : Value) :
    Except RenderError Rendered :=
  let category := Category.ofCode tag code.toList
  let rendered (written : Written) : Rendered := ⟨written.1, category, written.2⟩
  match tag, value with
  | .numeric, .number x =>
    if x.isFinite then .ok (rendered (writeNumber options.locale category code x))
    else .error (.nonFiniteNumber x)
  | .numeric, _ => .error (.typeMismatch value)
  | .date, .number serial =>
    match Serial.toTimestamp? options.dateSystem serial with
    | some t => .ok (rendered (writeTimestamp options code t))
    | none => .error (.invalidSerialDate serial)
  | .date, .date d => .ok (rendered (writeTimestamp options code d.atMidnight))
  | .date, .timestamp t => .ok (rendered (writeTimestamp options code t))

def render (options : Options) (tag : TypeTag) (code : String) (value : Value) :
    Except RenderError String :=
  (report options tag code value).map (·.text)

/-- The text for a built-in code; none for a number without one. -/
def renderBuiltin (options : Options) (tag : TypeTag) (id : Nat) (value : Value) :
    Option (Except RenderError String) :=
  (FormatCode.builtin? id).map fun code => render options tag code value

end CellDisplay
