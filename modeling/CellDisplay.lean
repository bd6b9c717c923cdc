import CellDisplay.Proofs.DateCode.Elapsed
import CellDisplay.Proofs.DateCode.LetterCase
import CellDisplay.Proofs.DateCode.PlainText
import CellDisplay.Proofs.DateCode.Quoted
import CellDisplay.Proofs.Errors
import CellDisplay.Proofs.Fraction.Denominator
import CellDisplay.Proofs.Fraction.FixedDenominator
import CellDisplay.Proofs.Fraction.MixedNumber
import CellDisplay.Proofs.Fraction.Words
import CellDisplay.Proofs.Number.Accuracy
import CellDisplay.Proofs.Number.Exactness
import CellDisplay.Proofs.Number.Misrounding
import CellDisplay.Proofs.Number.Monotonicity
import CellDisplay.Proofs.Number.Percentage
import CellDisplay.Proofs.Number.Sign
import CellDisplay.Proofs.Number.Symbol
import CellDisplay.Proofs.Options
import CellDisplay.Proofs.Serial.Order
import CellDisplay.Proofs.Serial.RoundTrip
import CellDisplay.Proofs.Serial.Shift
import CellDisplay.Render
