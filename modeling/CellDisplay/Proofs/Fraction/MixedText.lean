import CellDisplay.Proofs.Number.Numeral
import CellDisplay.Render

/-! Mixed numbers as strings. The whole part is an integer, whose text has no padding and no minus
sign before a zero; a blank, the numerator, a slash and the denominator follow. -/
namespace CellDisplay.Fraction

open Binary64

/-- A whole number has a digit, so nothing is filled up. -/
theorem paddedInt_one (w : ℤ) : String.ofList (Decimal.paddedInt 1 w) = toString w := by
  unfold Decimal.paddedInt Decimal.padded
  cases w with
  | ofNat n =>
    have long : 1 ≤ (Decimal.digits n).length := List.length_pos_iff.2 Nat.toDigits_ne_nil
    rw [if_neg (by simp), List.leftpad, Nat.sub_eq_zero_of_le (by exact long), List.replicate_zero,
      List.nil_append]
    rfl
  | negSucc n =>
    rw [if_pos (Int.negSucc_lt_zero n), List.leftpad, Nat.zero_sub, List.replicate_zero,
      List.nil_append]
    exact @String.ofList_append ['-'] _

/-- Zero has no sign. -/
theorem toString_ne_negative_zero (w : ℤ) : toString w ≠ "-0" := by
  rw [← paddedInt_one, show "-0" = String.ofList ['-', '0'] from rfl, ne_eq, String.ofList_inj,
    Decimal.paddedInt]
  split
  next negative =>
    intro same
    have value := Decimal.ofDigitChars_padded 0 w.natAbs
    rw [(List.cons.inj same).2] at value
    have : w.natAbs = 0 := value.symm
    omega
  next =>
    intro same
    have digit : '-' ∈ Decimal.padded 1 w.natAbs := by simp [same]
    exact absurd (Decimal.isDigit_of_mem_padded digit) (by decide)

theorem ratio_text (r : Ratio) :
    String.ofList (' ' :: r.text) =
      " " ++ toString r.numerator ++ "/" ++ toString r.denominator := by
  have split : ' ' :: r.text =
      [' '] ++ Decimal.digits r.numerator ++ ['/'] ++ Decimal.digits r.denominator := by
    simp [Ratio.text]
  rw [split, String.ofList_append, String.ofList_append, String.ofList_append]
  rfl

/-- What is written for a finite number when the limit leaves a choice. -/
theorem writeFraction_finite {spec : Spec} (bounded : spec.overflows = false) {v : Finite}
    {r : Ratio} (found : spec.ratio (finite v - ofInt v.value.floor) = r) :
    writeFraction spec (finite v) =
      (toString v.value.floor ++ " " ++ toString r.numerator ++ "/" ++ toString r.denominator,
        none) := by
  simp only [writeFraction, text, bounded, found, String.ofList_append, paddedInt_one, ratio_text,
    String.append_assoc, Bool.false_eq_true, if_false]

end CellDisplay.Fraction
