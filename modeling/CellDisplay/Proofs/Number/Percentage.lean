import CellDisplay.Proofs.Binary64.Overflow
import CellDisplay.Proofs.Number.Numeral
import CellDisplay.Render

/-! Percentages. The hundredfold is taken in doubles before it is laid out, and a finite number can
leave the range there. Where it does, the letters of an infinity are laid out like digits; everywhere
else the text is a number before a percent sign. -/
namespace CellDisplay.Number

/-- An optional minus sign, digits before the point, the point and the decimals if there are to be
any, and the percent sign. -/
def IsPercentage (point : Char) (decimals : ℕ) (text : List Char) : Prop :=
  ∃ sign whole fraction, text = sign ++ whole ++
      (if decimals = 0 then [] else point :: fraction) ++ ['%'] ∧
    (sign = [] ∨ sign = ['-']) ∧ whole ≠ [] ∧ fraction.length = decimals ∧
      ∀ c ∈ whole ++ fraction, c.isDigit

theorem isPercentage_numeral (point : Char) {n : Numeral} {decimals : ℕ}
    (length : n.fraction.length = decimals) :
    IsPercentage point decimals (n.text point ++ ['%']) := by
  refine ⟨n.sign, n.whole, n.fraction, ?_, n.sign_eq_or, n.nonempty, length, n.isDigit⟩
  simp only [Numeral.text, Numeral.decimals, ← length, List.length_eq_zero_iff]

/-- A digit stands before the percent sign. -/
theorem IsPercentage.isDigit_getLast? {point : Char} {decimals : ℕ} {text : List Char}
    (h : IsPercentage point decimals (text ++ ['%'])) : ∀ c ∈ text.getLast?, c.isDigit := by
  obtain ⟨sign, whole, fraction, same, -, nonempty, length, digits⟩ := h
  intro c hc
  rw [List.append_cancel_right same] at hc
  apply digits
  split at hc
  next none =>
    rw [List.append_nil, List.getLast?_append_of_ne_nil _ nonempty] at hc
    exact List.mem_append_left _ (List.mem_of_getLast? hc)
  next some =>
    have nonempty : fraction ≠ [] := List.ne_nil_of_length_pos (by omega)
    rw [List.getLast?_append_of_ne_nil _ (List.cons_ne_nil _ _),
      List.getLast?_cons_of_ne_nil nonempty] at hc
    exact List.mem_append_right _ (List.mem_of_getLast? hc)

/-! ### Layouts without groups -/

namespace Layout

variable {layout : Layout} (plain : layout.separator = none)
include plain

/-- A layout ends as its digits do. -/
theorem getLast?_text (negative : Bool) {digits : List Char} (h : digits ≠ []) :
    (layout.text negative digits).getLast? = digits.getLast? := by
  have padded : (digits.leftpad (layout.decimals + 1) '0').getLast? = digits.getLast? :=
    List.getLast?_append_of_ne_nil _ h
  have long : layout.decimals < (digits.leftpad (layout.decimals + 1) '0').length := by
    rw [List.length_leftpad]
    omega
  simp only [text, wholePart_eq plain, fractionPart]
  generalize digits.leftpad (layout.decimals + 1) '0' = all at *
  have nonempty : all ≠ [] := List.ne_nil_of_length_pos (by omega)
  by_cases none : layout.decimals = 0
  · rw [if_pos none, none, Nat.sub_zero, List.take_length, List.append_nil,
      List.getLast?_append_of_ne_nil _ nonempty, padded]
  · have rest : all.drop (all.length - layout.decimals) ≠ [] := by
      rw [ne_eq, List.drop_eq_nil_iff]
      omega
    rw [if_neg none, List.getLast?_append_of_ne_nil _ (List.cons_ne_nil _ _),
      List.getLast?_cons_of_ne_nil rest, List.getLast?_drop, if_neg (by omega), padded]

end Layout

/-- What is not finite is laid out as letters. -/
theorem fixedPoint_not_finite {layout : Layout} (plain : layout.separator = none) {x : Binary64}
    (h : ¬ x.isFinite) : ∃ c ∈ (fixedPoint layout x).getLast?, ¬ c.isDigit := by
  have last (name : List Char) (negative : Bool) (ne : name ≠ []) :
      (layout.text negative name).getLast? = name.getLast? := Layout.getLast?_text plain negative ne
  cases x with
  | nan => exact ⟨'N', last "NaN".toList _ (by decide), by decide⟩
  | infinite _ => exact ⟨'f', last "inf".toList _ (by decide), by decide⟩
  | finite _ => exact absurd rfl h

theorem isPercentage_fixedPoint_iff {layout : Layout} (plain : layout.separator = none)
    (x : Binary64) :
    IsPercentage layout.point layout.decimals (fixedPoint layout x ++ ['%']) ↔ x.isFinite := by
  constructor
  · intro text
    by_contra h
    obtain ⟨c, mem, noDigit⟩ := fixedPoint_not_finite plain h
    exact noDigit (text.isDigit_getLast? c mem)
  · intro h
    cases x with
    | finite x =>
      rw [fixedPoint_finite plain]
      exact isPercentage_numeral layout.point (layout.length_fraction_numeral _ _)
    | _ => contradiction

/-! ### The hundredfold -/

theorem hundredfold_isFinite_iff (x : Binary64.Finite) :
    (Binary64.finite x * .ofInt 100).isFinite ↔ x.magnitude * 100 < Binary64.overflowBound := by
  obtain ⟨hundred, ofInt, value⟩ := Binary64.hasValue_ofInt (n := 100) (by norm_num)
  rw [ofInt, Binary64.mul_isFinite_iff, ← hundred.abs_value, value]
  norm_num

/-- A finite number under the code of a percentage always gives a text, and the text is that of a
percentage as long as the hundredfold is in the range of doubles. -/
theorem render_percentage_iff (options : Options) (code : String) (x : Binary64.Finite)
    (h : Category.ofCode .numeric code.toList = .percentage) :
    ∃ text, render options .numeric code (.number (.finite x)) = .ok (String.ofList text) ∧
      (IsPercentage options.locale.point (FormatCode.percentDecimals code.toList) text ↔
        x.magnitude * 100 < Binary64.overflowBound) := by
  refine ⟨percentage options.locale code.toList (.finite x), ?_, ?_⟩
  · simp only [render, report, h, writeNumber]
    rfl
  · rw [← hundredfold_isFinite_iff]
    exact isPercentage_fixedPoint_iff rfl _

/-- The hundredfold of the double nearest to 10 ^ 306 is still finite. -/
theorem render_percentage_in_range :
    let x : Binary64.Finite := ⟨false, 6413338752028713, 964, by decide⟩
    Category.ofCode .numeric "0.0%".toList = .percentage ∧
      ∃ text, render {} .numeric "0.0%" (.number (.finite x)) = .ok (String.ofList text) ∧
        IsPercentage '.' (FormatCode.percentDecimals "0.0%".toList) text := by
  intro x
  have category : Category.ofCode .numeric "0.0%".toList = .percentage := by decide
  obtain ⟨text, ok, shape⟩ := render_percentage_iff {} "0.0%" x category
  exact ⟨category, text, ok, shape.2 ((hundredfold_isFinite_iff x).1 (by decide +kernel))⟩

/-- The hundredfold of the double nearest to 10 ^ 307 is an infinity. -/
theorem render_percentage_overflows :
    let x : Binary64.Finite := ⟨false, 8016673440035891, 967, by decide⟩
    Category.ofCode .numeric "0%".toList = .percentage ∧
      render {} .numeric "0%" (.number (.finite x)) = .ok "inf%" ∧
      ¬ IsPercentage '.' (FormatCode.percentDecimals "0%".toList) "inf%".toList := by
  refine ⟨by decide, by decide +kernel, fun shape => ?_⟩
  have number : IsPercentage '.' (FormatCode.percentDecimals "0%".toList) ("inf".toList ++ ['%']) :=
    shape
  exact absurd (number.isDigit_getLast? 'f' (by decide)) (by decide)

end CellDisplay.Number
