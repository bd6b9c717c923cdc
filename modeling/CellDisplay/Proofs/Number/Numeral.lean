import Mathlib.Data.List.Basic
import Mathlib.Data.Rat.Cast.Order
import CellDisplay.Number.Styles

/-! What a fixed count of decimals looks like and what number it names. Every finite double is
written as a `Numeral`, whose whole part has no leading zero and whose minus sign is never alone
with zeros; an amount of money is the same numeral with separators in its whole part. -/
namespace CellDisplay

open Decimal

/-! ### Digits -/

theorem Decimal.isDigit_of_mem_digits {n : ℕ} {c : Char} (h : c ∈ digits n) : c.isDigit :=
  Nat.isDigit_of_mem_toDigits (by decide) (by decide) h

theorem Decimal.isDigit_of_mem_padded {width n : ℕ} {c : Char} (h : c ∈ padded width n) :
    c.isDigit := by
  rw [padded, List.leftpad, List.mem_append, List.mem_replicate] at h
  rcases h with ⟨-, rfl⟩ | h
  · rfl
  · exact isDigit_of_mem_digits h

theorem Decimal.head?_digits_ne_zero {n : ℕ} (h : 0 < n) : (digits n).head? ≠ some '0' := by
  induction n using Nat.strong_induction_on with
  | _ n ih =>
    by_cases small : n < 10
    · have head : ∀ k < 10, 0 < k → [Nat.digitChar k].head? ≠ some '0' := by decide
      rw [digits, Nat.toDigits_of_lt_base small]
      exact head n small h
    · rw [digits, Nat.toDigits_of_base_le (by decide) (Nat.le_of_not_lt small),
        List.head?_append_of_ne_nil _ Nat.toDigits_ne_nil]
      exact ih (n / 10) (by omega) (by omega)

/-- Zeros in front do not change the number. -/
theorem Decimal.ofDigitChars_padded (width n : ℕ) :
    Nat.ofDigitChars 10 (padded width n) 0 = n := by
  rw [padded, List.leftpad, Nat.ofDigitChars_append, Nat.ofDigitChars_replicate_zero,
    Nat.mul_zero, digits, Nat.ofDigitChars_ten_toDigits]

/-- A number written with a sign. Its whole part is a number without leading zeros. -/
structure Numeral where
  negative : Bool
  whole : List Char
  fraction : List Char
  isDigit : ∀ c ∈ whole ++ fraction, c.isDigit
  nonempty : whole ≠ []
  noLeadingZero : whole.head? = some '0' → whole = ['0']
  signed : negative → ∃ c ∈ whole ++ fraction, c ≠ '0'

namespace Numeral

def sign (n : Numeral) : List Char := if n.negative then ['-'] else []

theorem sign_eq_or (n : Numeral) : n.sign = [] ∨ n.sign = ['-'] := by
  unfold sign
  split
  · exact .inr rfl
  · exact .inl rfl

/-- The decimals behind the point; a number without decimals has no point. -/
def decimals (point : Char) (n : Numeral) : List Char :=
  if n.fraction = [] then [] else point :: n.fraction

def text (point : Char) (n : Numeral) : List Char := n.sign ++ n.whole ++ n.decimals point

/-- The number that is written. -/
def value (n : Numeral) : ℚ :=
  (if n.negative then -1 else 1) *
    (Nat.ofDigitChars 10 (n.whole ++ n.fraction) 0 / 10 ^ n.fraction.length)

end Numeral

namespace Number

theorem ne_minus_of_isDigit {c : Char} (h : c.isDigit) : c ≠ '-' := by
  rintro rfl
  exact absurd h (by decide)

/-- What is behind a minus sign and does not begin with another is left. -/
theorem dropWhile_sign {sign : List Char} (h : sign = [] ∨ sign = ['-']) {c : Char} (hc : c ≠ '-')
    (rest : List Char) : (sign ++ c :: rest).dropWhile (· = '-') = c :: rest := by
  rcases h with rfl | rfl <;> simp [hc]

theorem dropWhile_sign_whole (n : Numeral) :
    (n.sign ++ n.whole).dropWhile (· = '-') = n.whole := by
  obtain ⟨c, rest, h⟩ := List.exists_cons_of_ne_nil n.nonempty
  have digit : c.isDigit := n.isDigit c (by simp [h])
  rw [h, dropWhile_sign n.sign_eq_or (ne_minus_of_isDigit digit)]

/-- With a known count of decimals a text is the text of one numeral only, whatever the point. -/
theorem numeral_eq_of_text {m n : Numeral} {point : Char}
    (length : m.fraction.length = n.fraction.length) (same : m.text point = n.text point) :
    m = n := by
  have none_iff : m.fraction = [] ↔ n.fraction = [] := by
    rw [← List.length_eq_zero_iff, length, List.length_eq_zero_iff]
  have decimals : (m.decimals point).length = (n.decimals point).length := by
    simp only [Numeral.decimals, none_iff]
    split
    · rfl
    · rw [List.length_cons, List.length_cons, length]
  obtain ⟨front, behind⟩ := List.append_inj' same decimals
  have wholes : m.whole = n.whole := by
    rw [← dropWhile_sign_whole m, front, dropWhile_sign_whole]
  have signs : m.sign = n.sign := by
    rw [wholes] at front
    exact List.append_cancel_right front
  have fractions : m.fraction = n.fraction := by
    simp only [Numeral.decimals, none_iff] at behind
    split_ifs at behind with none
    · rw [none, none_iff.2 none]
    · exact (List.cons.inj behind).2
  have negatives : m.negative = n.negative := by
    unfold Numeral.sign at signs
    cases h : m.negative <;> cases h' : n.negative <;> simp [h, h'] at signs ⊢
  cases m
  cases n
  subst wholes fractions negatives
  rfl

/-! ### Groups of three -/

/-- Groups of three digits from the right end, each with a separator before it, behind a first group
without one. -/
def IsGrouped (separator : Char) (digits text : List Char) : Prop :=
  ∃ (first : List Char) (groups : List (List Char)),
    digits = first ++ groups.flatten ∧ text = first ++ groups.flatMap (separator :: ·) ∧
      first ≠ [] ∧ first.length ≤ 3 ∧ ∀ group ∈ groups, group.length = 3

theorem length_flatten_of_three {groups : List (List Char)}
    (h : ∀ group ∈ groups, group.length = 3) : groups.flatten.length = 3 * groups.length := by
  induction groups with
  | nil => rfl
  | cons group groups ih =>
    rw [List.forall_mem_cons] at h
    rw [List.flatten_cons, List.length_append, h.1, ih h.2, List.length_cons]
    omega

theorem isGrouped_grouped (separator : Char) {digits : List Char} (h : digits ≠ []) :
    IsGrouped separator digits (grouped separator digits) := by
  induction digits with
  | nil => contradiction
  | cons c rest ih =>
    rw [grouped]
    by_cases hr : rest = []
    · subst hr
      exact ⟨[c], [], by simp [grouped]⟩
    obtain ⟨first, groups, digits_eq, text_eq, ne, short, three⟩ := ih hr
    have length : rest.length = first.length + 3 * groups.length := by
      rw [digits_eq, List.length_append, length_flatten_of_three three]
    have pos := List.length_pos_iff.2 ne
    split
    next full =>
      refine ⟨[c], first :: groups, by simp [digits_eq], by simp [text_eq], by simp, by simp, ?_⟩
      exact List.forall_mem_cons.2 ⟨by omega, three⟩
    next full =>
      refine ⟨c :: first, groups, by simp [digits_eq], by simp [text_eq], by simp, ?_, three⟩
      have : rest.length % 3 ≠ 0 := fun h => full ⟨hr, h⟩
      rw [List.length_cons]
      omega

/-! ### Layouts -/

namespace Layout

variable (layout : Layout)

/-- The digits of a number with zeros before them, one more than there are decimals at least. -/
def paddedDigits (n : ℕ) : List Char := (digits n).leftpad (layout.decimals + 1) '0'

/-- The count of digits before the point. -/
def wholeSize (n : ℕ) : ℕ := (layout.paddedDigits n).length - layout.decimals

theorem length_paddedDigits (n : ℕ) :
    (layout.paddedDigits n).length = max (layout.decimals + 1) (digits n).length := by
  rw [paddedDigits, List.length_leftpad]

theorem wholeSize_pos (n : ℕ) : 0 < layout.wholeSize n := by
  rw [wholeSize, length_paddedDigits]
  omega

theorem isDigit_of_mem_paddedDigits {n : ℕ} {c : Char} (h : c ∈ layout.paddedDigits n) :
    c.isDigit :=
  isDigit_of_mem_padded h

theorem paddedDigits_of_long {n : ℕ} (h : 1 < layout.wholeSize n) :
    layout.paddedDigits n = digits n ∧ layout.decimals + 1 < (digits n).length := by
  rw [wholeSize, length_paddedDigits] at h
  have : layout.decimals + 1 - (digits n).length = 0 := by omega
  refine ⟨?_, by omega⟩
  rw [paddedDigits, List.leftpad, this, List.replicate_zero, List.nil_append]

/-- More than one digit stands before the point only if none of them was filled in. -/
theorem noLeadingZero {n : ℕ}
    (h : ((layout.paddedDigits n).take (layout.wholeSize n)).head? = some '0') :
    (layout.paddedDigits n).take (layout.wholeSize n) = ['0'] := by
  obtain one | more : layout.wholeSize n = 1 ∨ 1 < layout.wholeSize n := by
    have := layout.wholeSize_pos n
    omega
  · rw [one] at h ⊢
    cases hp : layout.paddedDigits n with
    | nil => simp [hp] at h
    | cons c rest => simpa [hp] using h
  · obtain ⟨padded, long⟩ := layout.paddedDigits_of_long more
    have pos : 0 < n := by
      by_contra zero
      obtain rfl : n = 0 := by omega
      simp [digits] at long
    rw [List.head?_take, if_neg (by omega), padded] at h
    exact absurd h (head?_digits_ne_zero pos)

theorem exists_ne_zero {n : ℕ} (h : 0 < n) : ∃ c ∈ layout.paddedDigits n, c ≠ '0' := by
  have ne : digits n ≠ [] := Nat.toDigits_ne_nil
  obtain ⟨c, rest, hd⟩ := List.exists_cons_of_ne_nil ne
  refine ⟨c, List.mem_append_right _ (hd ▸ List.mem_cons_self), fun hc => ?_⟩
  apply head?_digits_ne_zero h
  rw [hd, hc, List.head?_cons]

/-- The numeral that a layout makes of a count of units of its last decimal. -/
def numeral (negative : Bool) (n : ℕ) : Numeral where
  negative := negative && (layout.paddedDigits n).any (· ≠ '0')
  whole := (layout.paddedDigits n).take (layout.wholeSize n)
  fraction := (layout.paddedDigits n).drop (layout.wholeSize n)
  isDigit := by
    rw [List.take_append_drop]
    exact fun c => layout.isDigit_of_mem_paddedDigits
  nonempty := by
    have := layout.wholeSize_pos n
    rw [← List.length_pos_iff, List.length_take, length_paddedDigits]
    omega
  noLeadingZero := layout.noLeadingZero
  signed := by
    rw [List.take_append_drop]
    simp

variable (negative : Bool) (n : ℕ)

theorem numeral_digits :
    (layout.numeral negative n).whole ++ (layout.numeral negative n).fraction =
      layout.paddedDigits n :=
  List.take_append_drop _ _

theorem length_fraction_numeral :
    (layout.numeral negative n).fraction.length = layout.decimals := by
  rw [numeral, List.length_drop, wholeSize, length_paddedDigits]
  omega

theorem negative_numeral :
    (layout.numeral negative n).negative ↔ negative ∧ ∃ c ∈ layout.paddedDigits n, c ≠ '0' := by
  simp [numeral]

/-- What is written before and behind the whole part does not depend on the separator. -/
theorem text_digits :
    layout.text negative (digits n) =
      (layout.numeral negative n).sign ++ layout.wholePart (layout.numeral negative n).whole ++
        (layout.numeral negative n).decimals layout.point := by
  have none_iff : (layout.numeral negative n).fraction = [] ↔ layout.decimals = 0 := by
    rw [← List.length_eq_zero_iff, length_fraction_numeral]
  rw [Numeral.decimals]
  simp only [none_iff]
  rfl

/-- The numeral names the count of units of its last decimal. -/
theorem value_numeral :
    (layout.numeral negative n).value =
      (if negative then -1 else 1) * (n / 10 ^ layout.decimals) := by
  have whole : Nat.ofDigitChars 10 (layout.paddedDigits n) 0 = n := ofDigitChars_padded _ n
  rw [Numeral.value, numeral_digits, length_fraction_numeral, whole]
  rcases Nat.eq_zero_or_pos n with rfl | pos
  · simp
  · have written : (layout.numeral negative n).negative = negative := by
      rw [Bool.eq_iff_iff, negative_numeral]
      exact and_iff_left (layout.exists_ne_zero pos)
    rw [written]

end Layout

/-! ### Fixed decimals and amounts of money -/

theorem lt_zero_finite (x : Binary64.Finite) :
    (Binary64.finite x).lt .zero = decide (x.value < 0) := by
  have zero : (Binary64.Finite.zero false).value = 0 := by
    simp [Binary64.Finite.value, Binary64.Finite.magnitude, Binary64.Finite.zero]
  simp only [Binary64.zero, Binary64.lt, zero]

theorem Layout.wholePart_eq {layout : Layout} (plain : layout.separator = none)
    (digits : List Char) : layout.wholePart digits = digits := by
  rw [wholePart, plain]

theorem fixedPoint_finite {layout : Layout} (plain : layout.separator = none)
    (x : Binary64.Finite) :
    fixedPoint layout (.finite x) =
      (layout.numeral (x.value < 0) (x.scaled layout.decimals)).text layout.point := by
  rw [fixedPoint, lt_zero_finite, scaledDigits, Layout.text_digits, Layout.wholePart_eq plain]
  rfl

variable (locale : Locale) (code : List Char) (x : Binary64.Finite)

/-- The numeral of a finite double under a code. -/
def fixedNumeral : Numeral :=
  (decimalLayout locale code).numeral (x.value < 0) (x.scaled (FormatCode.decimals code))

theorem value_fixedNumeral :
    (fixedNumeral locale code x).value = (if x.value < 0 then -1 else 1) *
      (x.scaled (FormatCode.decimals code) / 10 ^ FormatCode.decimals code) := by
  rw [fixedNumeral, Layout.value_numeral]
  push_cast [decide_eq_true_eq]
  rfl

theorem fixedDecimal_eq :
    fixedDecimal locale code (.finite x) = (fixedNumeral locale code x).text locale.point := by
  rw [fixedDecimal, fixedPoint, lt_zero_finite, scaledDigits, Layout.text_digits]
  rfl

theorem currency_eq :
    currency locale code (.finite x) = FormatCode.currencySymbol code ++
      ((fixedNumeral locale code x).sign ++
        grouped locale.separator (fixedNumeral locale code x).whole ++
        (fixedNumeral locale code x).decimals locale.point) := by
  rw [currency, fixedPoint, lt_zero_finite, scaledDigits, Layout.text_digits]
  rfl

/-- The numeral that a code writes for a number, without separators and as an amount of money. -/
structure Writes (n : Numeral) : Prop where
  length_fraction : n.fraction.length = FormatCode.decimals code
  plain : fixedDecimal locale code (.finite x) = n.text locale.point
  amount : ∃ whole, IsGrouped locale.separator n.whole whole ∧
    currency locale code (.finite x) =
      FormatCode.currencySymbol code ++ (n.sign ++ whole ++ n.decimals locale.point)

theorem writes_fixedNumeral : Writes locale code x (fixedNumeral locale code x) where
  length_fraction := Layout.length_fraction_numeral _ _ _
  plain := fixedDecimal_eq locale code x
  amount :=
    ⟨_, isGrouped_grouped _ (fixedNumeral locale code x).nonempty, currency_eq locale code x⟩

/-- No other numeral has the text of a number. -/
theorem writes_iff {n : Numeral} :
    Writes locale code x n ↔ n = fixedNumeral locale code x := by
  have written := writes_fixedNumeral locale code x
  constructor
  · intro h
    exact numeral_eq_of_text (h.length_fraction.trans written.length_fraction.symm)
      (h.plain.symm.trans written.plain)
  · rintro rfl
    exact written

theorem fixedDecimal_shape :
    ∃ n : Numeral, n.fraction.length = FormatCode.decimals code ∧
      (n.negative ↔ x.value < 0 ∧ ∃ c ∈ n.whole ++ n.fraction, c ≠ '0') ∧
      fixedDecimal locale code (.finite x) = n.text locale.point ∧
      ∃ whole, IsGrouped locale.separator n.whole whole ∧
        currency locale code (.finite x) =
          FormatCode.currencySymbol code ++ (n.sign ++ whole ++ n.decimals locale.point) := by
  refine ⟨fixedNumeral locale code x, Layout.length_fraction_numeral _ _ _, ?_,
    fixedDecimal_eq locale code x, _, isGrouped_grouped _ (fixedNumeral locale code x).nonempty,
    currency_eq locale code x⟩
  rw [fixedNumeral, Layout.negative_numeral, Layout.numeral_digits, decide_eq_true_iff]

end Number

end CellDisplay
