import CellDisplay.Proofs.Binary64.Negation
import CellDisplay.Proofs.Number.Accuracy
import CellDisplay.Proofs.Number.Symbol

/-! The text of a number beside that of its negation. Digits are taken from magnitudes, and so is
the exponent, as a sign does not hide a mantissa of ten. So all that a negation adds to a text is a
minus sign, directly before the first digit of the number, and it adds none where all digits that
are written are zeros (`mirrors_neg`). -/
namespace CellDisplay.Number

open Binary64

/-! ### Signs of layouts -/

namespace Layout

variable (layout : Layout)

/-- A numeral behind its sign. -/
def unsigned (n : Numeral) : List Char := layout.wholePart n.whole ++ n.decimals layout.point

theorem head?_unsigned (n : Numeral) : (layout.unsigned n).head? = n.whole.head? := by
  obtain ⟨c, rest, whole⟩ := List.exists_cons_of_ne_nil n.nonempty
  have head : (layout.wholePart n.whole).head? = some c := by
    rw [wholePart]
    split
    · rw [head?_grouped, whole, List.head?_cons]
    · rw [whole, List.head?_cons]
  rw [unsigned, List.head?_append, head, whole, List.head?_cons, Option.some_or]

theorem firstDigit_unsigned (n : Numeral) : ∃ c ∈ (layout.unsigned n).head?, c.isDigit := by
  obtain ⟨c, rest, whole⟩ := List.exists_cons_of_ne_nil n.nonempty
  refine ⟨c, ?_, n.isDigit c ?_⟩
  · rw [head?_unsigned, whole, List.head?_cons, Option.mem_some_iff]
  · rw [whole, List.cons_append]
    exact List.mem_cons_self

/-- Zero is written in zeros. -/
theorem exists_ne_zero_iff {n : ℕ} : (∃ c ∈ layout.paddedDigits n, c ≠ '0') ↔ 0 < n := by
  refine ⟨fun some => Nat.pos_of_ne_zero ?_, layout.exists_ne_zero⟩
  rintro rfl
  obtain ⟨c, mem, ne⟩ := some
  rw [paddedDigits, List.leftpad, List.mem_append, List.mem_replicate] at mem
  rcases mem with ⟨-, zero⟩ | mem
  · exact ne zero
  · exact ne (List.mem_singleton.1 mem)

theorem sign_numeral (negative : Bool) (n : ℕ) :
    (layout.numeral negative n).sign = if negative ∧ 0 < n then ['-'] else [] := by
  simp only [Numeral.sign, negative_numeral, exists_ne_zero_iff]

/-- The texts of a number and of its negation, between what is written around both: the digits of a
numeral, and a minus sign directly before the first of them if there is one that is not zero. -/
structure Mirrors (front behind : List Char) (n : Numeral) (plus minus : List Char) : Prop where
  length_fraction : n.fraction.length = layout.decimals
  firstDigit : ∃ c ∈ (layout.unsigned n).head?, c.isDigit
  text : plus = front ++ (layout.unsigned n ++ behind)
  sign : (∃ c ∈ n.whole ++ n.fraction, c ≠ '0') →
    minus = front ++ '-' :: (layout.unsigned n ++ behind)
  noSign : (∀ c ∈ n.whole ++ n.fraction, c = '0') → minus = plus

variable {layout}

theorem Mirrors.between {n : Numeral} {plus minus : List Char}
    (h : layout.Mirrors [] [] n plus minus) (front behind : List Char) :
    layout.Mirrors front behind n (front ++ plus ++ behind) (front ++ minus ++ behind) where
  length_fraction := h.length_fraction
  firstDigit := h.firstDigit
  text := by simp [h.text]
  sign some := by simp [h.sign some]
  noSign none := by rw [h.noSign none]

end Layout

/-- The sign of a layout is no part of a mantissa of ten. -/
theorem startsWithTen_text (layout : Layout) (negative : Bool) (digits : List Char) :
    startsWithTen (layout.text negative digits) = startsWithTen (layout.text false digits) := by
  simp only [startsWithTen, Layout.text]
  split
  · rfl
  · rfl

theorem scaledDigits_neg (decimals : ℕ) (x : Binary64) :
    scaledDigits decimals (-x) = scaledDigits decimals x := by
  cases x <;> rfl

theorem fixedPoint_eq_sign_append (layout : Layout) (x : Finite) :
    let n := layout.numeral (x.value < 0) (x.scaled layout.decimals)
    fixedPoint layout (finite x) = n.sign ++ layout.unsigned n := by
  rw [fixedPoint, lt_zero_finite, scaledDigits, Layout.text_digits, List.append_assoc]
  rfl

/-- What is written with a digit that is not zero is not zero. -/
theorem value_pos_of_scaled {x : Finite} {decimals : ℕ} (nonneg : 0 ≤ x.value)
    (written : 0 < x.scaled decimals) : 0 < x.value := by
  refine lt_of_le_of_ne nonneg fun zero => ?_
  have magnitude : x.magnitude = 0 := by rw [← x.abs_value, ← zero, abs_zero]
  rw [x.scaled_of_magnitude_zero magnitude] at written
  exact lt_irrefl 0 written

theorem mirrors_fixedPoint (layout : Layout) {x : Finite} (nonneg : 0 ≤ x.value) :
    layout.Mirrors [] [] (layout.numeral false (x.scaled layout.decimals))
      (fixedPoint layout (finite x)) (fixedPoint layout (-finite x)) := by
  have plus : fixedPoint layout (finite x) =
      layout.unsigned (layout.numeral false (x.scaled layout.decimals)) := by
    rw [fixedPoint_eq_sign_append, decide_eq_false nonneg.not_gt]
    rfl
  have minus : fixedPoint layout (-finite x) =
      (if -x.value < 0 ∧ 0 < x.scaled layout.decimals then ['-'] else []) ++
        layout.unsigned (layout.numeral false (x.scaled layout.decimals)) := by
    have opposite := fixedPoint_eq_sign_append layout x.neg
    simp only [layout.sign_numeral, x.value_neg, decide_eq_true_iff] at opposite
    exact opposite
  refine ⟨layout.length_fraction_numeral _ _, layout.firstDigit_unsigned _, by simp [plus],
    fun some => ?_, fun none => ?_⟩
  · rw [layout.numeral_digits, layout.exists_ne_zero_iff] at some
    have negative : -x.value < 0 := neg_lt_zero.2 (value_pos_of_scaled nonneg some)
    rw [minus, if_pos ⟨negative, some⟩]
    simp
  · rw [layout.numeral_digits] at none
    have zeros : ¬ 0 < x.scaled layout.decimals := fun some => by
      obtain ⟨c, mem, ne⟩ := layout.exists_ne_zero some
      exact ne (none c mem)
    rw [minus, if_neg fun h => zeros h.2, plus, List.nil_append]

/-! ### The quotient and the exponent of a negation -/

theorem scaleDown_neg (x : Binary64) (e : ℤ) : scaleDown (-x) e = -scaleDown x e := by
  unfold scaleDown
  split_ifs
  · exact x.neg_div _
  · dsimp only
    split_ifs
    · exact x.neg_mul _
    · rw [x.neg_mul, Binary64.neg_mul]

theorem mantissa_neg (layout : Layout) (x : Binary64) (e : ℤ) :
    mantissa layout (-x) e = fixedPoint layout (-scaleDown x e) := by
  rw [mantissa, scaleDown_neg]

theorem finalExponent_neg (start : ℤ) (layout : Layout) (x : Binary64) :
    finalExponent start layout (-x) = finalExponent start layout x := by
  have adjusted : adjustedExponent start (-x) = adjustedExponent start x := by
    rw [adjustedExponent, x.abs_neg]
    rfl
  have ten (e : ℤ) :
      startsWithTen (mantissa layout (-x) e) = startsWithTen (mantissa layout x e) := by
    rw [mantissa_neg, mantissa, fixedPoint, fixedPoint, scaledDigits_neg, startsWithTen_text,
      ← startsWithTen_text]
  simp only [finalExponent, adjusted, ten]

theorem Takes.exists_of_pos {f : Binary64 → Binary64} {x : Finite} {r : ℚ}
    (takes : Takes f x.magnitude r) (pos : 0 < x.value) :
    ∃ q : Finite, f (finite x) = finite q ∧ q.value = r := by
  have value : (finite x).HasValue (1 * x.magnitude) := by
    rw [one_mul, ← x.abs_value, abs_of_pos pos]
    exact hasValue_finite x
  have result := takes (finite x) 1 abs_one value
  rwa [one_mul] at result

/-- The quotient by the written exponent is finite, whatever the point looks like. -/
theorem exists_last_quotient {x : Finite} (pos : 0 < x.value) {start : ℤ}
    (guess : Guesses start x.magnitude) (layout : Layout) :
    ∃ q : Finite, scaleDown (finite x) (finalExponent start layout (finite x)) = finite q ∧
      0 ≤ q.value := by
  have nonzero := x.isZero_eq_false pos.ne'
  obtain ⟨r, adjusted⟩ := exists_adjusted nonzero guess
  have below := adjusted.exponent_lt
  simp only [finalExponent]
  generalize adjustedExponent start (finite x) = e at *
  split_ifs
  · obtain below | rfl : e + 1 < 309 ∨ e = 308 := by omega
    · obtain ⟨r', takes, -, positive, -⟩ := adjusted.exists_takes_succ nonzero below
      obtain ⟨q, quotient, rfl⟩ := takes.exists_of_pos pos
      exact ⟨q, quotient, positive.le⟩
    · refine ⟨_, scaleDown_last x, ?_⟩
      simp [Finite.value, Finite.magnitude, Finite.zero]
  · obtain ⟨q, quotient, rfl⟩ := adjusted.takes.exists_of_pos pos
    exact ⟨q, quotient, by linarith [adjusted.low]⟩

/-! ### The number renderers -/

section

variable (locale : Locale) (code : List Char) {x : Finite} (pos : 0 < x.value)
include pos

theorem mirrors_percentage (inRange : (finite x * ofInt 100).isFinite) :
    ∃ n, Layout.Mirrors ⟨FormatCode.percentDecimals code, locale.point, none⟩ [] ['%'] n
      (percentage locale code (finite x)) (percentage locale code (-finite x)) := by
  obtain ⟨hundred, ofInt, value⟩ := hasValue_ofInt (n := 100) (by norm_num)
  rw [percentage, percentage, Binary64.neg_mul]
  cases product : finite x * Binary64.ofInt 100 with
  | finite y =>
    have nonneg : 0 ≤ y.value := by
      rw [ofInt] at product
      obtain ⟨_, same, rounds⟩ := finite_of_mul_eq product
      cases same
      rw [rounds, value]
      apply rounded_nonneg
      push_cast
      linarith
    exact ⟨_, (mirrors_fixedPoint _ nonneg).between [] ['%']⟩
  | _ =>
    rw [product] at inRange
    contradiction

theorem mirrors_scientificFrom {start : ℤ} (guess : Guesses start x.magnitude) (layout : Layout) :
    ∃ n, layout.Mirrors [] (exponentText (finalExponent start layout (finite x))) n
      (scientificFrom start layout (finite x)) (scientificFrom start layout (-finite x)) := by
  obtain ⟨q, quotient, nonneg⟩ := exists_last_quotient pos guess layout
  rw [scientificFrom_eq, scientificFrom_eq, finalExponent_neg, mantissa_neg, mantissa, quotient]
  exact ⟨_, (mirrors_fixedPoint layout nonneg).between [] _⟩

end

/-- A negation changes the text of a number by one minus sign, directly before its first digit, and
only if a digit that is not zero is written: in amounts of money behind the symbol, in percentages
whose hundredfold is finite, in fixed decimals, and in the mantissa of exponential notation, from
every guess within one of the decimal exponent. -/
theorem mirrors_neg (locale : Locale) (code : List Char) {x : Finite} (pos : 0 < x.value) :
    let layout := decimalLayout locale code
    (∃ n, { layout with separator := some locale.separator : Layout }.Mirrors
      (FormatCode.currencySymbol code) [] n
      (currency locale code (finite x)) (currency locale code (-finite x))) ∧
    ((finite x * ofInt 100).isFinite →
      ∃ n, Layout.Mirrors ⟨FormatCode.percentDecimals code, locale.point, none⟩ [] ['%'] n
        (percentage locale code (finite x)) (percentage locale code (-finite x))) ∧
    (∃ n, layout.Mirrors [] [] n
      (fixedDecimal locale code (finite x)) (fixedDecimal locale code (-finite x))) ∧
    (∃ e n, layout.Mirrors [] (exponentText e) n
      (exponential locale code (finite x)) (exponential locale code (-finite x))) ∧
    ∀ start, Guesses start x.magnitude →
      ∃ n, layout.Mirrors [] (exponentText (finalExponent start layout (finite x))) n
        (scientificFrom start layout (finite x)) (scientificFrom start layout (-finite x)) := by
  intro layout
  have nonzero := x.isZero_eq_false pos.ne'
  refine ⟨?_, mirrors_percentage locale code pos, ⟨_, mirrors_fixedPoint layout pos.le⟩, ?_,
    fun start guess => mirrors_scientificFrom pos guess layout⟩
  · have number := mirrors_fixedPoint
      { layout with separator := some locale.separator } pos.le
    have amount := number.between (FormatCode.currencySymbol code) []
    rw [List.append_nil, List.append_nil] at amount
    exact ⟨_, amount⟩
  · have written := mirrors_scientificFrom pos (guesses_logarithm nonzero) layout
    have plus : exponential locale code (finite x) =
        scientificFrom x.abs.logarithm layout (finite x) := scientific_of_nonzero layout nonzero
    have minus : exponential locale code (-finite x) =
        scientificFrom x.abs.logarithm layout (-finite x) :=
      scientific_of_nonzero layout (x := x.neg) nonzero
    rw [plus, minus]
    exact ⟨_, written⟩

/-- Four thousandths have no sign with two decimals, but as a percentage and as a mantissa. -/
theorem mirrors_neg_four_thousandths :
    let x : Finite := ⟨false, 4611686018427388, -60, by decide⟩
    let code := "\"$\"0.00%E+00".toList
    0 < x.value ∧ (finite x * ofInt 100).isFinite ∧
      ((∃ n, Layout.Mirrors ⟨2, '.', some ','⟩ ['$'] [] n
          (currency .enUS code (finite x)) (currency .enUS code (-finite x))) ∧
        currency .enUS code (finite x) = "$0.00".toList ∧
        currency .enUS code (-finite x) = "$0.00".toList) ∧
      ((∃ n, Layout.Mirrors ⟨2, '.', none⟩ [] ['%'] n
          (percentage .enUS code (finite x)) (percentage .enUS code (-finite x))) ∧
        percentage .enUS code (finite x) = "0.40%".toList ∧
        percentage .enUS code (-finite x) = "-0.40%".toList) ∧
      ((∃ n, Layout.Mirrors ⟨2, '.', none⟩ [] [] n
          (fixedDecimal .enUS code (finite x)) (fixedDecimal .enUS code (-finite x))) ∧
        fixedDecimal .enUS code (finite x) = "0.00".toList ∧
        fixedDecimal .enUS code (-finite x) = "0.00".toList) ∧
      (∃ e n, Layout.Mirrors ⟨2, '.', none⟩ [] (exponentText e) n
          (exponential .enUS code (finite x)) (exponential .enUS code (-finite x))) ∧
        exponential .enUS code (finite x) = "4.00E-03".toList ∧
        exponential .enUS code (-finite x) = "-4.00E-03".toList := by
  intro x code
  have pos : 0 < x.value := by decide +kernel
  have inRange : (finite x * ofInt 100).isFinite := by decide +kernel
  obtain ⟨amount, percent, plain, scaled, -⟩ := mirrors_neg .enUS code pos
  refine ⟨pos, inRange, ⟨amount, ?_⟩, ⟨percent inRange, ?_⟩, ⟨plain, ?_⟩, scaled, ?_⟩ <;>
    decide +kernel

end CellDisplay.Number
