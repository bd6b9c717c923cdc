import CellDisplay.Proofs.Number.Mantissa

/-! How accurate exponential notation is. The mantissa is rounded from a quotient that is off by
sixteen units of the last bit, and up to 12 decimals these are less than a tenth of a unit of
the last decimal. So the notation is off by less than a whole unit wherever the power of ten is
finite. The 309th is not, and it is taken only where a point that is a zero makes the mantissa look
like a ten (`exponential_accurate_iff`); any other point is safe (`exponential_accurate`). -/
namespace CellDisplay.Number

open Binary64 Decimal Rounding

/-! ### The error of a mantissa -/

/-- Half a unit, and what the product in doubles is off before. -/
theorem abs_scaled_sub_le (q : Finite) {decimals : ℕ} (few : decimals ≤ 22) {k : ℤ}
    (low : -1021 ≤ k) (le : q.magnitude * 10 ^ decimals ≤ 2 ^ k) :
    |(q.scaled decimals : ℚ) - q.magnitude * 10 ^ decimals| ≤ 1 / 2 + 2 ^ (k - 54) := by
  have nonneg : 0 ≤ q.magnitude * 10 ^ decimals := mul_nonneg q.magnitude_nonneg (by positivity)
  rw [← Int.cast_natCast, q.scaled_eq_ite few]
  split_ifs
  · have whole := abs_nearestAway_sub_le (rounded_nonneg nonneg)
    have product := abs_rounded_sub_le low ((abs_of_nonneg nonneg).trans_le le)
    exact (abs_sub_le _ _ _).trans (add_le_add whole product)
  · have whole := abs_nearestEven_sub_le (q.magnitude * 10 ^ decimals)
    linarith [two_zpow_pos (k - 54)]

theorem abs_scaled_sub_lt {q : Finite} {y : ℚ} {decimals : ℕ} (few : decimals ≤ 12)
    (close : Close 16 q.magnitude y) (most : y ≤ 11) :
    |(q.scaled decimals : ℚ) - y * 10 ^ decimals| < 1 := by
  have unit : (10 : ℚ) ^ decimals ≤ 10 ^ 12 := pow_le_pow_right₀ (by norm_num) few
  have bits : q.magnitude * 10 ^ decimals ≤ 2 ^ (44 : ℤ) := by
    calc q.magnitude * 10 ^ decimals ≤ 12 * 10 ^ 12 := by
          gcongr
          linarith [close.high]
      _ ≤ 2 ^ (44 : ℤ) := by norm_num
  have whole := abs_scaled_sub_le q (by omega) (by norm_num) bits
  have quotient : |q.magnitude - y| ≤ 1 / 10 ^ 13 := by
    rw [abs_le]
    norm_num
    constructor <;> linarith [close.low, close.high]
  have units : |q.magnitude * 10 ^ decimals - y * 10 ^ decimals| ≤ 1 / 10 := by
    rw [← sub_mul, abs_mul, abs_of_nonneg (by positivity : (0 : ℚ) ≤ 10 ^ decimals)]
    calc |q.magnitude - y| * 10 ^ decimals ≤ 1 / 10 ^ 13 * 10 ^ 12 := by gcongr
      _ = 1 / 10 := by norm_num
  norm_num at whole
  linarith [abs_sub_le (q.scaled decimals : ℚ) (q.magnitude * 10 ^ decimals) (y * 10 ^ decimals)]

/-- A mantissa and an exponent that are off by less than a unit of the last decimal. -/
def IsAccurate (n : Numeral) (e : ℤ) (q : ℚ) : Prop :=
  |n.value * 10 ^ e - q| < 10 ^ (e - n.fraction.length)

section

variable {layout : Layout} (plain : layout.separator = none) {x : Finite} {e : ℤ}

include plain in
/-- Whatever the written exponent is, its mantissa is accurate if the quotient is. -/
theorem exists_accurate {r : ℚ} (few : layout.decimals ≤ 12)
    (takes : Takes (scaleDown · e) x.magnitude r) (close : Close 16 r (x.magnitude / 10 ^ e))
    (pos : 0 < r) (most : x.magnitude / 10 ^ e ≤ 11) :
    ∃ n : Numeral, n.fraction.length = layout.decimals ∧
      mantissa layout (finite x) e = n.text layout.point ∧ IsAccurate n e x.value := by
  have power := ten_zpow_pos e
  have ten : (10 : ℚ) ≠ 0 := by norm_num
  obtain ⟨σ, hσ⟩ : ∃ σ : ℚ, σ = if x.value < 0 then -1 else 1 := ⟨_, rfl⟩
  have unit : |σ| = 1 := by
    rw [hσ]
    split_ifs <;> norm_num
  have signed : x.value = σ * x.magnitude := hσ ▸ x.value_eq_sign_mul
  obtain ⟨q, quotient, value⟩ := takes (finite x) σ unit (signed ▸ hasValue_finite x)
  have magnitude : q.magnitude = r := by
    rw [← q.abs_value, value, abs_mul, unit, one_mul, abs_of_pos pos]
  have sign : q.value < 0 ↔ x.value < 0 := by
    rw [value, hσ]
    split_ifs with negative
    · exact iff_of_true (by linarith) negative
    · exact iff_of_false (by linarith) negative
  refine ⟨_, layout.length_fraction_numeral _ _, mantissa_finite plain quotient, ?_⟩
  have error := abs_scaled_sub_lt few (magnitude ▸ close) most
  have moved : σ * (q.scaled layout.decimals / 10 ^ layout.decimals) * 10 ^ e -
      σ * x.magnitude = σ * ((q.scaled layout.decimals -
        x.magnitude / 10 ^ e * 10 ^ layout.decimals) * 10 ^ (e - layout.decimals)) := by
    rw [zpow_sub₀ ten, zpow_natCast]
    field_simp
  rw [IsAccurate, layout.value_numeral, layout.length_fraction_numeral]
  simp only [decide_eq_true_eq, sign]
  rw [← hσ, signed, moved, abs_mul, unit, one_mul, abs_mul, abs_of_pos (ten_zpow_pos _)]
  exact mul_lt_of_lt_one_left (ten_zpow_pos _) error

/-! ### The exponent that is written -/

theorem Adjusted.between {r : ℚ} (h : Adjusted x e r) :
    9 / 10 ≤ x.magnitude / 10 ^ e ∧ x.magnitude / 10 ^ e ≤ 11 := by
  constructor <;> linarith [h.low, h.high, h.close.low, h.close.high]

theorem Adjusted.exponent_lt {r : ℚ} (h : Adjusted x e r) : e < 309 := by
  have low := (le_div_iff₀ (ten_zpow_pos e)).1 h.between.1
  have unit := ten_zpow_pos e
  exact Number.exponent_lt (by linarith)

/-- The next power of ten leaves a quotient of some size too, as long as it is finite. -/
theorem Adjusted.exists_takes_succ {r : ℚ} (h : Adjusted x e r) (nonzero : x.isZero = false)
    (below : e + 1 < 309) :
    ∃ r', Takes (scaleDown · (e + 1)) x.magnitude r' ∧ Close 16 r' (x.magnitude / 10 ^ (e + 1)) ∧
      0 < r' ∧ x.magnitude / 10 ^ (e + 1) ≤ 11 := by
  obtain ⟨low, high⟩ := h.between
  have up := div_ten_zpow_succ x.magnitude e
  have unit := ten_zpow_pos (e + 1)
  have most := (div_le_iff₀ unit).1 (show x.magnitude / 10 ^ (e + 1) ≤ 100 by linarith)
  have least := (le_div_iff₀ unit).1 (show 1 / 16 ≤ x.magnitude / 10 ^ (e + 1) by linarith)
  obtain ⟨r', takes, close⟩ := exists_takes_scaleDown nonzero most (by linarith) below
  exact ⟨r', takes, close, close.pos (by norm_num) (by linarith), by linarith⟩

/-- No double is large enough for a mantissa of ten with the last power of ten. -/
theorem Adjusted.exponent_succ_lt {q : Finite} (h : Adjusted x e q.magnitude) {decimals : ℕ}
    (ten : 10 * 10 ^ decimals ≤ q.scaled decimals) : e + 1 < 309 := by
  have large : 8 ≤ x.magnitude / 10 ^ e := by linarith [h.nine_le ten, h.close.high]
  rw [le_div_iff₀ (ten_zpow_pos e)] at large
  apply Number.exponent_lt
  rw [zpow_add_one₀ (by norm_num)]
  linarith [ten_zpow_pos e]

/-- The power of ten that is infinite leaves a zero. -/
theorem scaleDown_last (x : Finite) :
    scaleDown (finite x) 309 = finite (.zero (x.negative != false)) := by
  change finite x / powerOfTen 309 = _
  rw [powerOfTen_infinite]
  rfl

include plain in
theorem mantissa_last (x : Finite) :
    mantissa layout (finite x) 309 = (layout.numeral false 0).text layout.point := by
  have zero (negative : Bool) : (Finite.zero negative).magnitude = 0 := by
    simp [Finite.magnitude, Finite.zero]
  rw [mantissa_finite plain (scaleDown_last x), Finite.scaled_of_magnitude_zero _ (zero _)]
  simp [Finite.value, zero]

/-- With a zero for the point every mantissa from one to two looks like a ten. -/
theorem startsWithTen_of_zero_point (zero : layout.point = '0') (some : 0 < layout.decimals)
    (negative : Bool) {n : ℕ} (low : 10 ^ layout.decimals ≤ n)
    (high : n < 2 * 10 ^ layout.decimals) :
    startsWithTen ((layout.numeral negative n).text layout.point) := by
  have one : n / 10 ^ layout.decimals = 1 := Nat.div_eq_of_lt_le (by omega) (by omega)
  have whole := layout.whole_numeral negative n
  rw [one] at whole
  have fraction : (layout.numeral negative n).fraction ≠ [] := by
    rw [← List.length_pos_iff, layout.length_fraction_numeral]
    exact some
  rw [startsWithTen, Numeral.text, Numeral.decimals, if_neg fraction, whole, zero,
    List.append_assoc]
  have first := dropWhile_sign (layout.numeral negative n).sign_eq_or (show '1' ≠ '-' by decide)
    ('0' :: (layout.numeral negative n).fraction)
  exact congrArg (['1', '0'].isPrefixOf ·) first

section

variable (nonzero : x.isZero = false) (few : layout.decimals ≤ 12) {start : ℤ}
  (guess : Guesses start x.magnitude)
include plain nonzero few guess

/-- The last power of ten is taken just where a zero for the point makes a ten of a mantissa by the
power before it. -/
theorem finalExponent_eq_last_iff :
    finalExponent start layout (finite x) = 309 ↔
      layout.point = '0' ∧ 0 < layout.decimals ∧ adjustedExponent start (finite x) = 308 := by
  obtain ⟨r, adjusted⟩ := exists_adjusted nonzero guess
  have pos : 0 < r := by linarith [adjusted.low]
  have below := adjusted.exponent_lt
  obtain ⟨q, quotient, rfl⟩ := adjusted.takes.exists_finite pos
  have text := mantissa_finite plain quotient
  simp only [finalExponent]
  generalize adjustedExponent start (finite x) = e at *
  constructor
  · intro last
    split_ifs at last with ten
    · have point : layout.point = '0' ∧ 0 < layout.decimals := by
        by_contra noZero
        rw [not_and_or, Nat.pos_iff_ne_zero, not_not] at noZero
        rw [text, startsWithTen_numeral_iff _ noZero.symm (adjusted.scaled_lt _)] at ten
        have := adjusted.exponent_succ_lt ten
        omega
      exact ⟨point.1, point.2, by omega⟩
    · omega
  · rintro ⟨zero, some, rfl⟩
    have unit : (10 : ℚ) ^ 1 ≤ 10 ^ layout.decimals := pow_le_pow_right₀ (by norm_num) some
    have largest : 5 * (x.magnitude / 10 ^ (308 : ℤ)) ≤ 9 := by
      rw [← mul_div_assoc, div_le_iff₀ (ten_zpow_pos _)]
      exact (mul_le_mul_of_nonneg_left x.magnitude_lt.le (by norm_num)).trans two_zpow_1024_le
    have high : q.scaled layout.decimals < 2 * 10 ^ layout.decimals := by
      have : q.magnitude * 10 ^ layout.decimals ≤ 19 / 10 * 10 ^ layout.decimals := by
        gcongr
        linarith [adjusted.close.high]
      apply Finite.scaled_lt adjusted.half_le
      push_cast
      linarith
    have low := (adjusted.final quotient (by omega)).le_scaled (few.trans (by norm_num))
    rw [text, if_pos (startsWithTen_of_zero_point zero some _ low high)]
    rfl

/-- Every other mantissa is accurate, and that one is zero. -/
theorem exists_accurate_or :
    let last := finalExponent start layout (finite x)
    ∃ n : Numeral, n.fraction.length = layout.decimals ∧
      mantissa layout (finite x) last = n.text layout.point ∧
      (last ≠ 309 ∧ IsAccurate n last x.value ∨ last = 309 ∧ n.value = 0) := by
  obtain ⟨r, adjusted⟩ := exists_adjusted nonzero guess
  have pos : 0 < r := by linarith [adjusted.low]
  obtain ⟨low, high⟩ := adjusted.between
  have below := adjusted.exponent_lt
  simp only [finalExponent]
  generalize adjustedExponent start (finite x) = e at *
  split_ifs
  · obtain below | rfl : e + 1 < 309 ∨ e = 308 := by omega
    · -- after a mantissa that is no ten one decimal is lost, not the accuracy
      obtain ⟨r, takes, close, pos, most⟩ := adjusted.exists_takes_succ nonzero below
      obtain ⟨n, length, text, accurate⟩ := exists_accurate plain few takes close pos most
      exact ⟨n, length, text, .inl ⟨below.ne, accurate⟩⟩
    · exact ⟨layout.numeral false 0, layout.length_fraction_numeral _ _, mantissa_last plain x,
        .inr ⟨rfl, by simp [layout.value_numeral]⟩⟩
  · obtain ⟨n, length, text, accurate⟩ :=
      exists_accurate plain few adjusted.takes adjusted.close pos high
    exact ⟨n, length, text, .inl ⟨below.ne, accurate⟩⟩

end

end

/-! ### The notation -/

/-- Up to 12 decimals, and from every guess within one of the decimal exponent, the notation is off
by less than a unit of its last decimal unless the exponent 309 is written for a number that is not
smaller than such a unit. It is written just where the adjusted exponent is 308 and decimals stand
behind a zero for the point. -/
theorem exponential_accurate_iff (locale : Locale) (code : List Char) {x : Finite}
    (nonzero : x.isZero = false) (few : FormatCode.decimals code ≤ 12) :
    (Guesses x.abs.logarithm x.magnitude ∧ exponential locale code (finite x) =
      scientificFrom x.abs.logarithm (decimalLayout locale code) (finite x)) ∧
    ∀ start, Guesses start x.magnitude →
      let layout := decimalLayout locale code
      let last := finalExponent start layout (finite x)
      ∃ n : Numeral, n.fraction.length = FormatCode.decimals code ∧
        scientificFrom start layout (finite x) = n.text locale.point ++ exponentText last ∧
        (|n.value * 10 ^ last - x.value| < 10 ^ (last - FormatCode.decimals code) ↔
          ¬ (last = 309 ∧ (10 : ℚ) ^ (309 - FormatCode.decimals code : ℤ) ≤ |x.value|)) ∧
        (last = 309 ↔ locale.point = '0' ∧ 0 < FormatCode.decimals code ∧
          adjustedExponent start (finite x) = 308) := by
  refine ⟨⟨guesses_logarithm nonzero, scientific_of_nonzero _ nonzero⟩, fun start guess => ?_⟩
  have plain : (decimalLayout locale code).separator = none := rfl
  have decimals : (decimalLayout locale code).decimals = FormatCode.decimals code := rfl
  obtain ⟨n, length, text, written⟩ := exists_accurate_or plain nonzero few guess
  rw [decimals] at length
  rw [IsAccurate, length] at written
  refine ⟨n, length, ?_, ?_, finalExponent_eq_last_iff plain nonzero few guess⟩
  · rw [scientificFrom_eq, text]
    rfl
  · rcases written with ⟨notLast, accurate⟩ | ⟨last, zero⟩
    · exact iff_of_true accurate fun h => notLast h.1
    · simp [last, zero]

/-- Up to 12 decimals, and from every guess within one of the decimal exponent, the notation is off
by less than a unit of its last decimal, for every point that cannot be mistaken for a zero. -/
theorem exponential_accurate (locale : Locale) (code : List Char) {x : Finite}
    (nonzero : x.isZero = false) (few : FormatCode.decimals code ≤ 12)
    (point : locale.point ≠ '0') :
    (Guesses x.abs.logarithm x.magnitude ∧ exponential locale code (finite x) =
      scientificFrom x.abs.logarithm (decimalLayout locale code) (finite x)) ∧
    ∀ start, Guesses start x.magnitude →
      let layout := decimalLayout locale code
      let last := finalExponent start layout (finite x)
      ∃ n : Numeral, n.fraction.length = FormatCode.decimals code ∧
        scientificFrom start layout (finite x) = n.text locale.point ++ exponentText last ∧
        |n.value * 10 ^ last - x.value| < 10 ^ (last - FormatCode.decimals code) := by
  obtain ⟨first, accurate⟩ := exponential_accurate_iff locale code nonzero few
  refine ⟨first, fun start guess => ?_⟩
  obtain ⟨n, length, text, within, last⟩ := accurate start guess
  exact ⟨n, length, text, within.2 fun h => point (last.1 h.1).1⟩

/-- The least double is 4.94...E-324, and its power of ten is taken in two halves. -/
theorem exponential_accurate_least :
    let x : Finite := ⟨false, 1, -1074, by decide⟩
    x.isZero = false ∧ FormatCode.decimals "0.00E+00".toList ≤ 12 ∧ Locale.enUS.point ≠ '0' ∧
      ∃ (n : Numeral) (e : ℤ), n.fraction.length = 2 ∧
        exponential .enUS "0.00E+00".toList (finite x) = n.text '.' ++ exponentText e ∧
        |n.value * 10 ^ e - x.value| < 10 ^ (e - 2) := by
  intro x
  have nonzero : x.isZero = false := by decide
  have few : FormatCode.decimals "0.00E+00".toList ≤ 12 := by decide
  have point : Locale.enUS.point ≠ '0' := by decide
  obtain ⟨⟨guess, same⟩, accurate⟩ := exponential_accurate .enUS "0.00E+00".toList nonzero few point
  obtain ⟨n, length, text, within⟩ := accurate _ guess
  exact ⟨nonzero, few, point, n, _, length, same.trans text, within⟩

/-- A point that is a zero does not tell where a mantissa ends: 1.50 looks like a ten, and the next
power of ten is infinite. -/
theorem exponential_inaccurate :
    let x : Finite := ⟨false, 7515631350033648, 971, by decide⟩
    let locale : Locale := { Locale.enUS with point := '0' }
    x.isZero = false ∧ FormatCode.decimals "0.00E+00".toList = 2 ∧
      exponential locale "0.00E+00".toList (finite x) = "0000E+309".toList ∧
      ¬ |0 * 10 ^ 309 - x.value| < 10 ^ (309 - 2) := by
  decide +kernel

end CellDisplay.Number
