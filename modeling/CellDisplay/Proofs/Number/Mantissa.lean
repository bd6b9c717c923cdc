import CellDisplay.Proofs.Number.Decimals
import CellDisplay.Proofs.Number.Scaling

/-! The mantissa of exponential notation. The exponent is adjusted by a quotient, and once more
where the mantissa is written as ten; each quotient is by a power of ten that is off by its own
units. The last quotient has one digit before the point (`exists_final`), and with up to 14 decimals
that digit is not zero. With more, a number next to a power of ten can slip between the two
adjustments: `exponential_normalized_iff` says when. -/
namespace CellDisplay.Number

open Binary64 Decimal

/-! ### The text -/

/-- An optional minus sign, one digit from 1 to 9, the point and the decimals if there are to be
any, the letter, a sign and the digits of an exponent, two of them at least. -/
def IsScientific (point : Char) (decimals : ℕ) (text : List Char) : Prop :=
  ∃ sign first fraction exponentSign exponent,
    text = sign ++ first :: (if decimals = 0 then [] else point :: fraction) ++
        'E' :: exponentSign :: exponent ∧
      (sign = [] ∨ sign = ['-']) ∧ (first.isDigit ∧ first ≠ '0') ∧
      (fraction.length = decimals ∧ ∀ c ∈ fraction, c.isDigit) ∧
      (exponentSign = '+' ∨ exponentSign = '-') ∧
      2 ≤ exponent.length ∧ ∀ c ∈ exponent, c.isDigit

/-- A written ten is found by what stands before the point, as the point is no zero. -/
theorem startsWithTen_append {sign whole rest : List Char} (minus : sign = [] ∨ sign = ['-'])
    (nonempty : whole ≠ []) (noMinus : '-' ∉ whole) (noZero : rest.head? ≠ some '0') :
    startsWithTen (sign ++ whole ++ rest) = ['1', '0'].isPrefixOf whole := by
  obtain ⟨c, digits, rfl⟩ := List.exists_cons_of_ne_nil nonempty
  have first : c ≠ '-' := fun h => noMinus (h ▸ List.mem_cons_self)
  rw [startsWithTen, List.append_assoc, List.cons_append, dropWhile_sign minus first]
  cases digits with
  | cons d more => simp [List.isPrefixOf]
  | nil =>
    cases rest with
    | nil => rfl
    | cons p fraction =>
      have point : ('0' == p) = false :=
        beq_false_of_ne fun zero => noZero (by rw [zero, List.head?_cons])
      simp [List.isPrefixOf, point]

theorem IsScientific.first {point : Char} {decimals : ℕ} {text : List Char}
    (h : IsScientific point decimals text) :
    ∃ first rest, text.dropWhile (· = '-') = first :: rest ∧ first ≠ '0' := by
  obtain ⟨sign, first, fraction, exponentSign, exponent, rfl, minus, ⟨digit, nonzero⟩, -⟩ := h
  rw [List.append_assoc, List.cons_append, dropWhile_sign minus (ne_minus_of_isDigit digit)]
  exact ⟨first, _, rfl, nonzero⟩

theorem exponentText_eq (e : ℤ) :
    ∃ sign exponent, exponentText e = 'E' :: sign :: exponent ∧ (sign = '+' ∨ sign = '-') ∧
      2 ≤ exponent.length ∧ ∀ c ∈ exponent, c.isDigit := by
  refine ⟨_, _, rfl, ?_, ?_, ?_⟩
  · split
    · exact .inr rfl
    · exact .inl rfl
  · rw [padded, List.length_leftpad]
    exact le_max_left _ _
  · intro c mem
    rw [padded, List.leftpad, List.mem_append, List.mem_replicate] at mem
    rcases mem with ⟨-, rfl⟩ | mem
    · rfl
    · exact isDigit_of_mem_digits mem

theorem digitChar_eq_zero_iff {k : ℕ} (h : k < 10) : Nat.digitChar k = '0' ↔ k = 0 := by
  revert k
  decide

section

variable {layout : Layout} (negative : Bool) {n : ℕ}

/-- With one digit before the point the text is scientific unless that digit is zero. -/
theorem isScientific_numeral_iff (small : n < 10 * 10 ^ layout.decimals) (e : ℤ) :
    IsScientific layout.point layout.decimals
        ((layout.numeral negative n).text layout.point ++ exponentText e) ↔
      10 ^ layout.decimals ≤ n := by
  have unit : 0 < 10 ^ layout.decimals := by positivity
  have quotient : n / 10 ^ layout.decimals < 10 := Nat.div_lt_of_lt_mul (by rwa [mul_comm] at small)
  have whole := layout.whole_numeral negative n
  have length := layout.length_fraction_numeral negative n
  have sign := (layout.numeral negative n).sign_eq_or
  have digit := (layout.numeral negative n).isDigit
  rw [Numeral.text, Numeral.decimals]
  simp only [← List.length_eq_zero_iff, length]
  generalize layout.numeral negative n = numeral at *
  rw [digits, Nat.toDigits_of_lt_base quotient] at whole
  rw [whole] at digit ⊢
  have nonzero : Nat.digitChar (n / 10 ^ layout.decimals) ≠ '0' ↔ 10 ^ layout.decimals ≤ n := by
    rw [ne_eq, digitChar_eq_zero_iff quotient, Nat.div_eq_zero_iff, not_or, not_lt]
    exact and_iff_right unit.ne'
  rw [← nonzero]
  have first := digit _ List.mem_cons_self
  constructor
  · intro h
    obtain ⟨c, rest, same, nonzero⟩ := h.first
    rw [List.append_assoc, List.append_assoc, List.singleton_append,
      dropWhile_sign sign (ne_minus_of_isDigit first)] at same
    rwa [(List.cons.inj same).1]
  · intro nonzero
    obtain ⟨exponentSign, exponent, same, exponentShape⟩ := exponentText_eq e
    exact ⟨numeral.sign, _, numeral.fraction, exponentSign, exponent, by simp [same],
      sign, ⟨first, nonzero⟩, ⟨length, fun c mem => digit c (List.mem_cons_of_mem _ mem)⟩,
      exponentShape⟩

/-- A mantissa of ten is found by its digits, as no point is taken for a zero. -/
theorem startsWithTen_numeral_iff (noZero : layout.decimals = 0 ∨ layout.point ≠ '0')
    (small : n < 11 * 10 ^ layout.decimals) :
    startsWithTen ((layout.numeral negative n).text layout.point) ↔
      10 * 10 ^ layout.decimals ≤ n := by
  have unit : 0 < 10 ^ layout.decimals := by positivity
  have quotient : n / 10 ^ layout.decimals < 11 := Nat.div_lt_of_lt_mul (by rwa [mul_comm] at small)
  have whole := layout.whole_numeral negative n
  have sign := (layout.numeral negative n).sign_eq_or
  have digit := (layout.numeral negative n).isDigit
  have length := layout.length_fraction_numeral negative n
  have behind : ((layout.numeral negative n).decimals layout.point).head? ≠ some '0' := by
    rw [Numeral.decimals]
    split
    next => simp
    next some =>
      rw [← List.length_eq_zero_iff, length] at some
      simpa using noZero.resolve_left some
  have noMinus : '-' ∉ (layout.numeral negative n).whole := fun mem =>
    ne_minus_of_isDigit (digit _ (List.mem_append_left _ mem)) rfl
  rw [Numeral.text, startsWithTen_append sign (layout.numeral negative n).nonempty noMinus behind,
    whole, ← Nat.le_div_iff_mul_le unit]
  have below : ∀ k < 11, (['1', '0'].isPrefixOf (digits k) ↔ 10 ≤ k) := by decide
  exact below _ quotient

end

/-! ### The exponent that is written -/

/-- The adjusted exponent, one more after a mantissa of ten. -/
def finalExponent (start : ℤ) (layout : Layout) (x : Binary64) : ℤ :=
  let exponent := adjustedExponent start x
  if startsWithTen (mantissa layout x exponent) then exponent + 1 else exponent

theorem not_isZero_finite {x : Finite} (nonzero : x.isZero = false) : ¬ (finite x).isZero := by
  rw [Binary64.isZero, nonzero]
  exact Bool.false_ne_true

theorem scientific_of_nonzero (layout : Layout) {x : Finite} (nonzero : x.isZero = false) :
    scientific layout (finite x) = scientificFrom x.abs.logarithm layout (finite x) := by
  rw [scientific, if_neg (not_isZero_finite nonzero)]
  rfl

theorem scientificFrom_eq (start : ℤ) (layout : Layout) (x : Binary64) :
    scientificFrom start layout x = mantissa layout x (finalExponent start layout x) ++
      exponentText (finalExponent start layout x) := rfl

theorem mantissa_finite {layout : Layout} (plain : layout.separator = none) {x q : Finite} {e : ℤ}
    (quotient : scaleDown (finite x) e = finite q) :
    mantissa layout (finite x) e =
      (layout.numeral (q.value < 0) (q.scaled layout.decimals)).text layout.point := by
  rw [mantissa, quotient, fixedPoint_finite plain]

theorem Takes.exists_finite {f : Binary64 → Binary64} {x : Finite} {r : ℚ}
    (takes : Takes f x.magnitude r) (pos : 0 < r) :
    ∃ q : Finite, f (finite x) = finite q ∧ q.magnitude = r := by
  obtain ⟨σ, unit, value⟩ : ∃ σ : ℚ, |σ| = 1 ∧ x.value = σ * x.magnitude := by
    rcases eq_or_eq_neg_of_abs_eq x.abs_value with plus | minus
    · exact ⟨1, abs_one, by rw [plus, one_mul]⟩
    · exact ⟨-1, by norm_num, by rw [minus, neg_one_mul]⟩
  obtain ⟨q, same, hq⟩ := takes _ σ unit (value ▸ hasValue_finite x)
  exact ⟨q, same, by rw [← q.abs_value, hq, abs_mul, unit, one_mul, abs_of_pos pos]⟩

/-- What the quotient by the written exponent is like: one digit before the point, and short of one
by no more than half a unit of the last decimal leaves of the carry. -/
structure Final (x : Finite) (e : ℤ) (decimals : ℕ) (q : Finite) : Prop where
  quotient : scaleDown (finite x) e = finite q
  close : Close 16 q.magnitude (x.magnitude / 10 ^ e)
  low : 9007199254740974 * (10 ^ decimals - 1 / 20) ≤
    9007199254741010 * (q.magnitude * 10 ^ decimals)
  small : q.scaled decimals < 10 * 10 ^ decimals

namespace Adjusted

variable {x q : Finite} {e : ℤ} (h : Adjusted x e q.magnitude) (decimals : ℕ)
include h

theorem half_le : 1 / 2 ≤ q.magnitude := by linarith [h.low]

/-- Not more than ten units of the first digit, and a little. -/
theorem scaled_lt : q.scaled decimals < 11 * 10 ^ decimals := by
  have one : (1 : ℚ) ≤ 10 ^ decimals := one_le_pow₀ (by norm_num)
  have below : q.magnitude * 10 ^ decimals ≤ 41 / 4 * 10 ^ decimals := by
    gcongr
    linarith [h.high]
  apply Finite.scaled_lt h.half_le
  push_cast
  linarith

variable {decimals}

theorem final (quotient : scaleDown (finite x) e = finite q)
    (small : q.scaled decimals < 10 * 10 ^ decimals) : Final x e decimals q := by
  have unit : (0 : ℚ) < 10 ^ decimals := by positivity
  have low := mul_le_mul_of_nonneg_right h.low unit.le
  exact ⟨quotient, h.close, by linarith, small⟩

theorem nine_le (ten : 10 * 10 ^ decimals ≤ q.scaled decimals) : 9 ≤ q.magnitude := by
  have one : (1 : ℚ) ≤ 10 ^ decimals := one_le_pow₀ (by norm_num)
  have reached := Finite.half_le_of_le_scaled h.half_le decimals ten
  push_cast at reached
  by_contra less
  have : q.magnitude * 10 ^ decimals ≤ 9 * 10 ^ decimals := by
    gcongr
    exact (not_le.1 less).le
  linarith

/-- After a mantissa of ten the quotient by the next power is near one, from above or below. -/
theorem exists_final_succ (nonzero : x.isZero = false)
    (ten : 10 * 10 ^ decimals ≤ q.scaled decimals) : ∃ q', Final x (e + 1) decimals q' := by
  have one : (1 : ℚ) ≤ 10 ^ decimals := one_le_pow₀ (by norm_num)
  have reached := Finite.half_le_of_le_scaled h.half_le decimals ten
  push_cast at reached
  have large := h.nine_le ten
  have up := div_ten_zpow_succ x.magnitude e
  have close := h.close
  have high := h.high
  generalize x.magnitude / 10 ^ e = y at *
  obtain ⟨r, takes, close'⟩ := exists_takes_of_quotient nonzero up
    (by linarith [close.high]) (by linarith [close.low])
  have pos : 0 < r := close'.pos (by norm_num) (by linarith [close.high])
  obtain ⟨q', quotient, rfl⟩ := takes.exists_finite pos
  refine ⟨q', quotient, by rwa [up], ?_, ?_⟩
  · have first := mul_le_mul_of_nonneg_right close.high (zero_le_one.trans one)
    have second := mul_le_mul_of_nonneg_right close'.low (zero_le_one.trans one)
    linarith
  · have below : q'.magnitude * 10 ^ decimals ≤ 2 * 10 ^ decimals := by
      gcongr
      linarith [close'.high, close.low]
    apply Finite.scaled_lt (by linarith [close'.low, close.high])
    push_cast
    linarith

end Adjusted

theorem exists_final {x : Finite} (nonzero : x.isZero = false) {start : ℤ}
    (guess : Guesses start x.magnitude) {layout : Layout} (plain : layout.separator = none)
    (noDigit : ¬ layout.point.isDigit) :
    ∃ q, Final x (finalExponent start layout (finite x)) layout.decimals q := by
  obtain ⟨r, adjusted⟩ := exists_adjusted nonzero guess
  have pos : 0 < r := by linarith [adjusted.low]
  obtain ⟨q, quotient, rfl⟩ := adjusted.takes.exists_finite pos
  have carry := startsWithTen_numeral_iff (q.value < 0) (.inr fun zero => noDigit (zero ▸ rfl))
    (adjusted.scaled_lt _)
  rw [← mantissa_finite plain quotient] at carry
  simp only [finalExponent, carry]
  split_ifs with ten
  · exact adjusted.exists_final_succ nonzero ten
  · exact ⟨q, adjusted.final quotient (not_le.1 ten)⟩

namespace Final

variable {x q : Finite} {e : ℤ} {decimals : ℕ} (h : Final x e decimals q)
include h

theorem half_le : 1 / 2 ≤ q.magnitude := by
  have one : (1 : ℚ) ≤ 10 ^ decimals := one_le_pow₀ (by norm_num)
  by_contra less
  have : q.magnitude * 10 ^ decimals ≤ 1 / 2 * 10 ^ decimals := by
    gcongr
    exact (not_le.1 less).le
  linarith [h.low]

/-- Up to 14 decimals, what is missing is less than half a unit. -/
theorem le_scaled (few : decimals ≤ 14) : 10 ^ decimals ≤ q.scaled decimals := by
  have unit : 10 ^ decimals ≤ 10 ^ 14 := Nat.pow_le_pow_right (by norm_num) few
  have unit' : (10 : ℚ) ^ decimals ≤ 10 ^ 14 := pow_le_pow_right₀ (by norm_num) few
  apply Finite.le_scaled_of_half h.half_le decimals (by omega)
  push_cast
  linarith [h.low]

variable (short : q.scaled decimals < 10 ^ decimals)
include short

theorem magnitude_lt_one : q.magnitude < 1 := by
  by_contra large
  refine short.not_ge (Finite.le_scaled h.half_le decimals ?_)
  push_cast
  exact le_mul_of_one_le_left (by positivity) (not_lt.1 large)

/-- With 15 decimals or more, only numbers next to a power of ten come out short. -/
theorem near_power : |x.magnitude - 10 ^ e| ≤ 2 ^ (-47 : ℤ) * 10 ^ e := by
  have many : 15 ≤ decimals := by
    by_contra few
    exact short.not_ge (h.le_scaled (by omega))
  have unit : (10 : ℚ) ^ 15 ≤ 10 ^ decimals := pow_le_pow_right₀ (by norm_num) many
  have below := h.magnitude_lt_one short
  have above : 9007199254740973 ≤ 9007199254741010 * q.magnitude := by
    by_contra less
    have := mul_lt_mul_of_pos_right (not_le.1 less) (show (0 : ℚ) < 10 ^ decimals by positivity)
    linarith [h.low]
  have pos := ten_zpow_pos e
  have close := h.close
  obtain ⟨y, hy⟩ : ∃ y, x.magnitude = y * 10 ^ e := ⟨_, (div_mul_cancel₀ _ pos.ne').symm⟩
  rw [hy, mul_div_cancel_right₀ _ pos.ne'] at close
  rw [hy, ← sub_one_mul, abs_mul, abs_of_pos pos]
  gcongr
  rw [abs_le]
  norm_num
  constructor <;> linarith [close.low, close.high]

end Final

theorem Final.short_iff {x q : Finite} {e : ℤ} {decimals : ℕ} (h : Final x e decimals q)
    (many : 16 ≤ decimals) : q.scaled decimals < 10 ^ decimals ↔ q.magnitude < 1 := by
  refine ⟨h.magnitude_lt_one, fun lt => ?_⟩
  have unit : (10 : ℚ) ^ 16 ≤ 10 ^ decimals := pow_le_pow_right₀ (by norm_num) many
  have pos : 0 < 10 ^ decimals := by positivity
  have : q.scaled decimals ≤ 10 ^ decimals - 1 := by
    apply Finite.scaled_le h.half_le
    have := mul_le_mul_of_nonneg_right (Finite.magnitude_le_of_lt_one lt)
      (show (0 : ℚ) ≤ 10 ^ decimals by positivity)
    push_cast [Nat.cast_sub (Nat.one_le_of_lt pos)]
    linarith
  omega

/-! ### The notation -/

/-- The rounded logarithm is the decimal exponent or one more. -/
theorem guesses_logarithm {x : Finite} (nonzero : x.isZero = false) :
    Guesses x.abs.logarithm x.magnitude := by
  have pos : 0 < x.magnitude := (two_zpow_pos _).trans_le (two_zpow_le_magnitude nonzero)
  obtain ⟨low, high⟩ := floorLog10_spec pos
  have power {a b : ℤ} (h : a ≤ b) : (10 : ℚ) ^ a ≤ 10 ^ b := zpow_le_zpow_right₀ (by norm_num) h
  rw [Finite.logarithm, x.magnitude_abs]
  split_ifs
  · exact ⟨(power (by omega)).trans low, high.trans_le (power (by omega))⟩
  · exact ⟨(power (by omega)).trans low, high.trans_le (power (by omega))⟩

/-- The decimals of the last quotient do not reach one. -/
def Slips (start : ℤ) (layout : Layout) (x : Finite) : Prop :=
  ∃ q : Finite, scaleDown (finite x) (finalExponent start layout (finite x)) = finite q ∧
    q.scaled layout.decimals < 10 ^ layout.decimals

/-- From every guess within one of the decimal exponent the notation is a normalized one unless it
slips, which takes 15 decimals and a number next to a power of ten; from 16 decimals on it is a last
quotient below one. -/
theorem exponential_normalized_iff (locale : Locale) (code : List Char) {x : Finite}
    (nonzero : x.isZero = false) (noDigit : ¬ locale.point.isDigit) :
    (Guesses x.abs.logarithm x.magnitude ∧ exponential locale code (finite x) =
      scientificFrom x.abs.logarithm (decimalLayout locale code) (finite x)) ∧
    ∀ start, Guesses start x.magnitude →
      let layout := decimalLayout locale code
      let last := finalExponent start layout (finite x)
      (IsScientific locale.point (FormatCode.decimals code)
          (scientificFrom start layout (finite x)) ↔ ¬ Slips start layout x) ∧
      (Slips start layout x →
        15 ≤ FormatCode.decimals code ∧ |x.magnitude - 10 ^ last| ≤ 2 ^ (-47 : ℤ) * 10 ^ last) ∧
      (16 ≤ FormatCode.decimals code →
        (Slips start layout x ↔ (scaleDown (finite x) last).abs.lt (ofInt 1))) := by
  refine ⟨⟨guesses_logarithm nonzero, scientific_of_nonzero _ nonzero⟩, fun start guess => ?_⟩
  have plain : (decimalLayout locale code).separator = none := rfl
  obtain ⟨q, final⟩ := exists_final nonzero guess plain noDigit
  have slips : Slips start (decimalLayout locale code) x ↔
      q.scaled (FormatCode.decimals code) < 10 ^ FormatCode.decimals code := by
    constructor
    · rintro ⟨_, same, short⟩
      rw [final.quotient] at same
      cases same
      exact short
    · exact fun short => ⟨q, final.quotient, short⟩
  dsimp only
  rw [slips]
  refine ⟨?_, fun short => ⟨?_, final.near_power short⟩, fun many => ?_⟩
  · rw [scientificFrom_eq, mantissa_finite plain final.quotient, not_lt]
    exact isScientific_numeral_iff _ final.small _
  · by_contra few
    exact short.not_ge (final.le_scaled (Nat.le_of_lt_succ (not_le.1 few)))
  · refine (final.short_iff many).trans ?_
    rw [final.quotient]
    have value : (finite q).abs.HasValue q.magnitude := hasValue_finite q.abs
    have := value.lt_iff (hasValue_ofInt (n := 1) (by norm_num))
    rw [this, Int.cast_one]

/-- With two decimals nothing slips: the hundredfold of 9.9951 is rounded to a thousand, and the
mantissa is taken again by the next power of ten. -/
theorem exponential_normalized_two_decimals :
    let x : Finite := ⟨false, 5626741079441356, -49, by decide⟩
    x.isZero = false ∧ ¬ Locale.enUS.point.isDigit ∧
      exponential .enUS "0.00E+00".toList (finite x) = "1.00E+01".toList ∧
      IsScientific '.' 2 (exponential .enUS "0.00E+00".toList (finite x)) := by
  intro x
  have nonzero : x.isZero = false := by decide
  have noDigit : ¬ Locale.enUS.point.isDigit := by decide
  obtain ⟨⟨guess, same⟩, normalized⟩ :=
    exponential_normalized_iff .enUS "0.00E+00".toList nonzero noDigit
  obtain ⟨shape, slips, -⟩ := normalized _ guess
  have few : ¬ 15 ≤ FormatCode.decimals "0.00E+00".toList := by decide
  have carried : exponential .enUS "0.00E+00".toList (finite x) = "1.00E+01".toList := by
    decide +kernel
  exact ⟨nonzero, noDigit, carried, same ▸ shape.2 fun short => few (slips short).1⟩

/-- The double next below 0.1 takes the exponent -1 from its logarithm, leaves it for a quotient
below one, and comes back to it as its hundredfold rounds to ten. -/
theorem exponential_slips :
    let x : Finite := ⟨false, 7205759403792793, -56, by decide⟩
    exponential .enUS "0.0000000000000000E+00".toList (finite x) =
        "0.9999999999999999E-01".toList ∧
      ¬ IsScientific '.' 16 (exponential .enUS "0.0000000000000000E+00".toList (finite x)) := by
  intro x
  have written : exponential .enUS "0.0000000000000000E+00".toList (finite x) =
      "0.9999999999999999E-01".toList := by decide +kernel
  refine ⟨written, fun h => ?_⟩
  obtain ⟨first, rest, same, nonzero⟩ := h.first
  rw [written] at same
  exact nonzero (List.cons.inj same).1.symm

end CellDisplay.Number
