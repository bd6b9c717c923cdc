import CellDisplay.Proofs.Binary64.PowerError
import CellDisplay.Proofs.Number.Numeral

/-! What stands before the point of a fixed count of decimals, and how a small number is counted in
units of the last one. The digits before the point are those of a quotient (`whole_numeral`). The
count does not pass a whole number that the exact product does not pass, whichever of its two
roundings is taken, and for a power of ten that is not exact only one of them can be. -/
namespace CellDisplay

open Rounding Decimal

/-! ### Before the point -/

namespace Decimal

/-- The last digit of a padded number stands for the rest by ten. -/
theorem padded_succ (width n : ℕ) :
    padded (width + 2) n = padded (width + 1) (n / 10) ++ [Nat.digitChar (n % 10)] := by
  rcases Nat.lt_or_ge n 10 with small | large
  · have tens : n / 10 = 0 := by omega
    have ones : n % 10 = n := by omega
    simp [padded, digits, List.leftpad, tens, ones, Nat.toDigits_of_lt_base small,
      List.replicate_succ']
  · simp [padded, digits, List.leftpad, Nat.toDigits_of_base_le (by decide) large]

theorem take_padded (decimals n : ℕ) :
    (padded (decimals + 1) n).take ((padded (decimals + 1) n).length - decimals) =
      digits (n / 10 ^ decimals) := by
  induction decimals generalizing n with
  | zero =>
    have : 0 < (digits n).length := Nat.length_toDigits_pos
    rw [Nat.sub_zero, List.take_length, pow_zero, Nat.div_one, padded, List.leftpad,
      Nat.sub_eq_zero_of_le this, List.replicate_zero, List.nil_append]
  | succ decimals ih =>
    rw [padded_succ, List.length_append, List.length_singleton, Nat.add_sub_add_right,
      List.take_append_of_le_length (Nat.sub_le _ _), ih, Nat.div_div_eq_div_mul, pow_succ']

/-- A number lies between the powers of ten that its digits are counted by. -/
theorem digits_bounds {n : ℕ} (pos : 0 < n) :
    (10 : ℚ) ^ (((digits n).length : ℤ) - 1) ≤ n ∧ (n : ℚ) < 10 ^ ((digits n).length : ℤ) := by
  have one : 0 < (digits n).length := Nat.length_toDigits_pos
  obtain ⟨k, hk⟩ : ∃ k, (digits n).length = k + 1 := ⟨_, (Nat.sub_add_cancel one).symm⟩
  have high : n < 10 ^ (k + 1) := (Nat.length_toDigits_le_iff (by norm_num) k.succ_pos).1 hk.le
  have low : 10 ^ k ≤ n := by
    rcases Nat.eq_zero_or_pos k with rfl | more
    · exact pos
    · by_contra short
      have := (Nat.length_toDigits_le_iff (by norm_num) more).2 (not_le.1 short)
      rw [digits] at hk
      omega
  rw [hk, Nat.cast_add_one, add_sub_cancel_right]
  exact_mod_cast And.intro low high

theorem floorLog10_spec {q : ℚ} (h : 0 < q) :
    (10 : ℚ) ^ floorLog10 q ≤ q ∧ q < 10 ^ (floorLog10 q + 1) := by
  have ten : (10 : ℚ) ≠ 0 := by norm_num
  have split : q * q.den = q.num.natAbs := by
    rw [Rat.mul_den_eq_num, ← Int.cast_natCast, Int.natAbs_of_nonneg (Rat.num_pos.2 h).le]
  have num_pos : 0 < q.num.natAbs := by
    have := Rat.num_pos.2 h
    omega
  obtain ⟨num_low, num_high⟩ := digits_bounds num_pos
  obtain ⟨den_low, den_high⟩ := digits_bounds q.den_pos
  simp only [floorLog10]
  generalize ((digits q.num.natAbs).length : ℤ) = a at *
  generalize ((digits q.den).length : ℤ) = b at *
  have upper : q < 10 ^ (a - b + 1) := by
    by_contra above
    have : (10 : ℚ) ^ (a - b + 1) * 10 ^ (b - 1) ≤ q * q.den :=
      mul_le_mul (not_lt.1 above) den_low (by positivity) h.le
    rw [← zpow_add₀ ten, split, show a - b + 1 + (b - 1) = a by omega] at this
    linarith
  have lower : (10 : ℚ) ^ (a - b - 1) ≤ q := by
    by_contra below
    have : q * q.den < 10 ^ (a - b - 1) * 10 ^ b :=
      mul_lt_mul'' (not_le.1 below) den_high h.le (by positivity)
    rw [← zpow_add₀ ten, split, show a - b - 1 + b = a - 1 by omega] at this
    linarith
  split_ifs with reached
  · exact ⟨reached, upper⟩
  · exact ⟨lower, by simpa using reached⟩

end Decimal

theorem Number.Layout.whole_numeral (layout : Number.Layout) (negative : Bool) (n : ℕ) :
    (layout.numeral negative n).whole = digits (n / 10 ^ layout.decimals) :=
  take_padded layout.decimals n

/-! ### The count of units -/

namespace Binary64

theorem finite_of_mul_eq {x : Finite} {y : Binary64} {z : Finite} (h : finite x * y = finite z) :
    ∃ p, y = finite p ∧ z.value = rounded (x.value * p.value) := by
  cases y with
  | nan => cases h
  | infinite b =>
    change (if x.isZero then nan else infinite (x.negative != b)) = finite z at h
    split at h <;> cases h
  | finite p => exact ⟨p, rfl, value_of_ofRat_eq h⟩

namespace Finite

section

variable (x : Finite) {decimals : ℕ}

theorem exactScaled_eq (decimals : ℕ) :
    (x.exactScaled decimals : ℤ) = nearestEven (x.magnitude * 10 ^ decimals) :=
  Int.toNat_of_nonneg (le_nearestEven (by
    have := x.magnitude_nonneg
    positivity))

/-- What is rounded, and how: a product in doubles below 2 ^ 53 away from zero, and otherwise the
exact product. -/
theorem scaled_eq_nearestAway_or (decimals : ℕ) :
    (∃ product : Finite, finite x.abs * powerOfTen decimals = finite product ∧
        0 ≤ product.value ∧ product.value < 9007199254740992 ∧
        (x.scaled decimals : ℤ) = nearestAway product.value) ∨
      (x.scaled decimals : ℤ) = nearestEven (x.magnitude * 10 ^ decimals) := by
  have unsigned : (finite x.abs * powerOfTen decimals).Unsigned :=
    Unsigned.mul rfl (unsigned_powerOfTen decimals)
  unfold scaled
  cases h : finite x.abs * powerOfTen decimals with
  | finite product =>
    rw [h] at unsigned
    have nonneg : 0 ≤ product.value := Finite.value_of_unsigned unsigned ▸ product.magnitude_nonneg
    dsimp only
    split_ifs with small
    · exact .inl ⟨product, rfl, nonneg, small, Int.toNat_of_nonneg (nearestAway_nonneg nonneg)⟩
    · exact .inr (x.exactScaled_eq decimals)
  | _ => exact .inr (x.exactScaled_eq decimals)

theorem scaled_of_magnitude_zero (zero : x.magnitude = 0) : x.scaled decimals = 0 := by
  rcases x.scaled_eq_nearestAway_or decimals with ⟨product, h, -, -, count⟩ | count
  · obtain ⟨p, -, value⟩ := finite_of_mul_eq h
    rw [x.value_abs, zero, zero_mul, rounded_zero] at value
    rw [value, nearestAway_zero] at count
    exact_mod_cast count
  · rw [zero, zero_mul, nearestEven_zero] at count
    exact_mod_cast count

/-- Where the power of ten is exact, the product decides which rounding is taken; one that
overflows is not below 2 ^ 53 either. -/
theorem scaled_eq_ite (few : decimals ≤ 22) :
    (x.scaled decimals : ℤ) =
      if rounded (x.magnitude * 10 ^ decimals) < 9007199254740992 then
        nearestAway (rounded (x.magnitude * 10 ^ decimals))
      else nearestEven (x.magnitude * 10 ^ decimals) := by
  have nonneg : 0 ≤ x.magnitude * 10 ^ decimals := mul_nonneg x.magnitude_nonneg (by positivity)
  obtain ⟨p, power, exact⟩ := hasValue_powerOfTen few
  have overflow (h : ¬ (finite x.abs * finite p).isFinite) :
      ¬ rounded (x.magnitude * 10 ^ decimals) < 9007199254740992 := by
    rw [mul_isFinite_iff, not_lt, ← p.abs_value, exact, abs_of_nonneg (by positivity)] at h
    have large : ((9007199254740992 : ℤ) : ℚ) ≤ 2 ^ (1023 : ℤ) :=
      le_trans (by norm_num) (two_zpow_le (show (53 : ℤ) ≤ 1023 by norm_num))
    have := rounded_intCast_le (by norm_num) (large.trans (overflowBound_between.1.le.trans h))
    exact not_lt.2 (by exact_mod_cast this)
  unfold scaled
  rw [power]
  cases h : finite x.abs * finite p with
  | nan => rw [if_neg (overflow (by simp [h, isFinite])), exactScaled_eq]
  | infinite _ => rw [if_neg (overflow (by simp [h, isFinite])), exactScaled_eq]
  | finite product =>
    have value : product.value = rounded (x.magnitude * 10 ^ decimals) := by
      rw [value_of_ofRat_eq h, x.value_abs, exact]
    dsimp only
    rw [value]
    split
    · exact Int.toNat_of_nonneg (nearestAway_nonneg (rounded_nonneg nonneg))
    · exact x.exactScaled_eq decimals

/-- All other powers of ten are too large for a product that is rounded in doubles. -/
theorem scaled_eq_nearestEven (many : 23 ≤ decimals) (large : 1 ≤ x.magnitude * 2 ^ decimals) :
    (x.scaled decimals : ℤ) = nearestEven (x.magnitude * 10 ^ decimals) := by
  unfold scaled
  cases h : finite x.abs * powerOfTen decimals with
  | finite product =>
    obtain ⟨p, power, value⟩ := finite_of_mul_eq h
    have reached : ((9007199254740992 : ℤ) : ℚ) ≤ x.magnitude * p.value := by
      calc ((9007199254740992 : ℤ) : ℚ) ≤ 2 ^ 53 * (x.magnitude * 2 ^ decimals) := by
            norm_num
            linarith
        _ = x.magnitude * 2 ^ (53 + decimals) := by ring
        _ ≤ x.magnitude * p.value := by
            have := x.magnitude_nonneg
            gcongr
            exact two_pow_le_powerOfTen many power
    have := rounded_intCast_le (by norm_num) reached
    rw [x.value_abs] at value
    rw [← value] at this
    dsimp only
    rw [if_neg (not_lt.2 (by exact_mod_cast this)), exactScaled_eq]
  | _ => exact x.exactScaled_eq decimals

end

variable {x : Finite} (half : 1 / 2 ≤ x.magnitude) (decimals : ℕ)
include half

/-- The product is rounded in doubles only where the power of ten is exact. -/
theorem scaled_eq_or :
    rounded (x.magnitude * 10 ^ decimals) < 9007199254740992 ∧
        (x.scaled decimals : ℤ) = nearestAway (rounded (x.magnitude * 10 ^ decimals)) ∨
      (x.scaled decimals : ℤ) = nearestEven (x.magnitude * 10 ^ decimals) := by
  rcases le_or_gt decimals 22 with few | many
  · rw [x.scaled_eq_ite few]
    split_ifs with small
    · exact .inl ⟨small, rfl⟩
    · exact .inr rfl
  · have two : (2 : ℚ) ≤ 2 ^ decimals := le_self_pow₀ (by norm_num) (by omega)
    have large : 1 ≤ x.magnitude * 2 ^ decimals := by
      calc (1 : ℚ) = 1 / 2 * 2 := by norm_num
        _ ≤ x.magnitude * 2 ^ decimals := by gcongr
    exact .inr (x.scaled_eq_nearestEven many large)

theorem le_scaled {n : ℕ} (le : n ≤ x.magnitude * 10 ^ decimals) : n ≤ x.scaled decimals := by
  have nonneg : 0 ≤ x.magnitude * 10 ^ decimals := mul_nonneg (by linarith) (by positivity)
  have le : ((n : ℤ) : ℚ) ≤ x.magnitude * 10 ^ decimals := by exact_mod_cast le
  rcases scaled_eq_or half decimals with ⟨small, count⟩ | count
  · have low : (n : ℤ) ≤ nearestAway (rounded (x.magnitude * 10 ^ decimals)) := by
      rw [le_nearestAway_iff (rounded_nonneg nonneg)]
      by_cases bits : n ≤ 9007199254740992
      · have := rounded_intCast_le (n := n) (by omega) le
        linarith
      · have many : ((9007199254740992 : ℤ) : ℚ) ≤ x.magnitude * 10 ^ decimals := by
          refine le.trans' ?_
          exact_mod_cast (not_le.1 bits).le
        have := rounded_intCast_le (by norm_num) many
        norm_num at this
        linarith
    omega
  · have := le_nearestEven le
    omega

theorem scaled_le {n : ℕ} (le : x.magnitude * 10 ^ decimals ≤ n) : x.scaled decimals ≤ n := by
  have nonneg : 0 ≤ x.magnitude * 10 ^ decimals := mul_nonneg (by linarith) (by positivity)
  rcases scaled_eq_or half decimals with ⟨small, count⟩ | count
  · have high : rounded (x.magnitude * 10 ^ decimals) ≤ n := by
      by_cases bits : n ≤ 9007199254740992
      · rw [← rounded_of_holds (holds_natCast bits)]
        exact rounded_mono le
      · have : (9007199254740992 : ℚ) < n := by exact_mod_cast not_le.1 bits
        linarith
    have : ¬ (n : ℤ) + 1 ≤ nearestAway (rounded (x.magnitude * 10 ^ decimals)) := by
      have := le_nearestAway_iff (n := n + 1) (rounded_nonneg nonneg)
      rw [this]
      push_cast
      linarith
    omega
  · have le : x.magnitude * 10 ^ decimals ≤ (n : ℤ) := by exact_mod_cast le
    have := nearestEven_le le
    omega

/-- Less than half a unit is made up for, as long as the half is a double. -/
theorem le_scaled_of_half {n : ℕ} (bits : n ≤ 4503599627370496)
    (lt : n - 1 / 2 < x.magnitude * 10 ^ decimals) : n ≤ x.scaled decimals := by
  have nonneg : 0 ≤ x.magnitude * 10 ^ decimals := mul_nonneg (by linarith) (by positivity)
  rcases scaled_eq_or half decimals with ⟨-, count⟩ | count
  · cases n with
    | zero => exact Nat.zero_le _
    | succ k =>
      push_cast at lt
      have reached : (k : ℚ) + 1 / 2 ≤ rounded (x.magnitude * 10 ^ decimals) := by
        rw [← rounded_of_holds (holds_half (k := k) (by omega))]
        exact rounded_mono (by linarith)
      have low : ((k + 1 : ℕ) : ℤ) ≤ nearestAway (rounded (x.magnitude * 10 ^ decimals)) := by
        rw [le_nearestAway_iff (rounded_nonneg nonneg)]
        push_cast
        linarith
      omega
  · have near := abs_le.1 (abs_nearestEven_sub_le (x.magnitude * 10 ^ decimals))
    have : ((n : ℤ) - 1 : ℚ) < nearestEven (x.magnitude * 10 ^ decimals) := by
      push_cast
      linarith
    have : (n : ℤ) - 1 < nearestEven (x.magnitude * 10 ^ decimals) := by exact_mod_cast this
    omega

/-- What is counted is half a unit short at most, but for the rounding of the product. -/
theorem half_le_of_le_scaled {n : ℕ} (le : n ≤ x.scaled decimals) :
    9007199254740992 * (n - 1 / 2) ≤ 9007199254740994 * (x.magnitude * 10 ^ decimals) := by
  have one : (1 : ℚ) ≤ 10 ^ decimals := one_le_pow₀ (by norm_num)
  have large : 1 / 2 ≤ x.magnitude * 10 ^ decimals := by
    calc (1 / 2 : ℚ) = 1 / 2 * 1 := by ring
      _ ≤ x.magnitude * 10 ^ decimals := mul_le_mul half one (by norm_num) (by linarith)
  have pos : 0 < x.magnitude * 10 ^ decimals := by linarith
  rcases scaled_eq_or half decimals with ⟨-, count⟩ | count
  · have low : (n : ℤ) ≤ nearestAway (rounded (x.magnitude * 10 ^ decimals)) := by omega
    rw [le_nearestAway_iff (rounded_nonneg pos.le)] at low
    have normal : 2 ^ (-1022 : ℤ) ≤ x.magnitude * 10 ^ decimals := by
      refine le_trans ?_ large
      exact (two_zpow_le (show (-1022 : ℤ) ≤ -1 by norm_num)).trans (by norm_num)
    have := ((Close.refl _).rounded (by norm_num) pos normal).high
    push_cast at low
    linarith
  · have near := abs_le.1 (abs_nearestEven_sub_le (x.magnitude * 10 ^ decimals))
    have low : ((n : ℤ) : ℚ) ≤ nearestEven (x.magnitude * 10 ^ decimals) := by
      exact_mod_cast count ▸ Int.ofNat_le.2 le
    push_cast at low
    linarith

theorem scaled_lt {n : ℕ}
    (lt : 9007199254740994 * (x.magnitude * 10 ^ decimals) < 9007199254740992 * (n - 1 / 2)) :
    x.scaled decimals < n := by
  by_contra le
  exact lt.not_ge (half_le_of_le_scaled half decimals (not_lt.1 le))

end Finite

end Binary64

end CellDisplay
