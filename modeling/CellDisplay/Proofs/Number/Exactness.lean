import CellDisplay.Proofs.Number.Decimals

/-! Which doubles a fixed count of decimals writes exactly: just those that have no more decimals
(`fixedDecimal_exact_iff`). A double is a whole number over a power of two, so a decimal count of
units of it that is whole is a multiple of as many fives; hence it is 0 or too large for a power of
ten that is not exact. -/
namespace CellDisplay

open Rounding

namespace Binary64.Finite

section

variable {x : Finite} {n decimals : ℕ} (whole : x.magnitude * 10 ^ decimals = n)
include whole

theorem five_pow_dvd : 5 ^ decimals ∣ n := by
  obtain ⟨j, k, exponent⟩ : ∃ j k : ℕ, x.exponent = j - k :=
    ⟨x.exponent.toNat, (-x.exponent).toNat, by omega⟩
  have cleared : x.significand * 2 ^ j * 10 ^ decimals = n * 2 ^ k := by
    have : (x.significand * 2 ^ j * 10 ^ decimals : ℚ) = n * 2 ^ k := by
      rw [← whole, magnitude, exponent, zpow_sub₀ (by norm_num), zpow_natCast, zpow_natCast]
      field_simp
    exact_mod_cast this
  have fives : 5 ^ decimals ∣ n * 2 ^ k := by
    rw [← cleared]
    exact (pow_dvd_pow_of_dvd (by norm_num) decimals).mul_left _
  exact (Nat.Coprime.pow decimals k (by decide)).dvd_of_dvd_mul_right fives

/-- A whole count is 0 or large. -/
theorem one_le_magnitude_mul (pos : 0 < n) : 1 ≤ x.magnitude * 2 ^ decimals := by
  have fives : (5 : ℚ) ^ decimals ≤ n := by exact_mod_cast Nat.le_of_dvd pos (five_pow_dvd whole)
  have unit : (0 : ℚ) < 5 ^ decimals := by positivity
  have split : (10 : ℚ) ^ decimals = 2 ^ decimals * 5 ^ decimals := by
    rw [← mul_pow]
    norm_num
  rw [← whole, split, ← mul_assoc] at fives
  exact (le_mul_iff_one_le_left unit).1 fives

theorem scaled_of_whole : x.scaled decimals = n := by
  have count : x.magnitude * 10 ^ decimals = (n : ℤ) := by exact_mod_cast whole
  rcases le_or_gt decimals 22 with few | many
  · have scaled := x.scaled_eq_ite few
    rw [count, nearestEven_intCast] at scaled
    split_ifs at scaled with below
    · -- a product that stays below 2 ^ 53 is not rounded at all
      have bits : n ≤ 9007199254740992 := by
        by_contra more
        have le : ((9007199254740992 : ℤ) : ℚ) ≤ (n : ℤ) := by exact_mod_cast (not_le.1 more).le
        have := rounded_intCast_le (by norm_num) le
        exact below.not_ge (by exact_mod_cast this)
      rw [rounded_intCast (by simpa using bits)] at scaled
      have : nearestAway ((n : ℤ) : ℚ) = n := nearestAway_eq (by norm_num)
      omega
    · omega
  rcases Nat.eq_zero_or_pos n with rfl | pos
  · rw [Nat.cast_zero, mul_eq_zero_iff_right (by positivity)] at whole
    exact x.scaled_of_magnitude_zero whole
  · have scaled := x.scaled_eq_nearestEven many (one_le_magnitude_mul whole pos)
    rw [count, nearestEven_intCast] at scaled
    omega

end

/-- The count of units is exact just where the number has no more decimals. -/
theorem scaled_exact_iff (x : Finite) (decimals : ℕ) :
    (x.scaled decimals : ℚ) = x.magnitude * 10 ^ decimals ↔
      ∃ k : ℤ, x.value * 10 ^ decimals = k := by
  have signed := x.value_eq_sign_mul
  constructor
  · intro exact
    refine ⟨(if x.value < 0 then -1 else 1) * x.scaled decimals, ?_⟩
    push_cast
    rw [exact, ← mul_assoc, ← signed]
  · rintro ⟨k, hk⟩
    have count : x.magnitude * 10 ^ decimals = k.natAbs := by
      have unit : (0 : ℚ) ≤ 10 ^ decimals := by positivity
      rw [← x.abs_value, Nat.cast_natAbs, Int.cast_abs, ← hk, abs_mul, abs_of_nonneg unit]
    rw [count, scaled_of_whole count]

end Binary64.Finite

/-! ### The text -/

namespace Number

variable (locale : Locale) (code : List Char) (x : Binary64.Finite)

/-- No number is rounded that has no more decimals than are written, however large it is and
however many decimals there are; and no other number is written as it is. -/
theorem fixedDecimal_exact_iff :
    ∃ n : Numeral, (∀ m, Writes locale code x m ↔ m = n) ∧
      (n.value = x.value ↔ ∃ k : ℤ, x.value * 10 ^ FormatCode.decimals code = k) ∧
      ∀ k : ℤ, x.value = k → n.value = x.value := by
  have unit : (10 : ℚ) ^ FormatCode.decimals code ≠ 0 := by positivity
  have sign : (if x.value < 0 then -1 else 1 : ℚ) ≠ 0 := by split_ifs <;> norm_num
  have exact_iff : (fixedNumeral locale code x).value = x.value ↔
      ∃ k : ℤ, x.value * 10 ^ FormatCode.decimals code = k := by
    calc (fixedNumeral locale code x).value = x.value ↔
          (if x.value < 0 then -1 else 1) * (x.scaled (FormatCode.decimals code) /
            10 ^ FormatCode.decimals code) = (if x.value < 0 then -1 else 1) * x.magnitude := by
          rw [value_fixedNumeral, ← x.value_eq_sign_mul]
      _ ↔ (x.scaled (FormatCode.decimals code) : ℚ) / 10 ^ FormatCode.decimals code = x.magnitude :=
          mul_right_inj' sign
      _ ↔ ∃ k : ℤ, x.value * 10 ^ FormatCode.decimals code = k := by
          rw [div_eq_iff unit, x.scaled_exact_iff]
  refine ⟨_, fun _ => writes_iff locale code x, exact_iff, fun k whole => exact_iff.2 ?_⟩
  exact ⟨k * 10 ^ FormatCode.decimals code, by rw [whole]; push_cast; rfl⟩

end Number

end CellDisplay
