import CellDisplay.Proofs.Fraction.MixedText
import CellDisplay.Proofs.Fraction.Nearest

/-! A fixed denominator. The part of a number above its floor is rounded, and so is its product with
the denominator; the numerator is the whole number nearest to what comes out. A mixed number is
therefore off by half a unit of its denominator and the two roundings at most, which are 2 ^ -54 and
a 2 ^ 53rd of the denominator (`writeFraction_fixed`). -/
namespace CellDisplay.Fraction

open Binary64 Rounding

/-- A product with a number up to one is off by a 2 ^ 53rd of the other factor. -/
theorem abs_rounded_mul_sub_le {p : ℚ} (nonneg : 0 ≤ p) (le : p ≤ 1) {d : ℕ} (pos : 1 ≤ d) :
    |rounded (p * d) - p * d| ≤ 2 ^ (-53 : ℤ) * d := by
  have pos : (1 : ℚ) ≤ d := by exact_mod_cast pos
  obtain ⟨low, high⟩ := floorLog2_spec (q := d) (by linarith)
  have exponent : 0 ≤ floorLog2 d := by
    by_contra negative
    have := (floorLog2_lt_iff (by linarith)).1 (not_le.1 negative)
    rw [zpow_zero] at this
    linarith
  have product : |p * d| ≤ 2 ^ (floorLog2 d + 1) := by
    rw [abs_of_nonneg (by positivity)]
    calc p * d ≤ 1 * d := by gcongr
      _ ≤ 2 ^ (floorLog2 d + 1) := by linarith
  calc |rounded (p * d) - p * d| ≤ 2 ^ (floorLog2 d + 1 - 54) :=
        abs_rounded_sub_le (by omega) product
    _ = 2 ^ (-53 : ℤ) * 2 ^ floorLog2 d := by
        rw [← two_zpow_add]
        congr 1
        omega
    _ ≤ 2 ^ (-53 : ℤ) * d := by gcongr

section

variable {rest : Binary64} {p : ℚ} (hp : rest.HasValue p) (nonneg : 0 ≤ p) (le : p ≤ 1) {d : ℕ}
  (pos : 1 ≤ d) (small : d < 4294967296)
include hp nonneg le pos small

theorem fixedNumerator_eq : (fixedNumerator rest d : ℤ) = nearestAway (rounded (p * d)) ∧
    nearestAway (rounded (p * d)) ≤ d := by
  have product_nonneg : 0 ≤ p * d := by positivity
  have product_le : p * d ≤ d := mul_le_of_le_one_left (Nat.cast_nonneg d) le
  have few : (d : ℚ) ≤ 2 ^ (32 : ℤ) := by
    norm_num
    exact small.le
  have whole : (ofInt d).HasValue d := by simpa using hasValue_ofInt (n := d) (by omega)
  have product := hp.mul whole (small_of_le (k := 32) (by
    rw [abs_of_nonneg product_nonneg]
    exact product_le.trans few) (by norm_num))
  have held : rounded d = d := by simpa using rounded_intCast (n := d) (by omega)
  have low := nearestAway_nonneg (rounded_nonneg product_nonneg)
  have high : nearestAway (rounded (p * d)) ≤ d :=
    nearestAway_le (rounded_nonneg product_nonneg)
      ((rounded_mono product_le).trans_eq (by exact_mod_cast held))
  refine ⟨?_, high⟩
  rw [fixedNumerator, (product.round (by omega)).toInt, Rat.floor_intCast, Int.toNat_of_nonneg low]

theorem fixedNumerator_le : fixedNumerator rest d ≤ d := by
  obtain ⟨eq, high⟩ := fixedNumerator_eq hp nonneg le pos small
  omega

theorem abs_fixedNumerator_div_sub_le :
    |(fixedNumerator rest d / d : ℚ) - p| ≤ 1 / (2 * d) + 2 ^ (-53 : ℤ) := by
  have hd : (0 : ℚ) < d := by exact_mod_cast pos
  have numerator : (fixedNumerator rest d : ℚ) = nearestAway (rounded (p * d)) := by
    exact_mod_cast (fixedNumerator_eq hp nonneg le pos small).1
  have half := abs_nearestAway_sub_le (rounded_nonneg (mul_nonneg nonneg hd.le))
  have unit := abs_rounded_mul_sub_le nonneg le pos
  have total : |(fixedNumerator rest d : ℚ) - p * d| ≤ 1 / 2 + 2 ^ (-53 : ℤ) * d := by
    rw [numerator]
    exact (abs_sub_le _ (rounded (p * d)) _).trans (add_le_add half unit)
  calc |(fixedNumerator rest d / d : ℚ) - p| = |(fixedNumerator rest d : ℚ) - p * d| / d := by
        rw [← abs_of_pos hd, ← abs_div, abs_of_pos hd, sub_div, mul_div_cancel_right₀ p hd.ne']
    _ ≤ (1 / 2 + 2 ^ (-53 : ℤ) * d) / d := by gcongr
    _ = 1 / (2 * d) + 2 ^ (-53 : ℤ) := by field_simp

end

/-- Every finite number is written over a fixed denominator with its exact floor, and the mixed
number is off by half a unit of the denominator and the rounding of two operations at most. -/
theorem writeFraction_fixed (v : Finite) {d : ℕ} (pos : 1 ≤ d) (small : d < 4294967296) :
    toString v.value.floor ≠ "-0" ∧ ∃ n : ℕ, n ≤ d ∧
      writeFraction ⟨d, .fixed⟩ (finite v) =
        (toString v.value.floor ++ " " ++ toString n ++ "/" ++ toString d, none) ∧
      |(v.value.floor + n / d - v.value : ℚ)| ≤ 1 / (2 * d) + 2 ^ (-52 : ℤ) := by
  have rest := v.sub_floor_hasValue
  obtain ⟨nonneg, le⟩ := rest_bounds v.value
  have ratio : (Spec.mk d .fixed).ratio (finite v - ofInt v.value.floor) =
      ⟨fixedNumerator (finite v - ofInt v.value.floor) d, d⟩ := rfl
  have written := writeFraction_finite rfl ratio
  refine ⟨toString_ne_negative_zero _, _, fixedNumerator_le rest nonneg le pos small, written, ?_⟩
  have numerator := abs_fixedNumerator_div_sub_le rest nonneg le pos small
  have part : |rounded (v.value - v.value.floor) - (v.value - v.value.floor)| ≤
      2 ^ (0 - 54 : ℤ) := by
    have low := floor_le v.value
    have high := lt_floor_add_one v.value
    refine abs_rounded_sub_le (by norm_num) ?_
    rw [zpow_zero, abs_of_nonneg (by linarith)]
    linarith
  generalize (fixedNumerator _ d : ℚ) / d = quotient at numerator ⊢
  have both := abs_sub_le quotient (rounded (v.value - v.value.floor)) (v.value - v.value.floor)
  rw [show v.value.floor + quotient - v.value = quotient - (v.value - v.value.floor) by ring]
  norm_num at numerator part ⊢
  linarith

/-- Just below zero the part above the floor rounds up to one. -/
theorem writeFraction_fixed_least :
    let v : Finite := ⟨true, 1, -1074, by decide⟩
    1 ≤ 4294967295 ∧ 4294967295 < 4294967296 ∧ toString v.value.floor ≠ "-0" ∧
      ∃ n : ℕ, n ≤ 4294967295 ∧
        writeFraction ⟨4294967295, .fixed⟩ (finite v) =
          (toString v.value.floor ++ " " ++ toString n ++ "/" ++ toString 4294967295, none) ∧
        |(v.value.floor + n / (4294967295 : ℕ) - v.value : ℚ)| ≤
          1 / (2 * (4294967295 : ℕ)) + 2 ^ (-52 : ℤ) := by
  intro v
  exact ⟨by norm_num, by norm_num, writeFraction_fixed v (by norm_num) (by norm_num)⟩

end CellDisplay.Fraction
