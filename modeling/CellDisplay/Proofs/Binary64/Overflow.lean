import CellDisplay.Proofs.Binary64.PowerOfTen

/-! Where results leave the range of doubles. A rational rounds to an infinity from half a unit
above the largest finite double on, and so a product of finite doubles is finite just when the exact
product stays below that bound. -/
namespace CellDisplay.Binary64

open Rounding

/-- Half a unit above the largest finite double. -/
def overflowBound : ℚ := (9007199254740992 - 1 / 2) * 2 ^ (971 : ℤ)

/-! ### Magnitudes -/

theorem two_zpow_1024 : (2 : ℚ) ^ (1024 : ℤ) = 9007199254740992 * 2 ^ (971 : ℤ) := by
  rw [show (1024 : ℤ) = 53 + 971 by norm_num, two_zpow_add]
  norm_num

theorem two_zpow_1023 : (2 : ℚ) ^ (1023 : ℤ) = 4503599627370496 * 2 ^ (971 : ℤ) := by
  rw [show (1023 : ℤ) = 52 + 971 by norm_num, two_zpow_add]
  norm_num

/-- The bound lies in the last binade. -/
theorem overflowBound_between :
    2 ^ (1023 : ℤ) < overflowBound ∧ overflowBound < 2 ^ (1024 : ℤ) := by
  have pos := two_zpow_pos 971
  rw [two_zpow_1023, two_zpow_1024, overflowBound]
  constructor <;> gcongr <;> norm_num

theorem overflowBound_pos : 0 < overflowBound :=
  (two_zpow_pos 1023).trans overflowBound_between.1

theorem Finite.magnitude_lt (x : Finite) : x.magnitude < 2 ^ (1024 : ℤ) := by
  obtain ⟨significand, -, exponent, -⟩ := x.canonical
  calc x.magnitude < 9007199254740992 * 2 ^ x.exponent := by
        rw [magnitude]
        gcongr
        exact_mod_cast significand
    _ ≤ 9007199254740992 * 2 ^ (971 : ℤ) := by
        gcongr
        norm_num
    _ = 2 ^ (1024 : ℤ) := two_zpow_1024.symm

theorem pack_infinite (negative : Bool) {m : ℕ} {e : ℤ} (h : (2 : ℚ) ^ (1024 : ℤ) ≤ m * 2 ^ e) :
    pack negative m e = .infinite negative :=
  dif_neg fun canonical => not_lt.2 h (Finite.magnitude_lt ⟨negative, m, e, canonical⟩)

theorem ofMagnitude_infinite (negative : Bool) {q : ℚ} (pos : 0 < q)
    (h : 2 ^ (1024 : ℤ) ≤ roundedMagnitude q) : ofMagnitude negative q = .infinite negative := by
  obtain ⟨nonneg, -, -⟩ := nearestEven_unit_bounds pos
  simp only [ofMagnitude, if_neg (not_le.2 pos)]
  simp only [roundedMagnitude] at h
  generalize nearestEven (q / 2 ^ unitExponent q) = n at *
  generalize unitExponent q = e at *
  obtain ⟨m, rfl⟩ := Int.eq_ofNat_of_zero_le nonneg
  simp only [Int.toNat_natCast, Int.cast_natCast] at h ⊢
  split
  next carry =>
    have same : ((4503599627370496 : ℕ) : ℚ) * 2 ^ (e + 1) = m * 2 ^ e := by
      rw [carry, two_zpow_add]
      norm_num
      ring
    exact pack_infinite negative (same ▸ h)
  next => exact pack_infinite negative h

/-- In the last binade the unit is fixed, and only there does the tie matter. -/
theorem roundedMagnitude_lt_iff {q : ℚ} (pos : 0 < q) :
    roundedMagnitude q < 2 ^ (1024 : ℤ) ↔ q < overflowBound := by
  obtain ⟨above, below⟩ := overflowBound_between
  rcases lt_or_ge q (2 ^ (1023 : ℤ)) with small | high
  · have := roundedMagnitude_le (holds_two_zpow (by norm_num)) pos small.le
    exact iff_of_true (this.trans_lt (above.trans below)) (small.trans above)
  rcases lt_or_ge q (2 ^ (1024 : ℤ)) with low | large
  · have unit : unitExponent q = 971 := by
      have upper := (floorLog2_lt_iff pos).2 low
      have lower := mt (floorLog2_lt_iff pos).1 (not_lt.2 high)
      simp only [unitExponent]
      omega
    have even : nearestEven (q / 2 ^ (971 : ℤ)) < 9007199254740992 ↔
        q / 2 ^ (971 : ℤ) < ((9007199254740992 : ℤ) : ℚ) - 1 / 2 := nearestEven_lt_iff (by norm_num)
    rw [div_lt_iff₀ (two_zpow_pos 971)] at even
    rw [roundedMagnitude, unit, two_zpow_1024, mul_lt_mul_iff_left₀ (two_zpow_pos 971),
      overflowBound]
    generalize (2 : ℚ) ^ (971 : ℤ) = unit at *
    exact_mod_cast even
  · have := le_roundedMagnitude (holds_two_zpow (by norm_num)) pos large
    exact iff_of_false (not_lt.2 this) (not_lt.2 (below.le.trans large))

/-! ### Rounded results -/

theorem ofMagnitude_isFinite_iff (negative : Bool) {q : ℚ} (pos : 0 < q) :
    (ofMagnitude negative q).isFinite ↔ q < overflowBound := by
  rw [← roundedMagnitude_lt_iff pos]
  rcases lt_or_ge (roundedMagnitude q) (2 ^ (1024 : ℤ)) with small | large
  · obtain ⟨x, finite, -, -⟩ := ofMagnitude_finite negative pos.le small
    rw [finite]
    exact iff_of_true rfl small
  · rw [ofMagnitude_infinite negative pos large]
    exact iff_of_false Bool.false_ne_true (not_lt.2 large)

theorem ofRat_isFinite_iff (negativeZero : Bool) (q : ℚ) :
    (ofRat negativeZero q).isFinite ↔ |q| < overflowBound := by
  unfold ofRat
  split_ifs with zero neg
  · simp [zero, isFinite, overflowBound_pos]
  · rw [abs_of_neg neg, ofMagnitude_isFinite_iff true (neg_pos.2 neg)]
  · have pos : 0 < q := lt_of_le_of_ne (not_lt.1 neg) (Ne.symm zero)
    rw [abs_of_pos pos, ofMagnitude_isFinite_iff false pos]

theorem Finite.abs_value (x : Finite) : |x.value| = x.magnitude := by
  unfold value
  split_ifs
  · rw [abs_neg, abs_of_nonneg x.magnitude_nonneg]
  · exact abs_of_nonneg x.magnitude_nonneg

theorem mul_isFinite_iff (x y : Finite) :
    (finite x * finite y).isFinite ↔ x.magnitude * y.magnitude < overflowBound := by
  change (ofRat _ (x.value * y.value)).isFinite ↔ _
  rw [ofRat_isFinite_iff, abs_mul, x.abs_value, y.abs_value]

end CellDisplay.Binary64
