import CellDisplay.Proofs.Number.Decimals

/-! A fixed count of decimals keeps the order of doubles, as far as the power of ten is exact
(`fixedDecimal_mono`). Each of the two roundings does; where the product of the smaller number is
rounded in doubles and that of the greater is not, 2 ^ 53 - 1 stands between them. -/
namespace CellDisplay

open Rounding

namespace Binary64

/-- The doubles that are next below 2 ^ 53 are whole, so none of them is rounded up to it. -/
theorem Holds.nearestAway_lt {q : ℚ} (held : Holds q) (below : q < 9007199254740992) :
    nearestAway q < 9007199254740992 := by
  rcases held.lt_or_whole with small | ⟨n, rfl⟩
  · have : nearestAway q ≤ 4503599627370496 :=
      nearestAway_le held.nonneg (by push_cast; exact small.le)
    omega
  · have whole : nearestAway (n : ℚ) = n := nearestAway_eq (by simp)
    rw [whole]
    exact_mod_cast below

/-- A number that rounding takes to 2 ^ 53 is above the double before it. -/
theorem le_nearestEven_of_le_rounded {q : ℚ} (reached : 9007199254740992 ≤ rounded q) :
    9007199254740991 ≤ nearestEven q := by
  apply le_nearestEven
  by_contra below
  have := rounded_mono (not_le.1 below).le
  rw [rounded_intCast (by norm_num)] at this
  norm_num at this
  linarith

variable {x y : Finite}

theorem Finite.scaled_mono {decimals : ℕ} (few : decimals ≤ 22) (le : x.magnitude ≤ y.magnitude) :
    x.scaled decimals ≤ y.scaled decimals := by
  have nonneg : 0 ≤ x.magnitude * 10 ^ decimals := mul_nonneg x.magnitude_nonneg (by positivity)
  have product : x.magnitude * 10 ^ decimals ≤ y.magnitude * 10 ^ decimals := by gcongr
  have kept := rounded_mono product
  have : (x.scaled decimals : ℤ) ≤ y.scaled decimals := by
    rw [x.scaled_eq_ite few, y.scaled_eq_ite few]
    split_ifs with first second
    · exact nearestAway_mono (rounded_nonneg nonneg) kept
    · have low := (holds_rounded nonneg).nearestAway_lt first
      have high := le_nearestEven_of_le_rounded (not_lt.1 second)
      omega
    · linarith
    · exact nearestEven_mono product
  omega

end Binary64

/-! ### The text -/

namespace Number

open Binary64

variable (locale : Locale) {code : List Char} {x y : Finite}

/-- The greater number is written as the greater number, or as the same. -/
theorem fixedDecimal_mono (few : FormatCode.decimals code ≤ 22) (le : x.value ≤ y.value) :
    ∃ m n : Numeral, (∀ k, Writes locale code x k ↔ k = m) ∧
      (∀ k, Writes locale code y k ↔ k = n) ∧ m.value ≤ n.value := by
  refine ⟨_, _, fun _ => writes_iff locale code x, fun _ => writes_iff locale code y, ?_⟩
  rw [value_fixedNumeral, value_fixedNumeral]
  have first := x.value_eq_sign_mul
  have second := y.value_eq_sign_mul
  split_ifs at first second ⊢ with below below'
  · -- of two negative numbers the smaller has the greater magnitude
    have : (y.scaled (FormatCode.decimals code) : ℚ) ≤ x.scaled (FormatCode.decimals code) := by
      exact_mod_cast Finite.scaled_mono few (by linarith)
    rw [neg_one_mul, neg_one_mul, neg_le_neg_iff]
    gcongr
  · calc _ ≤ (0 : ℚ) := by
          rw [neg_one_mul, neg_nonpos]
          positivity
      _ ≤ _ := by positivity
  · linarith
  · have : (x.scaled (FormatCode.decimals code) : ℚ) ≤ y.scaled (FormatCode.decimals code) := by
      exact_mod_cast Finite.scaled_mono few (by linarith)
    gcongr

/-- The tenfold of the first number is rounded to the last double below 2 ^ 53 and then to a whole
number, that of the next number is rounded exactly. -/
theorem fixedDecimal_mono_across :
    let x : Finite := ⟨false, 7205759403792793, -3, by decide⟩
    let y : Finite := ⟨false, 7205759403792794, -3, by decide⟩
    FormatCode.decimals "0.0".toList ≤ 22 ∧ x.value ≤ y.value ∧
      ∃ m n : Numeral, (∀ k, Writes .enUS "0.0".toList x k ↔ k = m) ∧
        (∀ k, Writes .enUS "0.0".toList y k ↔ k = n) ∧ m.value ≤ n.value := by
  intro x y
  have few : FormatCode.decimals "0.0".toList ≤ 22 := by decide
  have le : x.value ≤ y.value := by decide +kernel
  exact ⟨few, le, fixedDecimal_mono .enUS few le⟩

end Number

end CellDisplay
