import CellDisplay.Proofs.Number.Decimals

/-! Which doubles a fixed count of decimals writes correctly rounded. The product with a power of
ten is rounded before its halves are sent away from zero, so a product just below a half can reach
it; and from 2 ^ 53 on a half goes to the even neighbour. Everywhere else the numeral is the exact
value of the double rounded to its decimals, halves away from zero. -/
namespace CellDisplay

open Rounding

namespace Binary64

namespace Finite

variable (x : Finite) (decimals : ℕ)

/-- Where the decimals come out wrong: a half lies between the product in doubles and the exact
product, or, where there is no such product below 2 ^ 53, the exact product is a half above an even
number. -/
def Misrounds : Prop :=
  match finite x.abs * powerOfTen decimals with
  | .finite product =>
    if product.value < 9007199254740992 then
      ∃ k : ℕ, ¬ ((k : ℚ) + 1 / 2 ≤ product.value ↔ (k : ℚ) + 1 / 2 ≤ x.magnitude * 10 ^ decimals)
    else IsEvenTie (x.magnitude * 10 ^ decimals)
  | _ => IsEvenTie (x.magnitude * 10 ^ decimals)

theorem exactScaled_eq_iff :
    (x.exactScaled decimals : ℤ) = nearestAway (x.magnitude * 10 ^ decimals) ↔
      ¬ IsEvenTie (x.magnitude * 10 ^ decimals) := by
  have pos : 0 ≤ x.magnitude * 10 ^ decimals := mul_nonneg x.magnitude_nonneg (by positivity)
  rw [exactScaled_eq, nearestEven_eq_nearestAway_iff pos]

theorem scaled_eq_iff :
    (x.scaled decimals : ℤ) = nearestAway (x.magnitude * 10 ^ decimals) ↔
      ¬ x.Misrounds decimals := by
  have pos : 0 ≤ x.magnitude * 10 ^ decimals := mul_nonneg x.magnitude_nonneg (by positivity)
  have unsigned : (finite x.abs * powerOfTen decimals).Unsigned :=
    Unsigned.mul rfl (unsigned_powerOfTen decimals)
  unfold scaled Misrounds
  cases h : finite x.abs * powerOfTen decimals with
  | nan => exact x.exactScaled_eq_iff decimals
  | infinite _ => exact x.exactScaled_eq_iff decimals
  | finite product =>
    rw [h] at unsigned
    have product_nonneg : 0 ≤ product.value :=
      Finite.value_of_unsigned unsigned ▸ product.magnitude_nonneg
    dsimp only
    split
    · rw [Int.toNat_of_nonneg (nearestAway_nonneg product_nonneg),
        nearestAway_eq_iff product_nonneg pos, not_exists]
      simp only [not_not]
    · exact x.exactScaled_eq_iff decimals

/-! ### The sign -/

theorem nearestAway_value :
    nearestAway (x.value * 10 ^ decimals) =
      (if x.value < 0 then -1 else 1) * nearestAway (x.magnitude * 10 ^ decimals) := by
  have signed := x.value_eq_sign_mul
  split_ifs at signed ⊢
  · rw [signed, neg_one_mul, neg_mul, nearestAway_neg, neg_one_mul]
  · rw [signed, one_mul, one_mul]

end Finite

/-! ### Halves that are reached by rounding -/

theorem rounded_le_of_lt {q : ℚ} (small : q < 4503599627370496) : rounded q ≤ 4503599627370496 := by
  have held : Holds 4503599627370496 := holds_natCast (n := 4503599627370496) (by norm_num)
  rw [← rounded_of_holds held]
  exact rounded_mono small.le

/-- Rounding keeps the order and fixes a half, so the only way past one is to reach it. -/
theorem half_between_iff {q : ℚ} (small : q < 4503599627370496) (k : ℕ) :
    ¬ ((k : ℚ) + 1 / 2 ≤ rounded q ↔ (k : ℚ) + 1 / 2 ≤ q) ↔
      q < k + 1 / 2 ∧ rounded q = k + 1 / 2 := by
  have top := rounded_le_of_lt small
  have held {r : ℚ} (le : (k : ℚ) + 1 / 2 ≤ r) (bound : r ≤ 4503599627370496) :
      rounded ((k : ℚ) + 1 / 2) = k + 1 / 2 := by
    have : (k : ℚ) < 4503599627370496 := by linarith
    exact rounded_of_holds (holds_half (by exact_mod_cast this))
  constructor
  · intro differ
    have keep (le : (k : ℚ) + 1 / 2 ≤ q) : (k : ℚ) + 1 / 2 ≤ rounded q := by
      rw [← held le small.le]
      exact rounded_mono le
    have under : ¬ (k : ℚ) + 1 / 2 ≤ q := fun le => differ ⟨fun _ => le, keep⟩
    have reached : (k : ℚ) + 1 / 2 ≤ rounded q := by
      by_contra short
      exact differ ⟨fun le => absurd le short, fun le => absurd le under⟩
    refine ⟨not_le.1 under, le_antisymm ?_ reached⟩
    rw [← held reached top]
    exact rounded_mono (not_le.1 under).le
  · rintro ⟨under, half⟩ same
    exact under.not_ge (same.1 half.ge)

/-- Up to 22 decimals and below 2 ^ 52 the decimals come out wrong only where the exact product lies
below a half and its double is that half. -/
theorem Finite.misrounds_iff (x : Finite) {decimals : ℕ} (few : decimals ≤ 22)
    (small : x.magnitude * 10 ^ decimals < 4503599627370496) :
    x.Misrounds decimals ↔ ∃ k : ℕ, x.magnitude * 10 ^ decimals < k + 1 / 2 ∧
      rounded (x.magnitude * 10 ^ decimals) = k + 1 / 2 := by
  have below : |x.magnitude * 10 ^ decimals| ≤ 2 ^ (1023 : ℤ) := by
    refine small_of_le (k := 52) ?_ (by norm_num)
    rw [abs_of_nonneg (mul_nonneg x.magnitude_nonneg (by positivity))]
    calc x.magnitude * 10 ^ decimals ≤ 4503599627370496 := small.le
      _ = 2 ^ (52 : ℤ) := by norm_num
  obtain ⟨product, hproduct, hvalue⟩ := (hasValue_finite x.abs).mul (hasValue_powerOfTen few) below
  rw [x.value_abs] at hvalue
  unfold Misrounds
  simp only [hproduct, hvalue]
  rw [if_pos ((rounded_le_of_lt small).trans_lt (by norm_num))]
  exact exists_congr (half_between_iff small)

end Binary64

/-! ### The text -/

namespace Number

variable (locale : Locale) (code : List Char) (x : Binary64.Finite)

theorem value_fixedNumeral_eq_iff :
    (fixedNumeral locale code x).value =
        nearestAway (x.value * 10 ^ FormatCode.decimals code) / 10 ^ FormatCode.decimals code ↔
      ¬ x.Misrounds (FormatCode.decimals code) := by
  have unit : (10 : ℚ) ^ FormatCode.decimals code ≠ 0 := by positivity
  have sign : (if x.value < 0 then -1 else 1 : ℚ) ≠ 0 := by split_ifs <;> norm_num
  rw [← x.scaled_eq_iff, value_fixedNumeral, x.nearestAway_value]
  push_cast
  rw [mul_div_assoc, mul_right_inj' sign, div_left_inj' unit]
  exact_mod_cast Iff.rfl

/-- The numeral of a double is its exact value rounded to the decimals of the code, halves away from
zero, unless the double misrounds there. Up to 22 decimals and below 2 ^ 52 that is a product below
a half that has the half for its double. -/
theorem fixedDecimal_rounded_iff :
    ∃ n : Numeral, fixedDecimal locale code (.finite x) = n.text locale.point ∧
      (∃ whole, IsGrouped locale.separator n.whole whole ∧
        currency locale code (.finite x) =
          FormatCode.currencySymbol code ++ (n.sign ++ whole ++ n.decimals locale.point)) ∧
      (n.value =
          nearestAway (x.value * 10 ^ FormatCode.decimals code) / 10 ^ FormatCode.decimals code ↔
        ¬ x.Misrounds (FormatCode.decimals code)) ∧
      (FormatCode.decimals code ≤ 22 →
        x.magnitude * 10 ^ FormatCode.decimals code < 4503599627370496 →
        (x.Misrounds (FormatCode.decimals code) ↔
          ∃ k : ℕ, x.magnitude * 10 ^ FormatCode.decimals code < k + 1 / 2 ∧
            Binary64.rounded (x.magnitude * 10 ^ FormatCode.decimals code) = k + 1 / 2)) :=
  ⟨fixedNumeral locale code x, fixedDecimal_eq locale code x,
    ⟨_, isGrouped_grouped _ (fixedNumeral locale code x).nonempty, currency_eq locale code x⟩,
    value_fixedNumeral_eq_iff locale code x, x.misrounds_iff⟩

/-- A half that is a double goes away from zero: 1.125 is written 1.13. -/
theorem fixedDecimal_rounded_half :
    let x : Binary64.Finite := ⟨false, 5066549580791808, -52, by decide⟩
    let code := ['0', '.', '0', '0']
    FormatCode.decimals code ≤ 22 ∧
      x.magnitude * 10 ^ FormatCode.decimals code < 4503599627370496 ∧
      fixedDecimal .enUS code (.finite x) = ['1', '.', '1', '3'] ∧
      ∃ n : Numeral, fixedDecimal .enUS code (.finite x) = n.text '.' ∧
        n.value = nearestAway (x.value * 10 ^ 2) / 10 ^ 2 := by
  intro x code
  have few : FormatCode.decimals code ≤ 22 := by decide
  have product : x.magnitude * 10 ^ FormatCode.decimals code = 112 + 1 / 2 := by decide +kernel
  have small : x.magnitude * 10 ^ FormatCode.decimals code < 4503599627370496 := by
    rw [product]
    norm_num
  obtain ⟨n, text, -, rounds, halves⟩ := fixedDecimal_rounded_iff .enUS code x
  have correct : ¬ x.Misrounds (FormatCode.decimals code) := by
    rw [halves few small, product]
    rintro ⟨k, under, half⟩
    have held := Binary64.rounded_of_holds (Binary64.holds_half (k := 112) (by norm_num))
    push_cast at held
    linarith
  exact ⟨few, small, by decide +kernel, n, text, rounds.2 correct⟩

/-- The double nearest to 1.115 is below it, and its hundredfold rounds to 111.5. -/
theorem fixedDecimal_misrounds :
    let x : Binary64.Finite := ⟨false, 5021513584518103, -52, by decide⟩
    fixedDecimal .enUS ['0', '.', '0', '0'] (.finite x) = ['1', '.', '1', '2'] ∧
      nearestAway (x.value * 10 ^ FormatCode.decimals ['0', '.', '0', '0']) = 111 := by
  decide +kernel

end Number

end CellDisplay
