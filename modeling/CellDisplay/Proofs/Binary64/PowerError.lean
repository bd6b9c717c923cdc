import CellDisplay.Proofs.Binary64.RelativeError

/-! How far a power of ten is off, and what is computed with it. Errors are counted in units, the
2 ^ 53rds of the exact result: they add up in products and quotients, but for a quarter of a unit,
and a rounding adds one more. Every power that is finite is within six and a half units. -/
namespace CellDisplay.Binary64

open Rounding

/-! ### Counting units -/

/-- Off from a positive number by at most so many 2 ^ 53rds of it. -/
structure Close (units p q : ℚ) : Prop where
  low : (9007199254740992 - units) * q ≤ 9007199254740992 * p
  high : 9007199254740992 * p ≤ (9007199254740992 + units) * q

namespace Close

variable {j k p q r s : ℚ}

theorem refl (p : ℚ) : Close 0 p p := by constructor <;> linarith

theorem mono (h : Close j p q) (le : j ≤ k) (nonneg : 0 ≤ q) : Close k p q := by
  have := mul_le_mul_of_nonneg_right le nonneg
  constructor
  · linarith [h.low]
  · linarith [h.high]

theorem half_le (h : Close j p q) (few : j ≤ 16) (nonneg : 0 ≤ q) : q ≤ 2 * p ∧ p ≤ 2 * q := by
  have := mul_le_mul_of_nonneg_right few nonneg
  constructor <;> linarith [h.low, h.high]

theorem pos (h : Close j p q) (few : j ≤ 16) (pos : 0 < q) : 0 < p := by
  linarith [(h.half_le few pos.le).1]

variable (hj : 0 ≤ j ∧ j ≤ 16) (hk : 0 ≤ k ∧ k ≤ 16)
include hj hk

theorem mul (h : Close j p q) (h' : Close k r s) (hq : 0 < q) (hs : 0 < s) :
    Close (j + k + 1 / 4) (p * r) (q * s) := by
  have hr := h'.pos hk.2 hs
  have pos := mul_pos hq hs
  have small : j * k ≤ 16 * 16 := mul_le_mul hj.2 hk.2 hk.1 (by norm_num)
  have product : j * k * (q * s) ≤ 16 * 16 * (q * s) := by gcongr
  have nonneg : 0 ≤ j * k * (q * s) := mul_nonneg (mul_nonneg hj.1 hk.1) pos.le
  have below := mul_le_mul h.low h'.low
    (mul_nonneg (by linarith) hs.le) (mul_nonneg (by norm_num) (h.pos hj.2 hq).le)
  have above := mul_le_mul h.high h'.high
    (mul_nonneg (by norm_num) hr.le) (mul_nonneg (by linarith) hq.le)
  constructor <;> linarith

omit hj in
/-- A quotient is off as much as its divisor. -/
theorem const_div (h : Close k r s) (hp : 0 < p) (hs : 0 < s) :
    Close (k + 1 / 4) (p / r) (p / s) := by
  have hr := h.pos hk.2 hs
  have square : k * k ≤ 16 * 16 := mul_le_mul hk.2 hk.2 hk.1 (by norm_num)
  have grow : k * k * s ≤ 16 * 16 * s := by gcongr
  have scaled : k * s ≤ 16 * s := mul_le_mul_of_nonneg_right hk.2 hs.le
  have nonneg : 0 ≤ k * s := mul_nonneg hk.1 hs.le
  have low : (9007199254740992 - (k + 1 / 4)) * r ≤ 9007199254740992 * s := by
    have := mul_le_mul_of_nonneg_left h.high (show 0 ≤ 9007199254740992 - k - 1 / 4 by linarith)
    have : 0 ≤ k * k * s := mul_nonneg (mul_nonneg hk.1 hk.1) hs.le
    linarith
  have high : 9007199254740992 * s ≤ (9007199254740992 + (k + 1 / 4)) * r := by
    have := mul_le_mul_of_nonneg_left h.low (show 0 ≤ 9007199254740992 + k + 1 / 4 by linarith)
    linarith
  have exact : p / s = r * (p / (r * s)) := by field_simp
  have computed : p / r = s * (p / (r * s)) := by field_simp
  rw [exact, computed]
  constructor <;> rw [← mul_assoc, ← mul_assoc] <;> gcongr

omit hj in
/-- A rounding adds one unit, of the number that is rounded. -/
theorem rounded (h : Close k p q) (pos : 0 < q) (normal : 2 ^ (-1022 : ℤ) ≤ p) :
    Close (k + 1 + 1 / 4) (rounded p) q := by
  have step : |Binary64.rounded p - p| * 9007199254740992 ≤ p := by
    have := abs_rounded_sub_le_mul normal
    have unit : (2 ^ (-53 : ℤ) : ℚ) = 1 / 9007199254740992 := by norm_num
    rw [unit, one_div_mul_eq_div, le_div_iff₀ (by norm_num)] at this
    exact this
  have scaled : k * q ≤ 16 * q := mul_le_mul_of_nonneg_right hk.2 pos.le
  have low := neg_abs_le (Binary64.rounded p - p)
  have high := le_abs_self (Binary64.rounded p - p)
  constructor <;> linarith [h.low, h.high]

end Close

/-! ### Powers of ten -/

/-- The powers up to the last finite one, by evaluation. -/
theorem powerOfTen_error : ∀ n < 309, (match powerOfTen n with
    | .finite p => decide (|p.value - (10 ^ n : ℕ)| * 18014398509481984 ≤ 13 * (10 ^ n : ℕ))
    | _ => false) = true := by
  decide +kernel

theorem close_powerOfTen {n : ℕ} (h : n < 309) :
    ∃ p, (powerOfTen n).HasValue p ∧ Close (13 / 2) p (10 ^ n) := by
  have near := powerOfTen_error n h
  cases power : powerOfTen n with
  | finite p =>
    rw [power] at near
    have near := of_decide_eq_true near
    push_cast at near
    have low := neg_abs_le (p.value - 10 ^ n)
    have high := le_abs_self (p.value - 10 ^ n)
    exact ⟨p.value, hasValue_finite p, by linarith, by linarith⟩
  | _ => simp [power] at near

theorem powerOfTen_infinite : powerOfTen 309 = .infinite false := by decide +kernel

/-! ### Large powers -/

theorem value_of_ofRat_eq {negativeZero : Bool} {q : ℚ} {x : Finite}
    (h : ofRat negativeZero q = finite x) : x.value = rounded q := by
  have small : |q| < overflowBound := (ofRat_isFinite_iff negativeZero q).1 (by rw [h]; rfl)
  have range : |rounded q| < 2 ^ (1024 : ℤ) := by
    rcases lt_trichotomy q 0 with neg | rfl | pos
    · rw [abs_of_neg neg] at small
      rw [rounded, if_pos neg, abs_neg, abs_of_nonneg (roundedMagnitude_nonneg (neg_pos.2 neg).le)]
      exact (roundedMagnitude_lt_iff (neg_pos.2 neg)).2 small
    · rw [rounded_of_nonneg le_rfl, roundedMagnitude_zero, abs_zero]
      exact two_zpow_pos _
    · rw [abs_of_pos pos] at small
      rw [abs_of_nonneg (rounded_nonneg pos.le), rounded_of_nonneg pos.le]
      exact (roundedMagnitude_lt_iff pos).2 small
  obtain ⟨y, hy, value⟩ := ofRat_finite negativeZero range
  rw [h] at hy
  cases hy
  exact value

/-- Not below a power of two, as far as it is finite. -/
def Reaches (x : Binary64) (k : ℕ) : Prop :=
  ∀ f : Finite, x = finite f → (2 : ℚ) ^ k ≤ f.value

theorem Reaches.mul {x y : Binary64} {j k : ℕ} (hx : x.Reaches j) (hy : y.Reaches k) :
    (x * y).Reaches (j + k) := by
  intro f product
  cases x with
  | nan => cases y <;> cases product
  | infinite a =>
    cases y with
    | finite y =>
      change (if y.isZero then nan else infinite (a != y.negative)) = finite f at product
      split at product <;> cases product
    | _ => cases product
  | finite x =>
    cases y with
    | nan => cases product
    | infinite b =>
      change (if x.isZero then nan else infinite (x.negative != b)) = finite f at product
      split at product <;> cases product
    | finite y =>
      have hx := hx x rfl
      have hy := hy y rfl
      have held : Holds (2 ^ (j + k)) := by
        have := holds_two_zpow (k := (j + k : ℕ)) (by omega)
        rwa [zpow_natCast] at this
      rw [value_of_ofRat_eq product, ← rounded_of_holds held, pow_add]
      apply rounded_mono
      exact mul_le_mul hx hy (by positivity) (le_trans (by positivity) hx)

theorem Reaches.mul_of_odd {base power : Binary64} {j k : ℕ} (hb : base.Reaches j)
    (hp : power.Reaches k) (n : ℕ) :
    (if n % 2 = 1 then power * base else power).Reaches (k + j * (n % 2)) := by
  rcases Nat.mod_two_eq_zero_or_one n with even | odd
  · simpa [even] using hp
  · simpa [odd] using hp.mul hb

theorem reaches_mulPower {base power : Binary64} {j k : ℕ} (hb : base.Reaches j)
    (hp : power.Reaches k) (n : ℕ) : (mulPower base power n).Reaches (k + j * n) := by
  fun_induction mulPower base power n generalizing j k with
  | case1 base power n last =>
    have all : k + j * (n % 2) = k + j * n := by rw [show n % 2 = n by omega]
    exact all ▸ hb.mul_of_odd hp n
  | case2 base power n =>
    rename_i ih
    have := ih (hb.mul hb) (hb.mul_of_odd hp n)
    have split : k + j * (n % 2) + (j + j) * (n / 2) = k + j * n := by
      conv_rhs => rw [← Nat.mod_add_div n 2]
      ring
    rwa [split] at this

/-- A power of ten is at least that power of eight. -/
theorem reaches_powerOfTen (n : ℕ) : (powerOfTen n).Reaches (3 * n) := by
  have base : (ofInt 10).Reaches 3 := by
    intro f hf
    have := (hasValue_ofInt (n := 10) (by norm_num)).unique ⟨f, hf, rfl⟩
    norm_num [← this]
  have one : (ofInt 1).Reaches 0 := by
    intro f hf
    have := (hasValue_ofInt (n := 1) (by norm_num)).unique ⟨f, hf, rfl⟩
    norm_num [← this]
  have := reaches_mulPower base one n
  rwa [zero_add] at this

/-- From the 23rd on a power of ten has more than 53 bits above the power of two that divides it. -/
theorem two_pow_le_powerOfTen {n : ℕ} (many : 23 ≤ n) {p : Finite}
    (power : powerOfTen n = finite p) : (2 : ℚ) ^ (53 + n) ≤ p.value := by
  rcases le_or_gt 27 n with large | few
  · exact (pow_le_pow_right₀ (by norm_num) (by omega)).trans (reaches_powerOfTen n p power)
  · obtain ⟨q, value, close⟩ := close_powerOfTen (show n < 309 by omega)
    obtain rfl := value.unique ⟨p, power, rfl⟩
    have twos : (0 : ℚ) ≤ 2 ^ n := by positivity
    have fives : (5 : ℚ) ^ 23 ≤ 5 ^ n := pow_le_pow_right₀ (by norm_num) many
    have tens : 2 ^ n * 5 ^ 23 ≤ (10 : ℚ) ^ n := by
      calc (2 : ℚ) ^ n * 5 ^ 23 ≤ 2 ^ n * 5 ^ n := by gcongr
        _ = 10 ^ n := by
          rw [← mul_pow]
          norm_num
    rw [pow_add]
    norm_num at tens ⊢
    linarith [close.low]

end CellDisplay.Binary64
