import CellDisplay.Number.Scientific
import CellDisplay.Proofs.Binary64.PowerError

/-! The quotient of a double and a power of ten. It is computed in one step or two, each of them
rounded, and with a power that is off itself; together that makes sixteen units at most
(`exists_takes_scaleDown`). So the exponent that is adjusted by the quotient leaves a quotient from
one to ten, but for those units (`exists_adjusted`). -/
namespace CellDisplay.Number

open Binary64

theorem ten_zpow_pos (e : ℤ) : (0 : ℚ) < 10 ^ e := by positivity

theorem div_ten_zpow_succ (q : ℚ) (e : ℤ) : q / 10 ^ (e + 1) = q / 10 ^ e / 10 := by
  rw [zpow_add_one₀ (by norm_num), div_div]

/-! ### Signs -/

theorem rounded_sign_mul {σ : ℚ} (unit : |σ| = 1) (q : ℚ) : rounded (σ * q) = σ * rounded q := by
  rcases eq_or_eq_neg_of_abs_eq unit with rfl | rfl
  · rw [one_mul, one_mul]
  · rw [neg_one_mul, rounded_neg, neg_one_mul]

/-- What an operation makes of a magnitude, whatever its sign. -/
def Takes (f : Binary64 → Binary64) (m r : ℚ) : Prop :=
  ∀ (v : Binary64) (σ : ℚ), |σ| = 1 → v.HasValue (σ * m) → (f v).HasValue (σ * r)

theorem takes_mul {w : Binary64} {m p : ℚ} (hw : w.HasValue p) (small : |m * p| ≤ 2 ^ (1023 : ℤ)) :
    Takes (· * w) m (rounded (m * p)) := by
  intro v σ unit hv
  have same : |σ * m * p| = |m * p| := by rw [mul_assoc, abs_mul, unit, one_mul]
  rw [← rounded_sign_mul unit, ← mul_assoc]
  exact hv.mul hw (same.trans_le small)

theorem takes_div {w : Binary64} {m p : ℚ} (hw : w.HasValue p) (ne : p ≠ 0)
    (small : |m / p| ≤ 2 ^ (1023 : ℤ)) : Takes (· / w) m (rounded (m / p)) := by
  intro v σ unit hv
  have same : |σ * m / p| = |m / p| := by rw [mul_div_assoc, abs_mul, unit, one_mul]
  rw [← rounded_sign_mul unit, ← mul_div_assoc]
  exact hv.div hw ne (same.trans_le small)

/-! ### One step -/

/-- A result that doubles can be near to. -/
def InRange (y : ℚ) : Prop := 2 * 2 ^ (-1022 : ℤ) ≤ y ∧ 2 * y ≤ 2 ^ (1023 : ℤ)

theorem InRange.pos {y : ℚ} (h : InRange y) : 0 < y := by
  linarith [h.1, two_zpow_pos (-1022)]

theorem InRange.of_close {k p q : ℚ} (range : InRange q) (h : Close k p q) (few : k ≤ 16) :
    2 ^ (-1022 : ℤ) ≤ p ∧ |p| ≤ 2 ^ (1023 : ℤ) := by
  obtain ⟨above, below⟩ := h.half_le few range.pos.le
  rw [abs_of_pos (h.pos few range.pos)]
  constructor <;> linarith [range.1, range.2]

theorem inRange_of_between {y : ℚ} {a b : ℤ} (low : 2 ^ a ≤ y) (high : y ≤ 2 ^ b)
    (least : -1021 ≤ a) (most : b ≤ 1022) : InRange y := by
  have double (k : ℤ) : (2 : ℚ) * 2 ^ k = 2 ^ (k + 1) := by rw [two_zpow_add, zpow_one, mul_comm]
  constructor
  · exact (double _).trans_le ((two_zpow_le (by omega)).trans low)
  · have := (double b).trans_le (two_zpow_le (show b + 1 ≤ 1023 by omega))
    linarith

/-- A product adds eight units: six and a half of the power, one of its rounding, and what is left
over where errors are added. -/
theorem exists_takes_mul {j m y : ℚ} {n : ℕ} (near : Close j m y) (hj : 0 ≤ j ∧ j ≤ 8) (pos : 0 < y)
    (hn : n < 309) (range : InRange (y * 10 ^ n)) :
    ∃ r, Takes (· * powerOfTen n) m r ∧ Close (j + 8) r (y * 10 ^ n) := by
  obtain ⟨p, power, close⟩ := close_powerOfTen hn
  have product := near.mul ⟨hj.1, by linarith⟩ (by norm_num) close pos (by positivity)
  obtain ⟨normal, small⟩ := range.of_close product (by linarith)
  refine ⟨_, takes_mul power small, ?_⟩
  have := product.rounded ⟨by linarith, by linarith⟩ range.pos normal
  exact this.mono (by linarith) range.pos.le

/-- Where the power is taken in two parts, each of them is large enough to leave the first product
in the range too. -/
theorem exists_takes_mul_mul {m : ℚ} {a b : ℕ} (least : 2 ^ (-1074 : ℤ) ≤ m)
    (ha : 100 ≤ a ∧ a < 309) (hb : 100 ≤ b ∧ b < 309) (high : m * 10 ^ a * 10 ^ b ≤ 100)
    (range : InRange (m * 10 ^ a * 10 ^ b)) :
    ∃ r, Takes (· * powerOfTen a * powerOfTen b) m r ∧ Close 16 r (m * 10 ^ a * 10 ^ b) := by
  have pos : 0 < m := (two_zpow_pos _).trans_le least
  have large {k : ℕ} (h : 100 ≤ k) : (10 : ℚ) ^ 100 ≤ 10 ^ k := pow_le_pow_right₀ (by norm_num) h
  have first : InRange (m * 10 ^ a) := by
    apply inRange_of_between (a := -1074 + 53) (b := 0) _ _ (by norm_num) (by norm_num)
    · have power : (2 : ℚ) ^ (53 : ℤ) ≤ 10 ^ a := le_trans (by norm_num) (large ha.1)
      rw [two_zpow_add]
      exact mul_le_mul least power (two_zpow_pos 53).le pos.le
    · rw [zpow_zero]
      refine le_of_mul_le_mul_right (high.trans ?_) (show (0 : ℚ) < 10 ^ b by positivity)
      rw [one_mul]
      exact le_trans (by norm_num) (large hb.1)
  obtain ⟨r, takes, close⟩ := exists_takes_mul (Close.refl m) (by norm_num) pos ha.2 first
  rw [zero_add] at close
  obtain ⟨r', takes', close'⟩ := exists_takes_mul close (by norm_num) first.pos hb.2 range
  refine ⟨r', fun v σ unit hv => takes' _ σ unit (takes v σ unit hv), ?_⟩
  exact close'.mono (by norm_num) range.pos.le

theorem exists_takes_div {y : ℚ} {n : ℕ} (pos : 0 < y) (hn : n < 309)
    (range : InRange (y / 10 ^ n)) :
    ∃ r, Takes (· / powerOfTen n) y r ∧ Close 8 r (y / 10 ^ n) := by
  obtain ⟨p, power, close⟩ := close_powerOfTen hn
  have unit : (0 : ℚ) < 10 ^ n := by positivity
  have quotient := close.const_div (by norm_num) pos unit
  obtain ⟨normal, small⟩ := range.of_close quotient (by norm_num)
  refine ⟨_, takes_div power (close.pos (by norm_num) unit).ne' small, ?_⟩
  have := quotient.rounded (by norm_num) range.pos normal
  exact this.mono (by norm_num) range.pos.le

/-! ### The quotient -/

theorem two_zpow_le_magnitude {x : Finite} (nonzero : x.isZero = false) :
    2 ^ (-1074 : ℤ) ≤ x.magnitude := by
  have one : (1 : ℚ) ≤ x.significand := by
    have : x.significand ≠ 0 := of_decide_eq_false nonzero
    exact_mod_cast Nat.one_le_iff_ne_zero.2 this
  have pos := two_zpow_pos x.exponent
  calc (2 : ℚ) ^ (-1074 : ℤ) ≤ 1 * 2 ^ x.exponent := by
        rw [one_mul]
        exact two_zpow_le x.canonical.2.1
    _ ≤ x.significand * 2 ^ x.exponent := by gcongr

/-- Powers of two that enclose powers of ten. -/
theorem two_zpow_1024_lt : 5 * (2 : ℚ) ^ (1024 : ℤ) < 10 ^ (309 : ℤ) := by
  have : 5 * 2 ^ 1024 < 10 ^ 309 := by decide +kernel
  exact_mod_cast this

theorem two_zpow_1024_le : 5 * (2 : ℚ) ^ (1024 : ℤ) ≤ 9 * 10 ^ (308 : ℤ) := by
  have : 5 * 2 ^ 1024 ≤ 9 * 10 ^ 308 := by decide +kernel
  exact_mod_cast this

theorem lt_two_zpow_neg_1074 : (10 : ℚ) ^ (-324 : ℤ) < 2 ^ (-1074 : ℤ) := by
  have : 2 ^ 1074 < 10 ^ 324 := by decide +kernel
  rw [zpow_neg, zpow_neg]
  apply inv_strictAnti₀ (two_zpow_pos 1074)
  exact_mod_cast this

section

variable {x : Finite} {e : ℤ}

theorem exponent_lt (low : 10 ^ e ≤ 5 * x.magnitude) : e < 309 := by
  have five : (0 : ℚ) < 5 := by norm_num
  refine (zpow_lt_zpow_iff_right₀ (show (1 : ℚ) < 10 by norm_num)).1 (low.trans_lt ?_)
  exact (mul_lt_mul_of_pos_left x.magnitude_lt five).trans two_zpow_1024_lt

variable (nonzero : x.isZero = false) (high : x.magnitude ≤ 100 * 10 ^ e)
include nonzero high

theorem lt_exponent : -326 < e := by
  have small : (10 : ℚ) ^ (-324 : ℤ) < 10 ^ (e + 2) := by
    calc (10 : ℚ) ^ (-324 : ℤ) < 2 ^ (-1074 : ℤ) := lt_two_zpow_neg_1074
      _ ≤ x.magnitude := two_zpow_le_magnitude nonzero
      _ ≤ 100 * 10 ^ e := high
      _ = 10 ^ (e + 2) := by
        rw [zpow_add₀ (by norm_num), mul_comm]
        norm_num
  have := (zpow_lt_zpow_iff_right₀ (show (1 : ℚ) < 10 by norm_num)).1 small
  omega

/-- Scaling by a power of ten is off by sixteen units at most. -/
theorem exists_takes_scaleDown (low : 10 ^ e ≤ 16 * x.magnitude) (most : e < 309) :
    ∃ r, Takes (scaleDown · e) x.magnitude r ∧ Close 16 r (x.magnitude / 10 ^ e) := by
  have least := lt_exponent nonzero high
  have unit := ten_zpow_pos e
  have least' : x.magnitude ≥ 2 ^ (-1074 : ℤ) := two_zpow_le_magnitude nonzero
  have pos : 0 < x.magnitude := (two_zpow_pos _).trans_le least'
  have range : InRange (x.magnitude / 10 ^ e) := by
    apply inRange_of_between (a := -4) (b := 7) _ _ (by norm_num) (by norm_num)
    · rw [le_div_iff₀ unit]
      norm_num
      linarith
    · rw [div_le_iff₀ unit]
      norm_num
      linarith
  unfold scaleDown
  split_ifs with sign
  · obtain ⟨n, rfl⟩ := Int.eq_ofNat_of_zero_le sign
    rw [zpow_natCast] at range ⊢
    obtain ⟨r, takes, close⟩ := exists_takes_div pos (by omega) range
    exact ⟨r, takes, close.mono (by norm_num) range.pos.le⟩
  obtain ⟨n, rfl⟩ : ∃ n : ℕ, e = -n := ⟨(-e).toNat, by omega⟩
  simp only [neg_neg, Int.toNat_natCast]
  rw [zpow_neg, zpow_natCast] at high unit range ⊢
  rw [div_inv_eq_mul] at range ⊢
  rw [inv_pos] at unit
  rw [← div_eq_mul_inv, le_div_iff₀ unit] at high
  split_ifs with once
  · obtain ⟨r, takes, close⟩ :=
      exists_takes_mul (Close.refl _) (by norm_num) pos (by omega) range
    exact ⟨r, takes, close.mono (by norm_num) range.pos.le⟩
  · have split : n / 2 + (n - n / 2) = n := by omega
    have power : (10 : ℚ) ^ n = 10 ^ (n / 2) * 10 ^ (n - n / 2) := by rw [← pow_add, split]
    rw [power, ← mul_assoc] at high range ⊢
    exact exists_takes_mul_mul least' (by omega) (by omega) high range

end

/-- The same, where the quotient is large enough to keep the exponent in range. -/
theorem exists_takes_of_quotient {x : Finite} (nonzero : x.isZero = false) {e : ℤ} {k : ℚ}
    (quotient : x.magnitude / 10 ^ e = k) (least : 1 / 5 ≤ k) (most : k ≤ 100) :
    ∃ r, Takes (scaleDown · e) x.magnitude r ∧ Close 16 r k := by
  have pos := ten_zpow_pos e
  rw [← quotient] at least most ⊢
  rw [le_div_iff₀ pos] at least
  rw [div_le_iff₀ pos] at most
  exact exists_takes_scaleDown nonzero most (by linarith) (exponent_lt (by linarith))

/-! ### The exponent -/

/-- Within one of the exponent of the highest power of ten that is not above a number. -/
def Guesses (start : ℤ) (q : ℚ) : Prop := 10 ^ (start - 1) ≤ q ∧ q < 10 ^ (start + 2)

/-- A quotient with the exponent that was adjusted: from one to ten, but for the units of two
quotients. -/
structure Adjusted (x : Finite) (e : ℤ) (r : ℚ) : Prop where
  takes : Takes (scaleDown · e) x.magnitude r
  close : Close 16 r (x.magnitude / 10 ^ e)
  low : 9007199254740976 ≤ 9007199254741008 * r
  high : 9007199254740976 * r ≤ 10 * 9007199254741008

section

variable {x : Finite} (nonzero : x.isZero = false) {start : ℤ} (guess : Guesses start x.magnitude)
include nonzero guess

/-- The first quotient is below one wherever it is not near its exact value. -/
theorem exists_first_quotient :
    ∃ r, (scaleDown (finite x.abs) start).HasValue r ∧
      (5 * x.magnitude < 10 ^ start ∧ r < 1 ∨
        Takes (scaleDown · start) x.magnitude r ∧ Close 16 r (x.magnitude / 10 ^ start)) := by
  obtain ⟨low, high⟩ := guess
  have unit := ten_zpow_pos start
  have ten : (10 : ℚ) ≠ 0 := by norm_num
  have low' : 10 ^ start ≤ 10 * x.magnitude := by
    rw [zpow_sub_one₀ ten] at low
    linarith
  have high' : x.magnitude ≤ 100 * 10 ^ start := by
    rw [zpow_add₀ ten] at high
    norm_num at high
    linarith
  have plus : (finite x.abs).HasValue (1 * x.magnitude) := by
    rw [one_mul]
    exact hasValue_finite x.abs
  rcases lt_or_ge start 309 with most | beyond
  · obtain ⟨r, takes, close⟩ :=
      exists_takes_scaleDown nonzero high' (by linarith [x.magnitude_nonneg]) most
    have value := takes _ 1 abs_one plus
    rw [one_mul] at value
    exact ⟨r, value, .inr ⟨takes, close⟩⟩
  · have below := exponent_lt (low.trans (by linarith [x.magnitude_nonneg]))
    obtain rfl : start = 309 := by omega
    refine ⟨0, ⟨.zero false, ?_, ?_⟩, .inl ⟨?_, by norm_num⟩⟩
    · change finite x.abs / powerOfTen 309 = _
      rw [powerOfTen_infinite]
      rfl
    · simp [Finite.value, Finite.magnitude, Finite.zero]
    · by_contra large
      exact absurd (exponent_lt (not_lt.1 large)) (by norm_num)

theorem exists_adjusted : ∃ r, Adjusted x (adjustedExponent start (finite x)) r := by
  obtain ⟨r, value, near⟩ := exists_first_quotient nonzero guess
  obtain ⟨low, high⟩ := guess
  have unit := ten_zpow_pos start
  have ten : (10 : ℚ) ≠ 0 := by norm_num
  have moved : adjustedExponent start (finite x) =
      if (10 : ℚ) ≤ r then start + 1 else if r < 1 then start - 1 else start := by
    have hten := (hasValue_ofInt (n := 10) (by norm_num)).le_iff value
    have hone := value.lt_iff (hasValue_ofInt (n := 1) (by norm_num))
    push_cast at hten hone
    simp only [← hten, ← hone]
    rfl
  -- the exact quotient by the power of the guess
  obtain ⟨y, hy⟩ : ∃ y, x.magnitude = y * 10 ^ start := ⟨_, (div_mul_cancel₀ _ unit.ne').symm⟩
  rw [zpow_sub_one₀ ten, hy, mul_comm y, mul_le_mul_iff_right₀ unit] at low
  rw [zpow_add₀ ten, hy, mul_comm y, mul_lt_mul_iff_right₀ unit] at high
  norm_num at low high
  have same : x.magnitude / 10 ^ start = y := by rw [hy, mul_div_cancel_right₀ _ unit.ne']
  have up : x.magnitude / 10 ^ (start + 1) = y / 10 := by
    rw [zpow_add_one₀ ten, hy]
    field_simp
  have down : x.magnitude / 10 ^ (start - 1) = 10 * y := by
    rw [zpow_sub_one₀ ten, hy]
    field_simp
  have tiny (h : 5 * x.magnitude < 10 ^ start) : 5 * y < 1 := by
    rwa [hy, ← mul_assoc, mul_lt_iff_lt_one_left unit] at h
  rw [moved]
  split_ifs with large small
  · obtain ⟨-, below⟩ | ⟨-, close⟩ := near
    · linarith
    rw [same] at close
    obtain ⟨r', takes, close'⟩ :=
      exists_takes_of_quotient nonzero up (by linarith [close.high]) (by linarith)
    refine ⟨r', takes, by rwa [up], ?_, ?_⟩ <;> linarith [close.high, close'.low, close'.high]
  · have small : 9007199254740976 * y ≤ 9007199254740992 := by
      obtain ⟨below, -⟩ | ⟨-, close⟩ := near
      · linarith [tiny below]
      · rw [same] at close
        linarith [close.low]
    obtain ⟨r', takes, close'⟩ := exists_takes_of_quotient nonzero down (by linarith) (by linarith)
    refine ⟨r', takes, by rwa [down], ?_, ?_⟩ <;> linarith [close'.low, close'.high]
  · obtain ⟨-, below⟩ | ⟨takes, close⟩ := near
    · contradiction
    refine ⟨r, takes, close, ?_, ?_⟩ <;> linarith

end

end CellDisplay.Number
