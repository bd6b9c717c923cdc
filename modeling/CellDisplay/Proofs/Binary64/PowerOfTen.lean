import CellDisplay.Proofs.Binary64.Operations

/-! Powers of ten. They have no minus sign, whether they are finite or not, and up to the 22nd they
are exact. -/
namespace CellDisplay.Binary64

open Rounding

/-! ### The sign -/

/-- A double whose sign is not a minus, whatever it is. -/
def Unsigned : Binary64 → Prop
  | .nan => True
  | .infinite negative => negative = false
  | .finite x => x.negative = false

theorem Finite.magnitude_nonneg (x : Finite) : 0 ≤ x.magnitude :=
  mul_nonneg (Nat.cast_nonneg _) (two_zpow_pos _).le

theorem Finite.value_of_unsigned {x : Finite} (h : (finite x).Unsigned) :
    x.value = x.magnitude := by
  have plus : x.negative = false := h
  rw [value, plus, if_neg Bool.false_ne_true]

theorem Finite.value_eq_sign_mul (x : Finite) :
    x.value = (if x.value < 0 then -1 else 1) * x.magnitude := by
  have pos := x.magnitude_nonneg
  cases h : x.negative with
  | false =>
    have plus : x.value = x.magnitude := by simp [value, h]
    rw [if_neg (by linarith), one_mul, plus]
  | true =>
    have minus : x.value = -x.magnitude := by simp [value, h]
    split <;> linarith

theorem unsigned_pack (significand : ℕ) (exponent : ℤ) :
    (pack false significand exponent).Unsigned := by
  unfold pack
  split <;> exact rfl

theorem unsigned_ofRat {q : ℚ} (h : 0 ≤ q) : (ofRat false q).Unsigned := by
  unfold ofRat
  split
  · exact rfl
  rw [if_neg h.not_gt]
  unfold ofMagnitude
  split
  · exact rfl
  · dsimp only
    split <;> exact unsigned_pack _ _

theorem Unsigned.mul {x y : Binary64} (hx : x.Unsigned) (hy : y.Unsigned) : (x * y).Unsigned := by
  change (Binary64.mul x y).Unsigned
  cases x with
  | nan => cases y <;> trivial
  | infinite a =>
    obtain rfl : a = false := hx
    cases y with
    | nan => trivial
    | infinite b =>
      obtain rfl : b = false := hy
      rfl
    | finite y =>
      have plus : y.negative = false := hy
      rw [Binary64.mul, plus]
      split
      · trivial
      · rfl
  | finite x =>
    have plus : x.negative = false := hx
    cases y with
    | nan => trivial
    | infinite b =>
      obtain rfl : b = false := hy
      rw [Binary64.mul, plus]
      split
      · trivial
      · rfl
    | finite y =>
      have plus' : y.negative = false := hy
      rw [Binary64.mul, plus, plus', Finite.value_of_unsigned hx, Finite.value_of_unsigned hy]
      exact unsigned_ofRat (mul_nonneg x.magnitude_nonneg y.magnitude_nonneg)

/-- The step of a power: one more factor where the count of factors is odd. -/
theorem Unsigned.mul_of_odd {base power : Binary64} (hb : base.Unsigned) (hp : power.Unsigned)
    (n : ℕ) : (if n % 2 = 1 then power * base else power).Unsigned := by
  split
  · exact hp.mul hb
  · exact hp

theorem unsigned_mulPower {base power : Binary64} (hb : base.Unsigned) (hp : power.Unsigned)
    (n : ℕ) : (mulPower base power n).Unsigned := by
  fun_induction mulPower base power n with
  | case1 => exact hb.mul_of_odd hp _
  | case2 _ _ _ _ _ ih => exact ih (hb.mul hb) (hb.mul_of_odd hp _)

theorem unsigned_powerOfTen (n : ℕ) : (powerOfTen n).Unsigned :=
  unsigned_mulPower (unsigned_ofRat (by norm_num)) (unsigned_ofRat (by norm_num)) n

/-! ### The value -/

theorem holds_tenPow {n : ℕ} (h : n ≤ 22) : Holds (10 ^ n) := by
  refine ⟨5 ^ n, n, ?_, by omega, ?_⟩
  · calc 5 ^ n ≤ 5 ^ 22 := Nat.pow_le_pow_right (by norm_num) h
      _ < 9007199254740992 := by norm_num
  · rw [zpow_natCast, Nat.cast_pow, ← mul_pow]
    norm_num

/-- Repeated squaring gives the exact powers of ten as long as a double holds them. -/
theorem hasValue_powerOfTen {n : ℕ} (h : n ≤ 22) : (powerOfTen n).HasValue (10 ^ n) := by
  have squaring : ∀ n ≤ 22, powerOfTen n = ofInt (10 ^ n) := by decide +kernel
  have small : |(10 : ℚ) ^ n| ≤ 2 ^ (1023 : ℤ) := by
    refine small_of_le (k := 74) ?_ (by norm_num)
    rw [abs_of_nonneg (by positivity)]
    calc (10 : ℚ) ^ n ≤ 10 ^ 22 := pow_le_pow_right₀ (by norm_num) h
      _ ≤ 2 ^ (74 : ℤ) := by norm_num
  have := hasValue_ofRat false small
  rw [rounded_of_holds (holds_tenPow h)] at this
  rw [squaring n h, ofInt, Int.cast_pow]
  exact this

end CellDisplay.Binary64
