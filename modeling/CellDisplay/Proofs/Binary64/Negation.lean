import CellDisplay.Proofs.Binary64.Operations

/-! Negation of doubles. Doubles round alike on both sides of zero and products and quotients take
their sign from both operands, so a factor or a numerator can be negated before the operation or
after it, infinities, NaN and the two zeros included. -/
namespace CellDisplay.Binary64

theorem neg_pack (negative : Bool) (significand : ℕ) (exponent : ℤ) :
    -pack negative significand exponent = pack (!negative) significand exponent := by
  unfold pack
  split <;> rfl

theorem neg_ofMagnitude (negative : Bool) (q : ℚ) :
    -ofMagnitude negative q = ofMagnitude (!negative) q := by
  unfold ofMagnitude
  dsimp only
  split_ifs
  · rfl
  · exact neg_pack _ _ _
  · exact neg_pack _ _ _

/-- Rounding is symmetric about zero, where the zeros are swapped. -/
theorem neg_ofRat (negativeZero : Bool) (q : ℚ) :
    -ofRat negativeZero q = ofRat (!negativeZero) (-q) := by
  rcases lt_trichotomy q 0 with negative | rfl | positive
  · have above : ¬ -q < 0 := by linarith
    rw [ofRat, ofRat, if_neg negative.ne, if_neg (neg_ne_zero.2 negative.ne), if_pos negative,
      if_neg above]
    exact neg_ofMagnitude _ _
  · rw [ofRat, ofRat, neg_zero, if_pos rfl, if_pos rfl]
    rfl
  · have below : -q < 0 := by linarith
    rw [ofRat, ofRat, if_neg positive.ne', if_neg (neg_ne_zero.2 positive.ne'),
      if_neg positive.not_gt, if_pos below, neg_neg]
    exact neg_ofMagnitude _ _

/-- A sign that two operands make together changes with that of the first. -/
theorem sign_not (a b : Bool) : ((!a) != b) = !(a != b) := by
  cases a <;> cases b <;> rfl

variable (x y : Binary64)

protected theorem neg_mul : -x * y = -(x * y) := by
  change (neg x).mul y = neg (x.mul y)
  cases x with
  | nan => cases y <;> rfl
  | infinite a =>
    cases y with
    | nan => rfl
    | infinite b => exact congrArg infinite (sign_not a b)
    | finite y =>
      simp only [mul, neg]
      split
      · rfl
      · exact congrArg infinite (sign_not a _)
  | finite x =>
    cases y with
    | nan => rfl
    | infinite b =>
      simp only [mul, neg]
      change (if x.isZero then _ else _) = _
      split
      · rfl
      · exact congrArg infinite (sign_not _ b)
    | finite y =>
      have rounds := neg_ofRat (x.negative != y.negative) (x.value * y.value)
      rw [← sign_not, ← neg_mul, ← x.value_neg] at rounds
      exact rounds.symm

protected theorem neg_div : -x / y = -(x / y) := by
  change (neg x).div y = neg (x.div y)
  cases x with
  | nan => cases y <;> rfl
  | infinite a =>
    cases y with
    | finite y => exact congrArg infinite (sign_not a _)
    | _ => rfl
  | finite x =>
    cases y with
    | nan => rfl
    | infinite b => exact congrArg (finite ∘ Finite.zero) (sign_not _ b)
    | finite y =>
      simp only [div, neg]
      split
      · change (if x.isZero then _ else _) = _
        split
        · rfl
        · exact congrArg infinite (sign_not _ _)
      · have rounds := neg_ofRat (x.negative != y.negative) (x.value / y.value)
        rw [← sign_not, ← neg_div, ← x.value_neg] at rounds
        exact rounds.symm

@[simp] protected theorem abs_neg : (-x).abs = x.abs := by cases x <;> rfl

end CellDisplay.Binary64
