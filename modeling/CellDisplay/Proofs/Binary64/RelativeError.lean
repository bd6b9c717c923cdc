import CellDisplay.Proofs.Binary64.Overflow

/-! Errors measured by the result. From the least normal double up a rounded number is off by a
2 ^ 53rd of itself at most, from one up even by a 2 ^ 53rd of its whole part; the distance of a
double above its floor is not rounded at all, and comparisons are those of the values. -/
namespace CellDisplay.Binary64

open Rounding

/-! ### One rounding -/

/-- Half a unit is a 2 ^ 53rd of the power of two that starts the binade. -/
theorem abs_rounded_sub_le_floorLog2 {q : ℚ} (normal : 2 ^ (-1022 : ℤ) ≤ q) :
    |rounded q - q| ≤ 2 ^ (-53 : ℤ) * 2 ^ floorLog2 q := by
  have pos : 0 < q := (two_zpow_pos _).trans_le normal
  have high : -1022 ≤ floorLog2 q := by
    by_contra low
    exact ((floorLog2_lt_iff pos).1 (not_le.1 low)).not_ge normal
  have unit : unitExponent q = floorLog2 q - 52 := by
    simp only [unitExponent]
    omega
  rw [rounded_of_nonneg pos.le, ← two_zpow_add]
  refine (abs_roundedMagnitude_sub_le_unit q).trans_eq ?_
  rw [unit]
  congr 1
  omega

theorem abs_rounded_sub_le_mul {q : ℚ} (normal : 2 ^ (-1022 : ℤ) ≤ q) :
    |rounded q - q| ≤ 2 ^ (-53 : ℤ) * q := by
  refine (abs_rounded_sub_le_floorLog2 normal).trans ?_
  have := (floorLog2_spec ((two_zpow_pos _).trans_le normal)).1
  gcongr

theorem rounded_intCast_le {n : ℤ} (small : n.natAbs ≤ 9007199254740992) {q : ℚ}
    (le : (n : ℚ) ≤ q) : n ≤ rounded q := by
  rw [← rounded_intCast small]
  exact rounded_mono le

theorem one_le_rounded {q : ℚ} (h : 1 ≤ q) : 1 ≤ rounded q := by
  have := rounded_intCast_le (n := 1) (by norm_num) (by simpa using h)
  simpa using this

/-- From one up the power of two is below the whole part, and rounding does not pass it. -/
theorem abs_rounded_sub_le_floor {q : ℚ} (h : 1 ≤ q) :
    |rounded q - q| ≤ 2 ^ (-53 : ℤ) * (rounded q).floor := by
  have normal : (2 : ℚ) ^ (-1022 : ℤ) ≤ q :=
    (two_zpow_le (b := 0) (by norm_num)).trans (by simpa using h)
  have pos : 0 < q := by linarith
  have exponent : 0 ≤ floorLog2 q := by
    by_contra low
    have := (floorLog2_lt_iff pos (k := 0)).1 (not_le.1 low)
    rw [zpow_zero] at this
    exact this.not_ge h
  have below : (2 : ℚ) ^ floorLog2 q ≤ rounded q := by
    rw [rounded_of_nonneg pos.le]
    exact le_roundedMagnitude (holds_two_zpow (by omega)) pos (floorLog2_spec pos).1
  have whole : (2 : ℚ) ^ floorLog2 q ≤ (rounded q).floor := by
    obtain ⟨k, hk⟩ := Int.eq_ofNat_of_zero_le exponent
    rw [hk] at below ⊢
    have : ((2 ^ k : ℕ) : ℤ) ≤ (rounded q).floor := by
      rw [Rat.le_floor_iff]
      push_cast
      exact_mod_cast below
    exact_mod_cast this
  refine (abs_rounded_sub_le_floorLog2 normal).trans ?_
  gcongr

/-! ### The distance above the floor -/

/-- What has a part behind the point is below 2 ^ 52. -/
theorem Holds.lt_or_whole {q : ℚ} (held : Holds q) :
    q < 4503599627370496 ∨ ∃ n : ℕ, q = n := by
  obtain ⟨m, e, hm, he, rfl⟩ := held
  rcases le_or_gt 0 e with whole | part
  · right
    obtain ⟨k, rfl⟩ := Int.eq_ofNat_of_zero_le whole
    exact ⟨m * 2 ^ k, by push_cast; rfl⟩
  · left
    have half : (2 : ℚ) ^ e ≤ 2 ^ (-1 : ℤ) := two_zpow_le (by omega)
    have bits : (m : ℚ) < 9007199254740992 := by exact_mod_cast hm
    calc (m * 2 ^ e : ℚ) ≤ m * 2 ^ (-1 : ℤ) := by gcongr
      _ < 9007199254740992 * 2 ^ (-1 : ℤ) := by gcongr
      _ = 4503599627370496 := by norm_num

/-- Below 2 ^ 53 a whole number is taken from a double without a rounding. -/
theorem Holds.sub_natCast {q : ℚ} (held : Holds q) {n : ℕ} (le : (n : ℚ) ≤ q)
    (small : q ≤ 9007199254740992) : Holds (q - n) := by
  obtain ⟨m, e, hm, he, rfl⟩ := held
  rcases le_or_gt 0 e with whole | part
  · obtain ⟨k, rfl⟩ := Int.eq_ofNat_of_zero_le whole
    have le : n ≤ m * 2 ^ k := by exact_mod_cast le
    have small : m * 2 ^ k ≤ 9007199254740992 := by exact_mod_cast small
    have rest : (m * 2 ^ (k : ℤ) - n : ℚ) = (m * 2 ^ k - n : ℕ) := by
      rw [Nat.cast_sub le]
      push_cast
      rfl
    rw [rest]
    exact holds_natCast ((Nat.sub_le _ _).trans small)
  · obtain ⟨k, rfl⟩ : ∃ k : ℕ, e = -k := ⟨(-e).toNat, by omega⟩
    have pos : (0 : ℚ) < 2 ^ k := by positivity
    -- both are multiples of the same unit
    have taken : n * 2 ^ k ≤ m := by
      rw [zpow_neg, zpow_natCast, ← div_eq_mul_inv, le_div_iff₀ pos] at le
      exact_mod_cast le
    refine ⟨m - n * 2 ^ k, -k, (Nat.sub_le _ _).trans_lt hm, he, ?_⟩
    rw [Nat.cast_sub taken, zpow_neg, zpow_natCast]
    push_cast
    field_simp

/-- A number that a double can hold is held without its whole part too. -/
theorem Holds.fract {q : ℚ} (held : Holds q) : Holds (q - q.floor) := by
  rcases held.lt_or_whole with small | ⟨n, rfl⟩
  · have nonneg : 0 ≤ q.floor := Rat.le_floor_iff.2 (by exact_mod_cast held.nonneg)
    have floor : (q.floor.toNat : ℚ) = q.floor := by
      rw [← Int.cast_natCast, Int.toNat_of_nonneg nonneg]
    rw [← floor]
    exact held.sub_natCast (floor.trans_le (floor_le q)) (by linarith)
  · rw [← Int.cast_natCast, Rat.floor_intCast, sub_self]
    exact holds_zero

theorem Finite.rounded_value (x : Finite) : rounded x.value = x.value := by
  have fixed := rounded_of_holds x.holds_magnitude
  unfold value
  split
  · rw [rounded_neg, fixed]
  · exact fixed

/-- Doubles from 2 ^ 52 on are whole. -/
theorem Finite.abs_value_lt_or_whole (x : Finite) :
    |x.value| < 4503599627370496 ∨ ∃ n : ℤ, x.value = n := by
  rw [x.abs_value]
  refine x.holds_magnitude.lt_or_whole.imp_right ?_
  rintro ⟨n, whole⟩
  unfold value
  split
  · exact ⟨-n, by rw [whole, Int.cast_neg, Int.cast_natCast]⟩
  · exact ⟨n, by rw [whole, Int.cast_natCast]⟩

/-- A double below one is short of it by a 2 ^ 53rd. -/
theorem Finite.magnitude_le_of_lt_one {q : Finite} (lt : q.magnitude < 1) :
    9007199254740992 * q.magnitude ≤ 9007199254740991 := by
  have bits : q.significand ≤ 9007199254740991 := by
    have := q.canonical.1
    omega
  have bits : (q.significand : ℚ) ≤ 9007199254740991 := by exact_mod_cast bits
  have scaled : 9007199254740992 * q.magnitude = q.significand * 2 ^ (q.exponent + 53) := by
    rw [magnitude, two_zpow_add]
    norm_num
    ring
  rcases le_or_gt 0 (q.exponent + 53) with whole | small
  · -- a whole number of 2 ^ 53rds
    obtain ⟨k, hk⟩ := Int.eq_ofNat_of_zero_le whole
    rw [hk, zpow_natCast] at scaled
    have : (q.significand * 2 ^ k : ℚ) < 9007199254740992 := by linarith
    have : q.significand * 2 ^ k < 9007199254740992 := by exact_mod_cast this
    rw [scaled]
    exact_mod_cast Nat.le_of_lt_succ this
  · have : (2 : ℚ) ^ (q.exponent + 53) ≤ 2 ^ (0 : ℤ) := two_zpow_le small.le
    rw [zpow_zero] at this
    rw [scaled]
    exact (mul_le_of_le_one_right (Nat.cast_nonneg _) this).trans bits

/-- The floor of a double is a double. -/
theorem Finite.hasValue_ofRat_floor (negativeZero : Bool) (x : Finite) :
    (ofRat negativeZero x.value.floor).HasValue x.value.floor := by
  rcases x.abs_value_lt_or_whole with small | ⟨n, whole⟩
  · rw [abs_lt] at small
    have low := floor_le x.value
    have high := lt_floor_add_one x.value
    have above : (-4503599627370497 : ℤ) < x.value.floor := by
      have : (-4503599627370497 : ℚ) < x.value.floor := by linarith
      exact_mod_cast this
    have below : x.value.floor < 4503599627370496 := by
      have : (x.value.floor : ℚ) < 4503599627370496 := by linarith
      exact_mod_cast this
    exact hasValue_ofRat_intCast negativeZero (by omega)
  · have floor : (x.value.floor : ℚ) = x.value := by rw [whole, Rat.floor_intCast]
    have range : |rounded x.value| < 2 ^ (1024 : ℤ) := by
      rw [x.rounded_value, x.abs_value]
      exact x.magnitude_lt
    obtain ⟨f, hf, value⟩ := ofRat_finite negativeZero range
    rw [floor]
    exact ⟨f, hf, by rw [value, x.rounded_value]⟩

/-- What a double has above its floor, rounded once. -/
theorem Finite.sub_floor_hasValue (x : Finite) :
    (finite x - ofInt x.value.floor).HasValue (rounded (x.value - x.value.floor)) := by
  have low := floor_le x.value
  have high := lt_floor_add_one x.value
  refine (hasValue_finite x).sub (x.hasValue_ofRat_floor false)
    (small_of_le (k := 0) ?_ (by norm_num))
  rw [zpow_zero, abs_of_nonneg (by linarith)]
  linarith

namespace HasValue

variable {x y : Binary64} {p q : ℚ}

theorem unique (hp : x.HasValue p) (hq : x.HasValue q) : p = q := by
  obtain ⟨f, rfl, rfl⟩ := hp
  obtain ⟨g, same, rfl⟩ := hq
  cases same
  rfl

theorem holds_of_nonneg (h : x.HasValue p) (nonneg : 0 ≤ p) : Holds p := by
  obtain ⟨f, rfl, rfl⟩ := h
  rw [← abs_of_nonneg nonneg, f.abs_value]
  exact f.holds_magnitude

theorem whole (h : x.HasValue p) : x.floor.HasValue p.floor := by
  obtain ⟨f, rfl, rfl⟩ := h
  exact f.hasValue_ofRat_floor f.negative

/-- Above its floor a double that is not negative has a part that is a double too. -/
theorem fract_of_nonneg (h : x.HasValue p) (nonneg : 0 ≤ p) : x.fract.HasValue (p - p.floor) := by
  have exact := rounded_of_holds (h.holds_of_nonneg nonneg).fract
  have low := floor_le p
  have high := lt_floor_add_one p
  rw [← exact]
  refine h.sub h.whole (small_of_le (k := 0) ?_ (by norm_num))
  rw [zpow_zero, abs_of_nonneg (by linarith)]
  linarith

/-- Taking a part of a number away does not overflow. -/
theorem sub_of_le (hx : x.HasValue p) (hy : y.HasValue q) (nonneg : 0 ≤ q) (le : q ≤ p) :
    (x - y).HasValue (rounded (p - q)) := by
  obtain ⟨f, rfl, rfl⟩ := hx
  obtain ⟨g, rfl, rfl⟩ := hy
  have range : |rounded (f.value - g.value)| < 2 ^ (1024 : ℤ) := by
    rw [abs_of_nonneg (rounded_nonneg (by linarith))]
    calc rounded (f.value - g.value) ≤ rounded f.value := rounded_mono (by linarith)
      _ = f.magnitude := by rw [f.rounded_value, ← f.abs_value, abs_of_nonneg (by linarith)]
      _ < 2 ^ (1024 : ℤ) := f.magnitude_lt
  have sum : finite f - finite g =
      ofRat (f.negative && g.neg.negative) (f.value - g.value) := by
    rw [sub_eq_add_neg, ← g.value_neg]
    rfl
  rw [sum]
  exact ofRat_finite _ range

theorem abs (h : x.HasValue p) : x.abs.HasValue |p| := by
  obtain ⟨f, rfl, rfl⟩ := h
  exact ⟨f.abs, rfl, f.abs_value.symm⟩

theorem le_iff (hx : x.HasValue p) (hy : y.HasValue q) : x.le y ↔ p ≤ q := by
  obtain ⟨f, rfl, rfl⟩ := hx
  obtain ⟨g, rfl, rfl⟩ := hy
  exact decide_eq_true_iff

theorem lt_iff (hx : x.HasValue p) (hy : y.HasValue q) : x.lt y ↔ p < q := by
  obtain ⟨f, rfl, rfl⟩ := hx
  obtain ⟨g, rfl, rfl⟩ := hy
  exact decide_eq_true_iff

end HasValue

end CellDisplay.Binary64
