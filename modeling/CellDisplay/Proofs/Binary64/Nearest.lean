import CellDisplay.Binary64.Basic
import CellDisplay.Proofs.Rounding
import Mathlib.Algebra.Order.Field.Power
import Mathlib.Tactic.FieldSimp
import Mathlib.Tactic.NormNum
import Mathlib.Tactic.Positivity

/-! The double nearest to a rational, as a rational. `rounded q` is the value that rounding gives
when exponents have no upper end; below `2 ^ 1024` it is the value of `ofRat` (`ofRat_finite`).
It keeps the order, fixes every number that a double can hold, and is within half a unit of `q`,
so that one bound on the magnitude of a result bounds its error (`abs_rounded_sub_le`). -/
namespace CellDisplay.Binary64

open Rounding

theorem two_zpow_pos (e : ℤ) : (0 : ℚ) < 2 ^ e := by positivity

theorem two_zpow_le {a b : ℤ} (h : a ≤ b) : (2 : ℚ) ^ a ≤ 2 ^ b :=
  zpow_le_zpow_right₀ (by norm_num) h

theorem two_zpow_lt_iff {a b : ℤ} : (2 : ℚ) ^ a < 2 ^ b ↔ a < b :=
  zpow_lt_zpow_iff_right₀ (by norm_num)

theorem two_zpow_add (a b : ℤ) : (2 : ℚ) ^ (a + b) = 2 ^ a * 2 ^ b :=
  zpow_add₀ (by norm_num) a b

/-- A power of two over a smaller one is a whole number. -/
theorem two_zpow_eq_mul {a b : ℤ} (h : a ≤ b) :
    (2 : ℚ) ^ b = ((2 ^ (b - a).toNat : ℕ) : ℚ) * 2 ^ a := by
  push_cast
  rw [← zpow_natCast, Int.toNat_of_nonneg (by omega), ← two_zpow_add]
  congr 1
  omega

/-! ### The exponent of a rational -/

theorem floorLog2_spec {q : ℚ} (h : 0 < q) :
    (2 : ℚ) ^ floorLog2 q ≤ q ∧ q < 2 ^ (floorLog2 q + 1) := by
  have num_ne : q.num.natAbs ≠ 0 := by
    have := Rat.num_pos.2 h
    omega
  have split : q * q.den = q.num.natAbs := by
    rw [Rat.mul_den_eq_num, ← Int.cast_natCast, Int.natAbs_of_nonneg (Rat.num_pos.2 h).le]
  -- both parts of the fraction lie between neighbouring powers
  have num_low : (2 : ℚ) ^ (q.num.natAbs.log2 : ℤ) ≤ q.num.natAbs := by
    exact_mod_cast Nat.log2_self_le num_ne
  have num_high : (q.num.natAbs : ℚ) < 2 ^ ((q.num.natAbs.log2 : ℤ) + 1) := by
    exact_mod_cast Nat.lt_log2_self (n := q.num.natAbs)
  have den_low : (2 : ℚ) ^ (q.den.log2 : ℤ) ≤ q.den := by
    exact_mod_cast Nat.log2_self_le q.den_nz
  have den_high : (q.den : ℚ) < 2 ^ ((q.den.log2 : ℤ) + 1) := by
    exact_mod_cast Nat.lt_log2_self (n := q.den)
  simp only [floorLog2]
  set a := (q.num.natAbs.log2 : ℤ)
  set b := (q.den.log2 : ℤ)
  have upper : q < 2 ^ (a - b + 1) := by
    by_contra above
    have : (2 : ℚ) ^ (a - b + 1) * 2 ^ b ≤ q * q.den :=
      mul_le_mul (not_lt.1 above) den_low (two_zpow_pos b).le h.le
    rw [← two_zpow_add, split, show a - b + 1 + b = a + 1 by omega] at this
    linarith
  have lower : (2 : ℚ) ^ (a - b - 1) ≤ q := by
    by_contra below
    have : q * q.den < 2 ^ (a - b - 1) * 2 ^ (b + 1) :=
      mul_lt_mul'' (not_le.1 below) den_high h.le (by positivity)
    rw [← two_zpow_add, split, show a - b - 1 + (b + 1) = a by omega] at this
    linarith
  split_ifs with reached
  · exact ⟨reached, upper⟩
  · exact ⟨lower, by simpa using reached⟩

theorem floorLog2_lt_iff {q : ℚ} (h : 0 < q) {k : ℤ} : floorLog2 q < k ↔ q < 2 ^ k := by
  obtain ⟨low, high⟩ := floorLog2_spec h
  constructor
  · intro lt
    exact high.trans_le (two_zpow_le (by omega))
  · intro lt
    exact two_zpow_lt_iff.1 (low.trans_lt lt)

theorem unitExponent_ge (q : ℚ) : -1074 ≤ unitExponent q := le_max_left _ _

theorem unitExponent_le {q : ℚ} (h : 0 < q) {e : ℤ} (low : -1074 ≤ e) (lt : q < 2 ^ (e + 53)) :
    unitExponent q ≤ e := by
  have := (floorLog2_lt_iff h).2 lt
  simp only [unitExponent]
  omega

theorem unitExponent_mono {p q : ℚ} (hp : 0 < p) (h : p ≤ q) : unitExponent p ≤ unitExponent q := by
  have := (floorLog2_lt_iff hp).2 (h.trans_lt (floorLog2_spec (hp.trans_le h)).2)
  simp only [unitExponent]
  omega

theorem lt_two_zpow_unitExponent {q : ℚ} (h : 0 < q) : q < 2 ^ (unitExponent q + 53) := by
  rw [← floorLog2_lt_iff h]
  simp only [unitExponent]
  omega

/-- Only the least unit is too coarse for a full significand. -/
theorem two_zpow_unitExponent_le {q : ℚ} (h : 0 < q) (above : -1074 < unitExponent q) :
    2 ^ (unitExponent q + 52) ≤ q := by
  refine le_trans (two_zpow_le ?_) (floorLog2_spec h).1
  simp only [unitExponent] at *
  omega

/-! ### The rounded magnitude -/

/-- A magnitude rounded to the last bit of its double, with no upper end to exponents. -/
def roundedMagnitude (q : ℚ) : ℚ := nearestEven (q / 2 ^ unitExponent q) * 2 ^ unitExponent q

/-- The nonnegative numbers that doubles without an upper end hold exactly. -/
def Holds (q : ℚ) : Prop := ∃ (m : ℕ) (e : ℤ), m < 9007199254740992 ∧ -1074 ≤ e ∧ q = m * 2 ^ e

theorem Holds.nonneg {q : ℚ} (held : Holds q) : 0 ≤ q := by
  obtain ⟨m, e, -, -, rfl⟩ := held
  positivity

/-- A significand that carries is a power of two. -/
theorem holds_of_le {m : ℕ} {e : ℤ} (hm : m ≤ 9007199254740992) (he : -1074 ≤ e) :
    Holds (m * 2 ^ e) := by
  rcases hm.eq_or_lt with rfl | lt
  · refine ⟨4503599627370496, e + 1, by norm_num, by omega, ?_⟩
    rw [two_zpow_add]
    norm_num
    ring
  · exact ⟨m, e, lt, he, rfl⟩

theorem holds_two_zpow {k : ℤ} (h : -1074 ≤ k) : Holds (2 ^ k) :=
  ⟨1, k, by norm_num, h, by simp⟩

theorem holds_natCast {n : ℕ} (h : n ≤ 9007199254740992) : Holds n := by
  simpa using holds_of_le (e := 0) h (by norm_num)

theorem holds_zero : Holds 0 := ⟨0, 0, by norm_num, by norm_num, by simp⟩

theorem holds_one : Holds 1 := ⟨1, 0, by norm_num, by norm_num, by simp⟩

/-- A half below 2 ^ 52 is a double. -/
theorem holds_half {k : ℕ} (h : k < 4503599627370496) : Holds ((k : ℚ) + 1 / 2) := by
  refine ⟨2 * k + 1, -1, by omega, by norm_num, ?_⟩
  push_cast
  rw [zpow_neg_one]
  ring

theorem Finite.holds_magnitude (x : Finite) : Holds x.magnitude :=
  ⟨x.significand, x.exponent, x.canonical.1, x.canonical.2.1, rfl⟩

/-- A number that a double can hold is a multiple of the unit of any smaller number. -/
theorem Holds.eq_mul_unit {g q : ℚ} (held : Holds g) (h : 0 < q) (le : q ≤ g) :
    ∃ n : ℤ, g = n * 2 ^ unitExponent q := by
  obtain ⟨m, e, hm, he, rfl⟩ := held
  have unit : unitExponent q ≤ e := by
    apply unitExponent_le h he
    refine le.trans_lt ?_
    rw [add_comm, two_zpow_add]
    gcongr
    exact_mod_cast hm
  refine ⟨m * 2 ^ (e - unitExponent q).toNat, ?_⟩
  rw [two_zpow_eq_mul unit]
  push_cast
  ring

theorem roundedMagnitude_zero : roundedMagnitude 0 = 0 := by
  simp [roundedMagnitude]

theorem roundedMagnitude_le_of_eq_mul {q : ℚ} {n : ℤ} (le : q ≤ n * 2 ^ unitExponent q) :
    roundedMagnitude q ≤ n * 2 ^ unitExponent q := by
  have pos := two_zpow_pos (unitExponent q)
  have := nearestEven_le ((div_le_iff₀ pos).2 le)
  rw [roundedMagnitude]
  gcongr

theorem le_roundedMagnitude_of_eq_mul {q : ℚ} {n : ℤ} (le : n * 2 ^ unitExponent q ≤ q) :
    n * 2 ^ unitExponent q ≤ roundedMagnitude q := by
  have pos := two_zpow_pos (unitExponent q)
  have := le_nearestEven ((le_div_iff₀ pos).2 le)
  rw [roundedMagnitude]
  gcongr

/-- Rounding does not pass a number above that a double can hold. -/
theorem roundedMagnitude_le {g q : ℚ} (held : Holds g) (h : 0 < q) (le : q ≤ g) :
    roundedMagnitude q ≤ g := by
  obtain ⟨n, rfl⟩ := held.eq_mul_unit h le
  exact roundedMagnitude_le_of_eq_mul le

theorem two_zpow_le_roundedMagnitude {q : ℚ} {k : ℤ} (low : unitExponent q ≤ k)
    (le : 2 ^ k ≤ q) : 2 ^ k ≤ roundedMagnitude q := by
  rw [two_zpow_eq_mul low] at le ⊢
  have := le_roundedMagnitude_of_eq_mul (n := (2 ^ (k - unitExponent q).toNat : ℕ))
    (by exact_mod_cast le)
  exact_mod_cast this

/-- Rounding does not pass a number below that a double can hold. -/
theorem le_roundedMagnitude {g q : ℚ} (held : Holds g) (h : 0 < q) (le : g ≤ q) :
    g ≤ roundedMagnitude q := by
  obtain ⟨m, e, hm, he, rfl⟩ := held
  by_cases coarse : unitExponent q ≤ e
  · have whole : (m * 2 ^ e : ℚ) =
        ((m * 2 ^ (e - unitExponent q).toNat : ℕ) : ℤ) * 2 ^ unitExponent q := by
      rw [two_zpow_eq_mul coarse]
      push_cast
      ring
    rw [whole] at le ⊢
    exact le_roundedMagnitude_of_eq_mul le
  · -- the number lies below the binade of `q`
    have small : (m * 2 ^ e : ℚ) ≤ 2 ^ (unitExponent q + 52) := by
      calc (m * 2 ^ e : ℚ) ≤ 2 ^ (53 : ℤ) * 2 ^ e := by
            gcongr
            exact_mod_cast hm.le
        _ = 2 ^ (53 + e) := (two_zpow_add _ _).symm
        _ ≤ 2 ^ (unitExponent q + 52) := two_zpow_le (by omega)
    exact small.trans (two_zpow_le_roundedMagnitude (by omega)
      (two_zpow_unitExponent_le h (by omega)))

theorem roundedMagnitude_of_holds {q : ℚ} (held : Holds q) (h : 0 < q) : roundedMagnitude q = q :=
  le_antisymm (roundedMagnitude_le held h le_rfl) (le_roundedMagnitude held h le_rfl)

theorem roundedMagnitude_nonneg {q : ℚ} (h : 0 ≤ q) : 0 ≤ roundedMagnitude q := by
  have : (0 : ℤ) ≤ nearestEven (q / 2 ^ unitExponent q) := le_nearestEven (by simp; positivity)
  have : (0 : ℚ) ≤ nearestEven (q / 2 ^ unitExponent q) := by exact_mod_cast this
  rw [roundedMagnitude]
  positivity

theorem roundedMagnitude_mono {p q : ℚ} (hp : 0 ≤ p) (h : p ≤ q) :
    roundedMagnitude p ≤ roundedMagnitude q := by
  rcases hp.eq_or_lt with rfl | hp
  · rw [roundedMagnitude_zero]
    exact roundedMagnitude_nonneg h
  have hq := hp.trans_le h
  rcases (unitExponent_mono hp h).eq_or_lt with same | more
  · rw [roundedMagnitude, roundedMagnitude, same]
    gcongr
    apply nearestEven_mono
    gcongr
  · -- the power of two that starts the binade of `q` stands between them
    set k := unitExponent q + 52
    have low := unitExponent_ge p
    have below : p ≤ 2 ^ k := (lt_two_zpow_unitExponent hp).le.trans (two_zpow_le (by omega))
    have above : 2 ^ k ≤ q := two_zpow_unitExponent_le hq (by omega)
    exact (roundedMagnitude_le (holds_two_zpow (by omega)) hp below).trans
      (le_roundedMagnitude (holds_two_zpow (by omega)) hq above)

/-- Rounding moves a number by half a unit at most. -/
theorem abs_roundedMagnitude_sub_le_unit (q : ℚ) :
    |roundedMagnitude q - q| ≤ 2 ^ (unitExponent q - 1) := by
  have pos := two_zpow_pos (unitExponent q)
  have half : (2 : ℚ) ^ (unitExponent q - 1) = 1 / 2 * 2 ^ unitExponent q := by
    rw [sub_eq_add_neg, two_zpow_add]
    norm_num
    ring
  have scaled : roundedMagnitude q - q =
      (nearestEven (q / 2 ^ unitExponent q) - q / 2 ^ unitExponent q) * 2 ^ unitExponent q := by
    rw [roundedMagnitude]
    field_simp
  rw [scaled, half, abs_mul, abs_of_pos pos]
  gcongr
  exact abs_nearestEven_sub_le _

theorem abs_roundedMagnitude_sub_le {q : ℚ} (h : 0 ≤ q) {k : ℤ} (low : -1021 ≤ k) (le : q ≤ 2 ^ k) :
    |roundedMagnitude q - q| ≤ 2 ^ (k - 54) := by
  rcases h.eq_or_lt with rfl | pos
  · rw [roundedMagnitude_zero]
    simp [(two_zpow_pos _).le]
  rcases le.eq_or_lt with rfl | lt
  · rw [roundedMagnitude_of_holds (holds_two_zpow (by omega)) pos]
    simp [(two_zpow_pos _).le]
  · have unit : unitExponent q ≤ k - 53 :=
      unitExponent_le pos (by omega) (by rwa [sub_add_cancel])
    exact (abs_roundedMagnitude_sub_le_unit q).trans (two_zpow_le (by omega))

/-! ### The double of a rational -/

/-- The rounded significand has 53 bits or is the power of two after them. -/
theorem nearestEven_unit_bounds {q : ℚ} (h : 0 < q) :
    0 ≤ nearestEven (q / 2 ^ unitExponent q) ∧
      nearestEven (q / 2 ^ unitExponent q) ≤ 9007199254740992 ∧
      (4503599627370496 ≤ nearestEven (q / 2 ^ unitExponent q) ∨ unitExponent q = -1074) := by
  have pos := two_zpow_pos (unitExponent q)
  refine ⟨le_nearestEven (by positivity), nearestEven_le ?_, ?_⟩
  · rw [div_le_iff₀ pos]
    refine (lt_two_zpow_unitExponent h).le.trans ?_
    rw [add_comm, two_zpow_add]
    norm_num
  · by_cases least : unitExponent q = -1074
    · exact .inr least
    · have := unitExponent_ge q
      refine .inl (le_nearestEven ?_)
      rw [le_div_iff₀ pos]
      refine le_trans ?_ (two_zpow_unitExponent_le h (by omega))
      rw [add_comm, two_zpow_add]
      norm_num

theorem holds_roundedMagnitude {q : ℚ} (h : 0 < q) : Holds (roundedMagnitude q) := by
  obtain ⟨nonneg, le, -⟩ := nearestEven_unit_bounds h
  obtain ⟨m, hm⟩ := Int.eq_ofNat_of_zero_le nonneg
  rw [roundedMagnitude, hm]
  exact holds_of_le (by omega) (unitExponent_ge q)

/-- Below the overflow the nearest double holds the rounded magnitude. -/
theorem ofMagnitude_finite (negative : Bool) {q : ℚ} (h : 0 ≤ q)
    (small : roundedMagnitude q < 2 ^ (1024 : ℤ)) :
    ∃ x : Finite, ofMagnitude negative q = .finite x ∧ x.negative = negative ∧
      x.magnitude = roundedMagnitude q := by
  rcases h.eq_or_lt with rfl | pos
  · exact ⟨.zero negative, by simp [ofMagnitude], rfl,
      by simp [roundedMagnitude_zero, Finite.magnitude, Finite.zero]⟩
  have low := unitExponent_ge q
  obtain ⟨nonneg, le, normal⟩ := nearestEven_unit_bounds pos
  simp only [ofMagnitude, if_neg (not_le.2 pos), pack]
  simp only [roundedMagnitude] at small ⊢
  generalize nearestEven (q / 2 ^ unitExponent q) = n at *
  generalize unitExponent q = e at *
  obtain ⟨m, rfl⟩ := Int.eq_ofNat_of_zero_le nonneg
  simp only [Int.toNat_natCast, Int.cast_natCast] at small ⊢
  by_cases carry : m = 9007199254740992
  · have high : e < 971 := by
      by_contra above
      have : (2 : ℚ) ^ (1024 : ℤ) ≤ 2 ^ (e + 53) := two_zpow_le (by omega)
      rw [add_comm, two_zpow_add, show (2 : ℚ) ^ (53 : ℤ) = 9007199254740992 by norm_num] at this
      rw [carry, Nat.cast_ofNat] at small
      exact this.not_gt small
    have canonical : Canonical 4503599627370496 (e + 1) :=
      ⟨by norm_num, by omega, by omega, .inl le_rfl⟩
    refine ⟨⟨negative, 4503599627370496, e + 1, canonical⟩, ?_, rfl, ?_⟩
    · rw [if_pos carry, dif_pos canonical]
    · simp only [Finite.magnitude, carry, two_zpow_add]
      norm_num
      ring
  · have high : e ≤ 971 := by
      by_contra above
      have full : (2 : ℚ) ^ (52 : ℤ) ≤ m := by
        have : 4503599627370496 ≤ m := by omega
        exact_mod_cast this
      have : (2 : ℚ) ^ (1024 : ℤ) ≤ 2 ^ (52 + e) := two_zpow_le (by omega)
      rw [two_zpow_add] at this
      exact (this.trans (mul_le_mul_of_nonneg_right full (two_zpow_pos e).le)).not_gt small
    have canonical : Canonical m e := ⟨by omega, low, high, by omega⟩
    exact ⟨⟨negative, m, e, canonical⟩, by rw [if_neg carry, dif_pos canonical], rfl, rfl⟩

/-- The value of the double nearest to a rational, with no upper end to exponents. -/
def rounded (q : ℚ) : ℚ := if q < 0 then -roundedMagnitude (-q) else roundedMagnitude q

theorem rounded_of_nonneg {q : ℚ} (h : 0 ≤ q) : rounded q = roundedMagnitude q :=
  if_neg (not_lt.2 h)

@[simp] theorem rounded_zero : rounded 0 = 0 := by
  rw [rounded_of_nonneg le_rfl, roundedMagnitude_zero]

@[simp] theorem rounded_neg (q : ℚ) : rounded (-q) = -rounded q := by
  rcases lt_trichotomy 0 q with h | rfl | h
  · rw [rounded, if_pos (by linarith), neg_neg, rounded_of_nonneg h.le]
  · simp
  · rw [rounded_of_nonneg (by linarith), rounded, if_pos h, neg_neg]

theorem rounded_nonneg {q : ℚ} (h : 0 ≤ q) : 0 ≤ rounded q := by
  rw [rounded_of_nonneg h]
  exact roundedMagnitude_nonneg h

theorem rounded_mono {p q : ℚ} (h : p ≤ q) : rounded p ≤ rounded q := by
  rcases le_or_gt 0 p with hp | hp
  · rw [rounded_of_nonneg hp, rounded_of_nonneg (hp.trans h)]
    exact roundedMagnitude_mono hp h
  rcases le_or_gt 0 q with hq | hq
  · have := rounded_nonneg (neg_nonneg.2 hp.le)
    rw [rounded_neg] at this
    linarith [rounded_nonneg hq]
  · have := roundedMagnitude_mono (neg_nonneg.2 hq.le) (neg_le_neg h)
    rw [rounded, if_pos hp, rounded, if_pos hq]
    linarith

theorem rounded_of_holds {q : ℚ} (held : Holds q) : rounded q = q := by
  rcases held.nonneg.eq_or_lt with rfl | pos
  · exact rounded_zero
  · rw [rounded_of_nonneg held.nonneg, roundedMagnitude_of_holds held pos]

theorem holds_rounded {q : ℚ} (h : 0 ≤ q) : Holds (rounded q) := by
  rcases h.eq_or_lt with rfl | pos
  · rw [rounded_zero]
    exact holds_zero
  · rw [rounded_of_nonneg h]
    exact holds_roundedMagnitude pos

theorem rounded_intCast {n : ℤ} (h : n.natAbs ≤ 9007199254740992) : rounded n = n := by
  rcases le_or_gt 0 n with nonneg | neg
  · lift n to ℕ using nonneg
    exact_mod_cast rounded_of_holds (holds_natCast (by simpa using h))
  · have held := rounded_of_holds (holds_natCast h)
    rw [Nat.cast_natAbs, abs_of_neg neg, Int.cast_neg, rounded_neg, neg_inj] at held
    exact held

theorem abs_rounded_sub_le {q : ℚ} {k : ℤ} (low : -1021 ≤ k) (le : |q| ≤ 2 ^ k) :
    |rounded q - q| ≤ 2 ^ (k - 54) := by
  rcases le_or_gt 0 q with h | h
  · rw [rounded_of_nonneg h]
    exact abs_roundedMagnitude_sub_le h low ((le_abs_self q).trans le)
  · have := abs_roundedMagnitude_sub_le (neg_nonneg.2 h.le) low (by rwa [← abs_of_neg h])
    rw [rounded, if_pos h, abs_sub_comm]
    rwa [show q - -roundedMagnitude (-q) = roundedMagnitude (-q) - -q by ring]

theorem abs_rounded_le {q : ℚ} {k : ℤ} (low : -1074 ≤ k) (le : |q| ≤ 2 ^ k) :
    |rounded q| ≤ 2 ^ k := by
  have fixed := rounded_of_holds (holds_two_zpow low)
  rw [abs_le] at le ⊢
  constructor
  · rw [← fixed, ← rounded_neg]
    exact rounded_mono le.1
  · rw [← fixed]
    exact rounded_mono le.2

/-- Below the overflow rounding gives a finite double. -/
theorem ofRat_finite (negativeZero : Bool) {q : ℚ} (small : |rounded q| < 2 ^ (1024 : ℤ)) :
    ∃ x : Finite, ofRat negativeZero q = .finite x ∧ x.value = rounded q := by
  rw [ofRat]
  split_ifs with zero neg
  · exact ⟨.zero negativeZero, rfl, by simp [zero, Finite.value, Finite.magnitude, Finite.zero]⟩
  · have value : rounded q = -roundedMagnitude (-q) := if_pos neg
    have nonneg := roundedMagnitude_nonneg (neg_nonneg.2 neg.le)
    rw [value, abs_neg, abs_of_nonneg nonneg] at small
    obtain ⟨x, hx, sign, magnitude⟩ := ofMagnitude_finite true (neg_nonneg.2 neg.le) small
    exact ⟨x, hx, by rw [value, Finite.value, sign, magnitude, if_pos rfl]⟩
  · have value := rounded_of_nonneg (not_lt.1 neg)
    rw [value, abs_of_nonneg (roundedMagnitude_nonneg (not_lt.1 neg))] at small
    obtain ⟨x, hx, sign, magnitude⟩ := ofMagnitude_finite false (not_lt.1 neg) small
    exact ⟨x, hx, by rw [value, Finite.value, sign, magnitude, if_neg (by simp)]⟩

end CellDisplay.Binary64
