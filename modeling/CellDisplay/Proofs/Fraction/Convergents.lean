import CellDisplay.Fraction.Approximation
import Mathlib.Algebra.Order.Field.Basic
import Mathlib.Data.Rat.Cast.Order
import Mathlib.Order.Interval.Set.UnorderedInterval
import Mathlib.Tactic.FieldSimp
import Mathlib.Tactic.LinearCombination
import Mathlib.Tactic.Linarith
import Mathlib.Tactic.Positivity
import Mathlib.Tactic.Ring

/-! Successive fractions of a continued fraction. Two of them are neighbours: their cross products
differ by one, so they are in lowest terms, and a fraction strictly between them has at least the
sum of their denominators. Moving on keeps this whatever the partial quotients are, and the blend
with a limit is the last neighbour within it. -/
namespace CellDisplay

namespace Ratio

/-- The number that is named; a denominator of zero names zero. -/
def value (r : Ratio) : ℚ := r.numerator / r.denominator

/-- Different fractions differ by a unit of the product of their denominators at least. -/
theorem one_div_le_abs_sub {r : Ratio} (hr : 0 < r.denominator) {a b : ℕ} (hb : 0 < b)
    (ne : (a / b : ℚ) ≠ r.value) : 1 / (r.denominator * b : ℚ) ≤ |r.value - a / b| := by
  have hr' : (0 : ℚ) < r.denominator := by exact_mod_cast hr
  have hb' : (0 : ℚ) < b := by exact_mod_cast hb
  have cross : (1 : ℚ) ≤ |(r.numerator * b - r.denominator * a : ℚ)| := by
    have : (r.numerator * b - r.denominator * a : ℤ) ≠ 0 := by
      intro zero
      apply ne
      rw [value, div_eq_div_iff hb'.ne' hr'.ne', mul_comm]
      exact_mod_cast (sub_eq_zero.1 zero).symm
    exact_mod_cast Int.one_le_abs this
  rw [value, div_sub_div _ _ hr'.ne' hb'.ne', abs_div, abs_of_pos (mul_pos hr' hb')]
  gcongr

/-- Fractions in lowest terms are told by their numbers. -/
theorem eq_of_value_eq {r s : Ratio} (hr : r.numerator.Coprime r.denominator)
    (hs : s.numerator.Coprime s.denominator) (pos : 0 < r.denominator) (pos' : 0 < s.denominator)
    (same : r.value = s.value) : r = s := by
  have hr' : (0 : ℚ) < r.denominator := by exact_mod_cast pos
  have hs' : (0 : ℚ) < s.denominator := by exact_mod_cast pos'
  rw [value, value, div_eq_div_iff hr'.ne' hs'.ne'] at same
  have same : r.numerator * s.denominator = s.numerator * r.denominator := by exact_mod_cast same
  have denominators : r.denominator = s.denominator :=
    Nat.dvd_antisymm (hr.symm.dvd_of_dvd_mul_left (Dvd.intro_left _ same.symm))
      (hs.symm.dvd_of_dvd_mul_left (Dvd.intro_left _ same))
  rw [denominators] at same
  have numerators := Nat.eq_of_mul_eq_mul_right pos' same
  cases r
  cases s
  simp only at numerators denominators
  rw [numerators, denominators]

/-- Cross products that differ by one. -/
def Adjacent (r s : Ratio) : Prop :=
  r.numerator * s.denominator + 1 = s.numerator * r.denominator ∨
    s.numerator * r.denominator + 1 = r.numerator * s.denominator

namespace Adjacent

variable {r s : Ratio}

theorem symm (h : r.Adjacent s) : s.Adjacent r := Or.symm h

theorem coprime (h : r.Adjacent s) : r.numerator.Coprime r.denominator := by
  have common : r.numerator.gcd r.denominator ∣ 1 := by
    have left : r.numerator.gcd r.denominator ∣ r.numerator * s.denominator :=
      (Nat.gcd_dvd_left _ _).mul_right _
    have right : r.numerator.gcd r.denominator ∣ s.numerator * r.denominator :=
      (Nat.gcd_dvd_right _ _).mul_left _
    rcases h with h | h
    · exact (Nat.dvd_add_right left).1 (h ▸ right)
    · exact (Nat.dvd_add_right right).1 (h ▸ left)
  exact Nat.dvd_one.1 common

theorem abs_cross (h : r.Adjacent s) :
    |(r.numerator * s.denominator - s.numerator * r.denominator : ℚ)| = 1 := by
  rcases h with h | h
  · have h : (r.numerator * s.denominator + 1 : ℚ) = s.numerator * r.denominator := by
      exact_mod_cast h
    rw [← h, sub_add_cancel_left, abs_neg, abs_one]
  · have h : (s.numerator * r.denominator + 1 : ℚ) = r.numerator * s.denominator := by
      exact_mod_cast h
    rw [← h, add_sub_cancel_left, abs_one]

/-- A fraction strictly between neighbours has at least the sum of their denominators. -/
theorem le_of_between (h : r.Adjacent s) (hr : 0 < r.denominator) (hs : 0 < s.denominator)
    {a b : ℕ} (hb : 0 < b) (low : r.value < a / b) (high : (a / b : ℚ) < s.value) :
    r.denominator + s.denominator ≤ b := by
  have hr' : (0 : ℚ) < r.denominator := by exact_mod_cast hr
  have hs' : (0 : ℚ) < s.denominator := by exact_mod_cast hs
  have hb' : (0 : ℚ) < b := by exact_mod_cast hb
  have above : r.numerator * b + 1 ≤ a * r.denominator := by
    rw [value, div_lt_div_iff₀ hr' hb'] at low
    exact_mod_cast low
  have below : a * s.denominator + 1 ≤ s.numerator * b := by
    rw [value, div_lt_div_iff₀ hb' hs'] at high
    exact_mod_cast high
  have order : r.numerator * s.denominator + 1 = s.numerator * r.denominator := by
    have less : r.value < s.value := low.trans high
    rw [value, value, div_lt_div_iff₀ hr' hs'] at less
    have less : r.numerator * s.denominator < s.numerator * r.denominator := by exact_mod_cast less
    unfold Adjacent at h
    omega
  -- `b` times the cross product of the neighbours splits into both cross products with `a / b`
  have split : (b : ℤ) = r.denominator * (s.numerator * b - a * s.denominator) +
      s.denominator * (a * r.denominator - r.numerator * b) := by
    have order : (r.numerator * s.denominator + 1 : ℤ) = s.numerator * r.denominator := by
      exact_mod_cast order
    linear_combination (b : ℤ) * order
  have above : (1 : ℤ) ≤ a * r.denominator - r.numerator * b := by
    have : (r.numerator * b + 1 : ℤ) ≤ a * r.denominator := by exact_mod_cast above
    linarith
  have below : (1 : ℤ) ≤ s.numerator * b - a * s.denominator := by
    have : (a * s.denominator + 1 : ℤ) ≤ s.numerator * b := by exact_mod_cast below
    linarith
  have : (r.denominator + s.denominator : ℤ) ≤ b := by
    rw [split]
    gcongr
    · exact le_mul_of_one_le_right (by positivity) below
    · exact le_mul_of_one_le_right (by positivity) above
  exact_mod_cast this

end Adjacent

end Ratio

namespace Fraction.Convergents

def previous (c : Convergents) : Ratio := ⟨c.p₀, c.q₀⟩

/-- A pair of neighbours within a limit that came from a number between zero and one. Only the
first member of the first pair, one over zero, is above one. -/
structure Within (limit : ℕ) (c : Convergents) : Prop where
  adjacent : c.previous.Adjacent c.last
  pos : 0 < c.q₁
  le : c.q₁ ≤ limit
  previous_le : c.q₀ ≤ limit
  proper : c.p₁ ≤ c.q₁
  sum_proper : c.p₀ + c.p₁ ≤ c.q₀ + c.q₁
  previous_proper : 0 < c.q₀ → c.p₀ ≤ c.q₀

theorem adjacent_next {c : Convergents} (h : c.previous.Adjacent c.last) (a : ℕ) :
    (c.next a).previous.Adjacent (c.next a).last := by
  unfold Ratio.Adjacent at *
  simp only [previous, last, next] at *
  rcases h with h | h
  · right
    linear_combination h
  · left
    linear_combination h

namespace Within

variable {limit : ℕ} {c : Convergents} (h : c.Within limit)
include h

/-- Partial quotients from one on keep both members within their bounds. -/
theorem next {a : ℕ} (grows : c.q₀ < (c.next a).q₁) (le : (c.next a).q₁ ≤ limit) :
    (c.next a).Within limit := by
  have one : 1 ≤ a := by
    by_contra zero
    obtain rfl : a = 0 := by omega
    simp [Convergents.next] at grows
  obtain ⟨n, rfl⟩ : ∃ n, a = n + 1 := ⟨a - 1, by omega⟩
  have proper : c.p₀ + (n + 1) * c.p₁ ≤ c.q₀ + (n + 1) * c.q₁ := by
    have := h.sum_proper
    have := Nat.mul_le_mul_left n h.proper
    rw [Nat.succ_mul, Nat.succ_mul]
    omega
  refine ⟨adjacent_next h.adjacent _, (Nat.zero_le _).trans_lt grows, le, h.le, proper, ?_,
    fun _ => h.proper⟩
  exact Nat.add_le_add h.proper proper

theorem blend_le : (c.blend limit).denominator ≤ limit := by
  have := Nat.div_mul_le_self (limit - c.q₀) c.q₁
  have := h.previous_le
  simp only [blend]
  omega

/-- One more time the second member would pass the limit. -/
theorem lt_add_blend : limit < c.q₁ + (c.blend limit).denominator := by
  have := Nat.lt_div_mul_add (a := limit - c.q₀) h.pos
  have := h.previous_le
  simp only [blend]
  omega

theorem blend_pos : 0 < (c.blend limit).denominator := by
  have := h.lt_add_blend
  have := h.le
  omega

theorem blend_proper : (c.blend limit).numerator ≤ (c.blend limit).denominator := by
  simp only [blend]
  generalize hk : (limit - c.q₀) / c.q₁ = k
  cases k with
  | zero =>
    have := h.blend_pos
    simp only [blend, hk, Nat.zero_mul, Nat.add_zero] at this ⊢
    exact h.previous_proper this
  | succ n =>
    have := h.sum_proper
    have := Nat.mul_le_mul_left n h.proper
    rw [Nat.succ_mul, Nat.succ_mul]
    omega

theorem adjacent_blend : c.last.Adjacent (c.blend limit) := adjacent_next h.adjacent _

end Within

/-! ### The number that goes on with a rest -/

section

variable (c : Convergents) (t : ℚ)

/-- The denominator of the second member taken `t` times and the first. -/
def scale : ℚ := c.q₁ * t + c.q₀

/-- The number whose continued fraction goes on with `t`. -/
def value : ℚ := (c.p₁ * t + c.p₀) / c.scale t

variable {c t}

/-- A rest is its whole part and the reciprocal of the next rest. -/
theorem scale_eq_next {a : ℕ} {s : ℚ} (hs : 0 < s) (ht : t = a + 1 / s) :
    c.scale t = (c.next a).scale s / s := by
  rw [scale, scale, Convergents.next, ht]
  push_cast
  field_simp
  ring

theorem value_eq_next {a : ℕ} {s : ℚ} (hs : 0 < s) (ht : t = a + 1 / s) :
    c.value t = (c.next a).value s := by
  have numerator : c.p₁ * t + c.p₀ = ((c.next a).p₁ * s + (c.next a).p₀) / s := by
    rw [Convergents.next, ht]
    push_cast
    field_simp
    ring
  rw [value, numerator, scale_eq_next hs ht, div_div_div_cancel_right₀ hs.ne', value]

theorem value_of_whole {a : ℕ} : c.value a = (c.next a).last.value := by
  simp only [value, scale, Ratio.value, last, Convergents.next]
  push_cast
  ring_nf

/-- Two rests apart are two numbers apart. -/
theorem abs_value_sub_value (adjacent : c.previous.Adjacent c.last) {s : ℚ} (hs : 0 < c.scale s)
    (ht : 0 < c.scale t) : |c.value s - c.value t| = |s - t| / (c.scale s * c.scale t) := by
  have cross : (c.p₁ * s + c.p₀) * c.scale t - c.scale s * (c.p₁ * t + c.p₀) =
      (t - s) * (c.previous.numerator * c.last.denominator -
        c.last.numerator * c.previous.denominator) := by
    rw [scale, scale, previous, last]
    ring
  rw [value, value, div_sub_div _ _ hs.ne' ht.ne', cross, abs_div, abs_mul, adjacent.abs_cross,
    mul_one, abs_of_pos (mul_pos hs ht), abs_sub_comm]

/-- What a rest adds to the last fraction. -/
theorem abs_value_sub_last (adjacent : c.previous.Adjacent c.last) (pos : 0 < c.q₁)
    (ht : 0 < c.scale t) : |c.value t - c.last.value| = 1 / (c.q₁ * c.scale t) := by
  have hq : (0 : ℚ) < c.last.denominator := by exact_mod_cast pos
  have cross : (c.p₁ * t + c.p₀) * c.last.denominator - c.scale t * c.last.numerator =
      c.previous.numerator * c.last.denominator - c.last.numerator * c.previous.denominator := by
    rw [scale, previous, last]
    ring
  rw [value, Ratio.value, div_sub_div _ _ ht.ne' hq.ne', cross, abs_div, adjacent.abs_cross,
    abs_of_pos (mul_pos ht hq), mul_comm, last]

/-- A rest above the count of a blend gives a number between the last fraction and the blend. -/
theorem value_mem_uIcc {k : ℕ} (pos : 0 < c.q₁) (blended : 0 < (c.next k).q₁) (ht : (k : ℚ) ≤ t) :
    c.value t ∈ Set.uIcc c.last.value (c.next k).last.value := by
  have hq : (0 : ℚ) < c.q₁ := by exact_mod_cast pos
  have hQ : (0 : ℚ) < (c.next k).q₁ := by exact_mod_cast blended
  -- the number is a weighted mean of both
  set w := t - k
  have hw : 0 ≤ w := sub_nonneg.2 ht
  have scale_eq : c.scale t = w * c.q₁ + (c.next k).q₁ := by
    simp only [scale, Convergents.next, w]
    push_cast
    ring
  have value_eq : c.value t = (w * c.p₁ + (c.next k).p₁) / (w * c.q₁ + (c.next k).q₁) := by
    rw [value, scale_eq]
    simp only [Convergents.next, w]
    push_cast
    ring
  rw [value_eq, Set.mem_uIcc]
  simp only [last, Ratio.value]
  rcases le_total (c.p₁ / c.q₁ : ℚ) ((c.next k).p₁ / (c.next k).q₁) with order | order
  · left
    rw [div_le_div_iff₀ hq hQ] at order
    rw [div_le_div_iff₀ hq (by positivity), div_le_div_iff₀ (by positivity) hQ]
    constructor
    · linarith
    · linear_combination w * order
  · right
    rw [div_le_div_iff₀ hQ hq] at order
    rw [div_le_div_iff₀ hQ (by positivity), div_le_div_iff₀ (by positivity) hq]
    constructor
    · linear_combination w * order
    · linarith

end

theorem within_first {limit : ℕ} (h : 1 ≤ limit) : (⟨1, 0, 0, 1⟩ : Convergents).Within limit :=
  ⟨.inr rfl, by norm_num, h, Nat.zero_le _, by norm_num, by norm_num, by norm_num⟩

end Fraction.Convergents

end CellDisplay
