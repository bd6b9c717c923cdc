import CellDisplay.Binary64.Arithmetic
import CellDisplay.Proofs.Binary64.Nearest

/-! Operations on doubles read as operations on rationals: as long as results stay below the
overflow, the value of each is the exact result rounded once. -/
namespace CellDisplay.Binary64

open Rounding

theorem Finite.isZero_eq_false (x : Finite) (ne : x.value ≠ 0) : x.isZero = false := by
  rw [isZero, decide_eq_false_iff_not]
  intro zero
  apply ne
  simp [value, magnitude, zero]

/-- A finite double of a given value. -/
def HasValue (x : Binary64) (q : ℚ) : Prop := ∃ f : Finite, x = .finite f ∧ f.value = q

theorem hasValue_finite (x : Finite) : (finite x).HasValue x.value := ⟨x, rfl, rfl⟩

theorem hasValue_ofRat (negativeZero : Bool) {q : ℚ} (small : |q| ≤ 2 ^ (1023 : ℤ)) :
    (ofRat negativeZero q).HasValue (rounded q) :=
  ofRat_finite negativeZero
    ((abs_rounded_le (by norm_num) small).trans_lt (two_zpow_lt_iff.2 (by norm_num)))

theorem small_of_le {q : ℚ} {k : ℤ} (le : |q| ≤ 2 ^ k) (high : k ≤ 1023) : |q| ≤ 2 ^ (1023 : ℤ) :=
  le.trans (two_zpow_le high)

theorem small_intCast {n : ℤ} (h : n.natAbs ≤ 9007199254740992) : |(n : ℚ)| ≤ 2 ^ (1023 : ℤ) := by
  refine le_trans ?_ (two_zpow_le (show (53 : ℤ) ≤ 1023 by norm_num))
  rw [← Int.cast_abs, Int.abs_eq_natAbs]
  exact_mod_cast h

/-- Integers of 53 bits are doubles. -/
theorem hasValue_ofRat_intCast (negativeZero : Bool) {n : ℤ} (h : n.natAbs ≤ 9007199254740992) :
    (ofRat negativeZero n).HasValue n := by
  have := hasValue_ofRat negativeZero (small_intCast h)
  rwa [rounded_intCast h] at this

theorem hasValue_ofInt {n : ℤ} (h : n.natAbs ≤ 9007199254740992) : (ofInt n).HasValue n :=
  hasValue_ofRat_intCast false h

namespace HasValue

variable {x y : Binary64} {p q : ℚ}

theorem neg (h : x.HasValue p) : (-x).HasValue (-p) := by
  obtain ⟨f, rfl, rfl⟩ := h
  exact ⟨f.neg, rfl, f.value_neg⟩

theorem add (hx : x.HasValue p) (hy : y.HasValue q) (small : |p + q| ≤ 2 ^ (1023 : ℤ)) :
    (x + y).HasValue (rounded (p + q)) := by
  obtain ⟨f, rfl, rfl⟩ := hx
  obtain ⟨g, rfl, rfl⟩ := hy
  exact hasValue_ofRat _ small

theorem sub (hx : x.HasValue p) (hy : y.HasValue q) (small : |p - q| ≤ 2 ^ (1023 : ℤ)) :
    (x - y).HasValue (rounded (p - q)) := by
  rw [sub_eq_add_neg] at small ⊢
  exact hx.add hy.neg small

theorem mul (hx : x.HasValue p) (hy : y.HasValue q) (small : |p * q| ≤ 2 ^ (1023 : ℤ)) :
    (x * y).HasValue (rounded (p * q)) := by
  obtain ⟨f, rfl, rfl⟩ := hx
  obtain ⟨g, rfl, rfl⟩ := hy
  exact hasValue_ofRat _ small

theorem div (hx : x.HasValue p) (hy : y.HasValue q) (ne : q ≠ 0)
    (small : |p / q| ≤ 2 ^ (1023 : ℤ)) :
    (x / y).HasValue (rounded (p / q)) := by
  obtain ⟨f, rfl, rfl⟩ := hx
  obtain ⟨g, rfl, rfl⟩ := hy
  have nonzero := g.isZero_eq_false ne
  have := hasValue_ofRat (f.negative != g.negative) small
  show (Binary64.div (finite f) (finite g)).HasValue _
  simpa only [Binary64.div, nonzero, Bool.false_eq_true, if_false] using this

theorem toInt (h : x.HasValue p) : x.toInt = p.floor := by
  obtain ⟨f, rfl, rfl⟩ := h
  rfl

theorem floor (h : x.HasValue p) (small : p.floor.natAbs ≤ 9007199254740992) :
    x.floor.HasValue p.floor := by
  obtain ⟨f, rfl, rfl⟩ := h
  exact hasValue_ofRat_intCast _ small

theorem round (h : x.HasValue p) (small : (nearestAway p).natAbs ≤ 9007199254740992) :
    x.round.HasValue (nearestAway p) := by
  obtain ⟨f, rfl, rfl⟩ := h
  exact hasValue_ofRat_intCast _ small

/-- The distance above the floor, rounded once more. -/
theorem fract (h : x.HasValue p) (small : p.floor.natAbs ≤ 9007199254740992) :
    x.fract.HasValue (rounded (p - p.floor)) := by
  apply h.sub (h.floor small)
  have low := floor_le p
  have high := lt_floor_add_one p
  have one : (1 : ℚ) ≤ 2 ^ (1023 : ℤ) := by simpa using two_zpow_le (show (0 : ℤ) ≤ 1023 by norm_num)
  rw [abs_of_nonneg (by linarith)]
  exact le_trans (by linarith) one

end HasValue

end CellDisplay.Binary64
