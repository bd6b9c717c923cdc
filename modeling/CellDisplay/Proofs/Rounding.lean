import CellDisplay.Rounding
import Mathlib.Data.Rat.Floor
import Mathlib.Tactic.Linarith
import Mathlib.Tactic.Ring

/-! The laws of the two roundings to whole numbers. Both are within a half of the rational and
exact on whole numbers, and both keep the order. They differ only at a half above an even number,
which `nearestEven` leaves and `nearestAway` moves up. A rounding away from zero is told by the
halves below it: two rationals round to the same number iff no half lies between them. -/
namespace CellDisplay.Rounding

theorem floor_le (q : ℚ) : (q.floor : ℚ) ≤ q := Int.floor_le q

theorem lt_floor_add_one (q : ℚ) : q < q.floor + 1 := Int.lt_floor_add_one q

theorem floor_eq {n : ℤ} {q : ℚ} (low : (n : ℚ) ≤ q) (high : q < n + 1) : q.floor = n :=
  Int.floor_eq_iff.2 ⟨low, high⟩

/-! ### To the even neighbour -/

@[simp] theorem nearestEven_intCast (n : ℤ) : nearestEven n = n := by
  simp [nearestEven, Rat.floor_intCast]

@[simp] theorem nearestEven_zero : nearestEven 0 = 0 := nearestEven_intCast 0

/-- The nearest whole number is the floor or the next one. -/
theorem nearestEven_eq_floor_or (q : ℚ) :
    nearestEven q = q.floor ∧ q - q.floor ≤ 1 / 2 ∨
      nearestEven q = q.floor + 1 ∧ 1 / 2 ≤ q - q.floor := by
  simp only [nearestEven]
  split_ifs with low high even
  · exact .inl ⟨rfl, low.le⟩
  · exact .inr ⟨rfl, high.le⟩
  · exact .inl ⟨rfl, not_lt.1 high⟩
  · exact .inr ⟨rfl, not_lt.1 low⟩

theorem abs_nearestEven_sub_le (q : ℚ) : |(nearestEven q : ℚ) - q| ≤ 1 / 2 := by
  have below := floor_le q
  have above := lt_floor_add_one q
  rw [abs_le]
  rcases nearestEven_eq_floor_or q with ⟨h, bound⟩ | ⟨h, bound⟩
  · rw [h]
    constructor <;> linarith
  · rw [h]
    push_cast
    constructor <;> linarith

theorem nearestEven_mono {p q : ℚ} (h : p ≤ q) : nearestEven p ≤ nearestEven q := by
  have floors : p.floor ≤ q.floor := Rat.floor_monotone h
  rcases nearestEven_eq_floor_or p with ⟨hp, bp⟩ | ⟨hp, bp⟩
  · rcases nearestEven_eq_floor_or q with ⟨hq, -⟩ | ⟨hq, -⟩ <;> omega
  · rcases nearestEven_eq_floor_or q with ⟨hq, bq⟩ | ⟨hq, -⟩
    · rcases floors.eq_or_lt with same | more
      · -- both lie exactly on the same half
        have tie : p = q := by
          rw [same] at bp
          linarith
        rw [tie]
      · omega
    · omega

theorem le_nearestEven {n : ℤ} {q : ℚ} (h : (n : ℚ) ≤ q) : n ≤ nearestEven q := by
  simpa using nearestEven_mono h

theorem nearestEven_le {n : ℤ} {q : ℚ} (h : q ≤ n) : nearestEven q ≤ n := by
  simpa using nearestEven_mono h

/-- An even number takes the half below it. -/
theorem nearestEven_lt_iff {n : ℤ} (even : n % 2 = 0) {q : ℚ} :
    nearestEven q < n ↔ q < n - 1 / 2 := by
  have half : nearestEven (n - 1 / 2) = n := by
    have floor : (n - 1 / 2 : ℚ).floor = n - 1 := by
      apply floor_eq <;> push_cast <;> linarith
    rw [nearestEven, floor]
    push_cast
    rw [if_neg (by linarith), if_neg (by linarith), if_neg (by omega), Int.sub_add_cancel]
  constructor
  · intro lt
    by_contra reached
    have := nearestEven_mono (not_lt.1 reached)
    omega
  · intro lt
    have near := (abs_le.1 (abs_nearestEven_sub_le q)).2
    have : (nearestEven q : ℚ) < n := by linarith
    exact_mod_cast this

/-! ### Away from zero -/

theorem nearestAway_of_nonneg {q : ℚ} (h : 0 ≤ q) : nearestAway q = (q + 1 / 2).floor :=
  if_pos h

@[simp] theorem nearestAway_zero : nearestAway 0 = 0 := by
  rw [nearestAway_of_nonneg le_rfl]
  apply floor_eq <;> norm_num

@[simp] theorem nearestAway_neg (q : ℚ) : nearestAway (-q) = -nearestAway q := by
  rcases lt_trichotomy 0 q with h | rfl | h
  · exact nearestAway_neg_of_pos h
  · rw [neg_zero, nearestAway_zero, neg_zero]
  · have := nearestAway_neg_of_pos (neg_pos.2 h)
    rw [neg_neg] at this
    rw [this, neg_neg]

/-- The rounded number is the greatest one that is no more than a half above. -/
theorem le_nearestAway_iff {n : ℤ} {q : ℚ} (h : 0 ≤ q) : n ≤ nearestAway q ↔ n - 1 / 2 ≤ q := by
  rw [nearestAway_of_nonneg h, Rat.le_floor_iff]
  constructor <;> intro <;> linarith

theorem nearestAway_mono {p q : ℚ} (hp : 0 ≤ p) (h : p ≤ q) : nearestAway p ≤ nearestAway q := by
  rw [le_nearestAway_iff (hp.trans h)]
  exact ((le_nearestAway_iff hp).1 le_rfl).trans h

theorem nearestAway_nonneg {q : ℚ} (h : 0 ≤ q) : 0 ≤ nearestAway q := by
  rw [le_nearestAway_iff h]
  push_cast
  linarith

theorem nearestAway_le {n : ℤ} {q : ℚ} (h : 0 ≤ q) (le : q ≤ n) : nearestAway q ≤ n := by
  by_contra above
  have := (le_nearestAway_iff h).1 (Int.add_one_le_iff.2 (not_le.1 above))
  push_cast at this
  linarith

theorem abs_nearestAway_sub_le {q : ℚ} (h : 0 ≤ q) : |(nearestAway q : ℚ) - q| ≤ 1 / 2 := by
  have low := floor_le (q + 1 / 2)
  have high := lt_floor_add_one (q + 1 / 2)
  rw [nearestAway_of_nonneg h, abs_le]
  constructor <;> linarith

/-- A number closer than a half is the rounded one. -/
theorem nearestAway_eq {n : ℕ} {q : ℚ} (h : |q - n| < 1 / 2) : nearestAway q = n := by
  rw [abs_lt] at h
  by_cases sign : 0 ≤ q
  · rw [nearestAway_of_nonneg sign]
    apply floor_eq <;> push_cast <;> linarith
  · -- only zero has negative neighbours
    obtain rfl : n = 0 := by
      by_contra pos
      have : (1 : ℚ) ≤ n := by exact_mod_cast Nat.one_le_iff_ne_zero.2 pos
      linarith
    have : nearestAway (-q) = 0 := by
      rw [nearestAway_of_nonneg (by linarith)]
      push_cast at h
      apply floor_eq <;> push_cast <;> linarith
    rw [nearestAway_neg] at this
    simpa using this

/-- A half above a number already goes up from it. -/
theorem nearestAway_eq_ite {n : ℤ} {q : ℚ} (nonneg : 0 ≤ q) (low : n - 1 / 2 ≤ q)
    (high : q < n + 3 / 2) : nearestAway q = if n + 1 / 2 ≤ q then n + 1 else n := by
  rw [nearestAway_of_nonneg nonneg]
  split_ifs <;> apply floor_eq <;> push_cast <;> linarith

/-- Two rationals round to the same number iff they lie on the same side of every half. -/
theorem nearestAway_eq_iff {p q : ℚ} (hp : 0 ≤ p) (hq : 0 ≤ q) :
    nearestAway p = nearestAway q ↔ ∀ k : ℕ, (k : ℚ) + 1 / 2 ≤ p ↔ (k : ℚ) + 1 / 2 ≤ q := by
  have side (r : ℚ) (hr : 0 ≤ r) (k : ℕ) :
      (k : ℚ) + 1 / 2 ≤ r ↔ ((k + 1 : ℕ) : ℤ) ≤ nearestAway r := by
    rw [le_nearestAway_iff hr]
    push_cast
    constructor <;> intro h <;> linarith
  constructor
  · intro h k
    rw [side p hp, side q hq, h]
  · intro h
    have same (k : ℕ) := (side p hp k).symm.trans ((h k).trans (side q hq k))
    have zero := nearestAway_nonneg hp
    have zero' := nearestAway_nonneg hq
    apply le_antisymm
    · by_contra less
      have := (same (nearestAway q).toNat).1 (by omega)
      omega
    · by_contra less
      have := (same (nearestAway p).toNat).2 (by omega)
      omega

/-! ### Where they differ -/

/-- A half above an even number. -/
def IsEvenTie (q : ℚ) : Prop := ∃ k : ℕ, q = 2 * k + 1 / 2

/-- The two roundings agree but for the halves above even numbers. -/
theorem nearestEven_eq_nearestAway_iff {q : ℚ} (h : 0 ≤ q) :
    nearestEven q = nearestAway q ↔ ¬ IsEvenTie q := by
  have below := floor_le q
  have above := lt_floor_add_one q
  have low : 0 ≤ q.floor := Rat.le_floor_iff.2 (by exact_mod_cast h)
  have away : nearestAway q = if q - q.floor < 1 / 2 then q.floor else q.floor + 1 := by
    rw [nearestAway_of_nonneg h]
    split_ifs <;> apply floor_eq <;> push_cast <;> linarith
  have tie : IsEvenTie q ↔ q - q.floor = 1 / 2 ∧ q.floor % 2 = 0 := by
    constructor
    · rintro ⟨k, rfl⟩
      have : (2 * k + 1 / 2 : ℚ).floor = 2 * k := by
        apply floor_eq <;> push_cast <;> linarith
      rw [this]
      exact ⟨by push_cast; ring, by omega⟩
    · rintro ⟨half, even⟩
      refine ⟨(q.floor / 2).toNat, ?_⟩
      have whole : (((q.floor / 2).toNat : ℤ) : ℚ) * 2 = q.floor := by
        have : ((q.floor / 2).toNat : ℤ) * 2 = q.floor := by omega
        exact_mod_cast this
      push_cast at whole
      linarith
  rw [tie, away, nearestEven]
  split_ifs with near far even
  · simp only [near.ne, false_and, not_false_iff]
  · simp only [far.ne', false_and, not_false_iff]
  · have half : q - q.floor = 1 / 2 := le_antisymm (not_lt.1 far) (not_lt.1 near)
    simp [half, even]
  · simp [even]

end CellDisplay.Rounding
