import CellDisplay.Proofs.Binary64.RelativeError
import CellDisplay.Proofs.Fraction.Convergents

/-! The continued fraction of a double, followed in doubles. Every reciprocal is rounded, so the walk
follows the continued fraction of a number that moves a little at each step. The moves shrink with
the square of the scale, and their sum stays below half a unit of a number from one half to one
(`best_ends`): the walk ends as the exact continued fraction of a number so close to the given one
does. -/
namespace CellDisplay.Fraction

open Binary64 Rounding

/-! ### Negligible remainders -/

theorem negligible_iff {x : Binary64} {p : ℚ} (hx : x.HasValue p) :
    negligible x ↔ p < rounded (1 / 1000000000) := by
  have small : |(1 / 1000000000 : ℚ)| ≤ 2 ^ (0 : ℤ) := by rw [abs_of_pos] <;> norm_num
  exact hx.lt_iff (hasValue_ofRat false (small_of_le small (by norm_num)))

theorem lt_billionth_of_negligible {x : Binary64} {p : ℚ} (hx : x.HasValue p)
    (h : negligible x) : p < 1 / 1000000000 := by
  rw [negligible_iff hx] at h
  by_contra above
  have fixed : rounded p = p := rounded_of_holds (hx.holds_of_nonneg (by linarith))
  have := rounded_mono (not_lt.1 above)
  linarith

theorem negligible_of_le {x : Binary64} {p : ℚ} (hx : x.HasValue p) (h : p ≤ 2 ^ (-30 : ℤ)) :
    negligible x := by
  rw [negligible_iff hx]
  have held : Holds ((17 : ℕ) * 2 ^ (-34 : ℤ)) := holds_of_le (by norm_num) (by norm_num)
  calc p ≤ 2 ^ (-30 : ℤ) := h
    _ < (17 : ℕ) * 2 ^ (-34 : ℤ) := by norm_num
    _ = rounded ((17 : ℕ) * 2 ^ (-34 : ℤ)) := (rounded_of_holds held).symm
    _ ≤ rounded (1 / 1000000000) := rounded_mono (by norm_num)

theorem pos_of_not_negligible {x : Binary64} {p : ℚ} (hx : x.HasValue p) (h : ¬ negligible x) :
    0 < p := by
  by_contra le
  exact h (negligible_of_le hx ((not_lt.1 le).trans (two_zpow_pos _).le))

/-- The reciprocal of a remainder that is not negligible: a rest from one on, off by a 2 ^ 53rd of its
whole part at most. -/
theorem hasValue_reciprocal {x : Binary64} {r : ℚ} (hx : x.HasValue r) (h : ¬ negligible x)
    (le : r ≤ 1) :
    (ofInt 1 / x).HasValue (rounded (1 / r)) ∧ 1 ≤ rounded (1 / r) ∧
      rounded (1 / r) ≤ 1073741824 ∧
      |rounded (1 / r) - 1 / r| ≤ 2 ^ (-53 : ℤ) * (rounded (1 / r)).floor := by
  have pos := pos_of_not_negligible hx h
  have one : 1 ≤ 1 / r := (one_le_div pos).2 le
  have bound : 1 / r ≤ 2 ^ (30 : ℤ) := by
    have least : 2 ^ (-30 : ℤ) < r := by
      by_contra le
      exact h (negligible_of_le hx (not_lt.1 le))
    rw [div_le_iff₀ pos]
    norm_num at least ⊢
    linarith
  have bound' : |1 / r| ≤ 2 ^ (30 : ℤ) := by rwa [abs_of_nonneg (by linarith)]
  have top := (abs_le.1 (abs_rounded_le (by norm_num) bound')).2
  have hone : (ofInt 1).HasValue 1 := by simpa using hasValue_ofInt (n := 1) (by norm_num)
  exact ⟨hone.div hx pos.ne' (small_of_le bound' (by norm_num)), one_le_rounded one,
    top.trans_eq (by norm_num), abs_rounded_sub_le_floor one⟩

/-! ### One step -/

namespace Convergents

/-- What all roundings to come can move the number of a state by. -/
def drift (c : Convergents) (t : ℚ) : ℚ :=
  (1 + 2 ^ (-40 : ℤ)) * 2 ^ (-53 : ℤ) * (t - t.floor) / c.scale t ^ 2

theorem drift_nonneg (c : Convergents) (t : ℚ) : 0 ≤ c.drift t := by
  have := floor_le t
  unfold drift
  have : 0 ≤ t - t.floor := by linarith
  positivity

/-- One rounded rest `a + f` for a rest `s`: its move and what is left to drift, both over the rounded
scale, are paid by the drift over the exact scale. -/
theorem move_add_drift_le {s a f d d' : ℚ} (ha : 1 ≤ a) (hf : 0 ≤ f) (hf' : f ≤ 1)
    (near : |a + f - s| ≤ 2 ^ (-53 : ℤ) * a) (hd : 0 < d) (near' : |d' - d| ≤ 2 ^ (-52 : ℤ) * d) :
    |s - (a + f)| / (d * d') + (1 + 2 ^ (-40 : ℤ)) * 2 ^ (-53 : ℤ) * f / d' ^ 2 ≤
      (1 + 2 ^ (-40 : ℤ)) * 2 ^ (-53 : ℤ) * s / d ^ 2 := by
  obtain ⟨low, high⟩ := abs_le.1 near'
  have hd' : (1 - 2 ^ (-52 : ℤ)) * d ≤ d' := by linarith
  have pos : 0 < d' := lt_of_lt_of_le (mul_pos (by norm_num) hd) hd'
  have below := (abs_le.1 near).2
  have hs : 0 ≤ s := by
    norm_num at below
    linarith
  have move : |s - (a + f)| / (d * d') ≤
      2 ^ (-53 : ℤ) * a * (1 + 2 ^ (-52 : ℤ)) / d' ^ 2 := by
    rw [abs_sub_comm, div_le_div_iff₀ (by positivity) (by positivity)]
    calc |a + f - s| * d' ^ 2 ≤ 2 ^ (-53 : ℤ) * a * (d' * ((1 + 2 ^ (-52 : ℤ)) * d)) := by
          rw [sq]
          gcongr
          linarith
      _ = 2 ^ (-53 : ℤ) * a * (1 + 2 ^ (-52 : ℤ)) * (d * d') := by ring
  have paid : (1 + 2 ^ (-40 : ℤ)) * 2 ^ (-53 : ℤ) * s * (1 - 2 ^ (-52 : ℤ)) ^ 2 / d' ^ 2 ≤
      (1 + 2 ^ (-40 : ℤ)) * 2 ^ (-53 : ℤ) * s / d ^ 2 := by
    rw [div_le_div_iff₀ (by positivity) (by positivity), mul_assoc _ ((1 - _) ^ 2), ← mul_pow]
    gcongr
  refine le_trans ?_ paid
  refine (add_le_add_left move _).trans ?_
  rw [← add_div]
  gcongr
  norm_num at below ⊢
  linarith

/-- A step of the walk moves the number by no more than the drift falls. -/
theorem abs_value_sub_add_drift_le {c : Convergents} {a : ℕ} {r t : ℚ}
    (adjacent : c.previous.Adjacent c.last) (grown : 0 < (c.next a).q₁) (hr : 0 < r) (hr' : r < 1)
    (ht : 1 ≤ t) (near : |t - 1 / r| ≤ 2 ^ (-53 : ℤ) * t.floor) :
    |c.value (a + r) - (c.next a).value t| + (c.next a).drift t ≤ c.drift (a + r) := by
  set s := 1 / r
  have hs : 1 < s := one_lt_one_div hr hr'
  have hq : (0 : ℚ) < (c.next a).q₁ := by exact_mod_cast grown
  have hq₀ : (0 : ℚ) ≤ (c.next a).q₀ := Nat.cast_nonneg _
  have rest : (a + r : ℚ) = a + 1 / s := by rw [one_div_one_div]
  have floor : (a + r : ℚ).floor = (a : ℤ) := by
    apply floor_eq <;> push_cast <;> linarith
  have whole : (1 : ℚ) ≤ t.floor := by
    have : (1 : ℤ) ≤ t.floor := Rat.le_floor_iff.2 (by exact_mod_cast ht)
    exact_mod_cast this
  have low := floor_le t
  have high := lt_floor_add_one t
  have scale : 0 < (c.next a).scale s := by
    unfold Convergents.scale
    positivity
  have scale' : 0 < (c.next a).scale t := by
    unfold Convergents.scale
    positivity
  -- the scale moves by the same share as the rest
  have moved : |(c.next a).scale t - (c.next a).scale s| ≤
      2 ^ (-52 : ℤ) * (c.next a).scale s := by
    have shift : (c.next a).scale t - (c.next a).scale s = (c.next a).q₁ * (t - s) := by
      unfold Convergents.scale
      ring
    have share : |t - s| ≤ 2 ^ (-52 : ℤ) * s := by
      have below := (abs_le.1 near).2
      refine near.trans ?_
      norm_num at below ⊢
      linarith
    rw [shift, abs_mul, abs_of_pos hq]
    calc (c.next a).q₁ * |t - s| ≤ (c.next a).q₁ * (2 ^ (-52 : ℤ) * s) := by gcongr
      _ ≤ 2 ^ (-52 : ℤ) * (c.next a).scale s := by
        unfold Convergents.scale
        have : (0 : ℚ) ≤ 2 ^ (-52 : ℤ) * (c.next a).q₀ := by positivity
        linarith
  have start : c.drift (a + r) =
      (1 + 2 ^ (-40 : ℤ)) * 2 ^ (-53 : ℤ) * s / (c.next a).scale s ^ 2 := by
    have back : (a + r : ℚ) - a = 1 / s := by rw [rest, add_sub_cancel_left]
    rw [drift, floor, Int.cast_natCast, back, scale_eq_next (by linarith) rest]
    field_simp
  rw [start, value_eq_next (by linarith) rest,
    abs_value_sub_value (adjacent_next adjacent a) scale scale', drift]
  have step := move_add_drift_le (s := s) (f := t - t.floor) whole (by linarith) (by linarith)
    (by rwa [add_sub_cancel]) scale moved
  rwa [add_sub_cancel] at step

end Convergents

/-! ### The whole walk -/

/-- What a walk can end in when the number that it followed is `y`: the last fraction, so close that
the remainder was negligible, or the better one of two neighbours with `y` between them. -/
inductive Ends (x : Binary64) (limit : ℕ) (y : ℚ) : Ratio → Prop
  | close {r : Ratio} (pos : 0 < r.denominator) (le : r.denominator ≤ limit)
      (coprime : r.numerator.Coprime r.denominator)
      (near : |y - r.value| ≤ 1 / (1000000000 * r.denominator ^ 2)) : Ends x limit y r
  | closer {c : Convergents} (within : c.Within limit)
      (between : y ∈ Set.uIcc c.last.value (c.blend limit).value) :
      Ends x limit y (closer x limit c)

/-- A state with a remainder below a billionth is close to its last fraction. -/
theorem Convergents.Within.abs_value_sub_next_le {limit : ℕ} {c : Convergents} {a : ℕ} {r : ℚ}
    (next : (c.next a).Within limit) (hr : 0 ≤ r) (small : r < 1 / 1000000000) :
    |c.value (a + r) - (c.next a).last.value| ≤
      1 / (1000000000 * (c.next a).last.denominator ^ 2) := by
  rcases hr.eq_or_lt with rfl | pos
  · rw [add_zero, value_of_whole, sub_self, abs_zero]
    positivity
  have hq : (0 : ℚ) < (c.next a).q₁ := by exact_mod_cast next.pos
  have hs : 1000000000 < 1 / r := by
    rw [lt_one_div (by norm_num) pos]
    exact small
  have long : 1000000000 * (c.next a).q₁ ≤ (c.next a).scale (1 / r) := by
    have : (c.next a).q₁ * 1000000000 ≤ (c.next a).q₁ * (1 / r) := by gcongr
    have : (0 : ℚ) ≤ (c.next a).q₀ := Nat.cast_nonneg _
    unfold scale
    linarith
  rw [value_eq_next (s := 1 / r) (by linarith) (by rw [one_div_one_div]),
    abs_value_sub_last next.adjacent next.pos (by linarith), last]
  apply one_div_le_one_div_of_le (by positivity)
  calc (1000000000 * (c.next a).q₁ ^ 2 : ℚ) =
        (c.next a).q₁ * (1000000000 * (c.next a).q₁) := by ring
    _ ≤ _ := by gcongr

/-- A rest from one on, split into its whole part and a remainder that is exact. -/
theorem exists_whole_fract {rest : Binary64} {t : ℚ} (ht : rest.HasValue t) (one : 1 ≤ t) :
    ∃ r, t = rest.toInt.toNat + r ∧ 1 ≤ rest.toInt.toNat ∧ 0 ≤ r ∧ r < 1 ∧
      rest.fract.HasValue r := by
  have low := floor_le t
  have high := lt_floor_add_one t
  have whole : 1 ≤ t.floor := Rat.le_floor_iff.2 (by exact_mod_cast one)
  have floor : (rest.toInt.toNat : ℚ) = t.floor := by
    rw [ht.toInt, ← Int.cast_natCast, Int.toNat_of_nonneg (by omega)]
  refine ⟨t - t.floor, ?_, ?_, by linarith, by linarith, ht.fract_of_nonneg (by linarith)⟩
  · rw [floor]
    ring
  · rw [ht.toInt]
    omega

theorem walk_ends {x : Binary64} {limit : ℕ} {rest : Binary64} {c : Convergents} {t : ℚ}
    (ht : rest.HasValue t) (one : 1 ≤ t) (small : t ≤ 1073741824) (within : c.Within limit) :
    ∃ y, |c.value t - y| ≤ c.drift t ∧ Ends x limit y (walk x limit rest c) := by
  fun_induction walk x limit rest c generalizing t with
  | case1 rest c a next bounds =>
    rename_i ends
    obtain ⟨r, rfl, -, hr, -, fract⟩ := exists_whole_fract ht one
    have within' : next.Within limit := within.next bounds.2.1 bounds.2.2
    refine ⟨c.value (a + r), by rw [sub_self, abs_zero]; exact c.drift_nonneg _, ?_⟩
    exact .close within'.pos within'.le within'.adjacent.symm.coprime
      (within'.abs_value_sub_next_le hr (lt_billionth_of_negligible fract ends))
  | case2 rest c a next bounds goes =>
    rename_i ih
    obtain ⟨r, rfl, -, -, hr, fract⟩ := exists_whole_fract ht one
    have within' : next.Within limit := within.next bounds.2.1 bounds.2.2
    obtain ⟨rest', one', small', near⟩ := hasValue_reciprocal fract goes hr.le
    obtain ⟨y, close, ends⟩ := ih rest' one' small' within'
    have paid := Convergents.abs_value_sub_add_drift_le within.adjacent within'.pos
      (pos_of_not_negligible fract goes) hr one' near
    refine ⟨y, ?_, ends⟩
    have := abs_sub_le (c.value (a + r)) (next.value (rounded (1 / r))) y
    linarith
  | case3 rest c a next =>
    rename_i bounds
    obtain ⟨r, rfl, one, hr, -, -⟩ := exists_whole_fract ht one
    refine ⟨c.value (a + r), by rw [sub_self, abs_zero]; exact c.drift_nonneg _, ?_⟩
    -- the next denominator is past the limit, so the blend takes fewer than `a` times the second
    have past : limit < c.q₀ + a * c.q₁ := by
      have := Nat.le_mul_of_pos_right a within.pos
      have := Nat.mul_pos one within.pos
      by_contra le
      exact bounds ⟨by omega, by simp only [next, Convergents.next]; omega, not_lt.1 le⟩
    have fewer : (limit - c.q₀) / c.q₁ < a := by
      rw [Nat.div_lt_iff_lt_mul within.pos]
      have := within.previous_le
      omega
    refine .closer within (Convergents.value_mem_uIcc within.pos within.blend_pos ?_)
    have : (((limit - c.q₀) / c.q₁ : ℕ) : ℚ) ≤ a := by exact_mod_cast fewer.le
    linarith

/-! ### From the number itself -/

/-- One over zero and zero over one: the number itself is the rest of this pair. -/
def Convergents.start : Convergents := ⟨0, 1, 1, 0⟩

theorem Convergents.value_start (q : ℚ) : start.value q = q := by
  simp [start, value, scale]

theorem Convergents.start_next : start.next 0 = ⟨1, 0, 0, 1⟩ := rfl

/-- Just below one the walk ends in one. -/
theorem walk_near_one {x : Binary64} {limit : ℕ} (hlimit : 1 ≤ limit) {rest : Binary64} {t : ℚ}
    (ht : rest.HasValue t) (one : 1 ≤ t) (near : t ≤ 1 + 2 ^ (-30 : ℤ)) :
    walk x limit rest ⟨1, 0, 0, 1⟩ = ⟨1, 1⟩ := by
  have floor : t.floor = 1 := by
    apply floor_eq
    · exact_mod_cast one
    · norm_num at near ⊢
      linarith
  have whole : rest.toInt.toNat = 1 := by
    rw [ht.toInt, floor]
    rfl
  have fract : rest.fract.HasValue (t - t.floor) :=
    ht.fract_of_nonneg (by linarith)
  have ends : negligible rest.fract :=
    negligible_of_le fract (by rw [floor, Int.cast_one]; linarith)
  rw [walk]
  simp only [whole, ends, Convergents.next, Convergents.last]
  simp [hlimit]

/-- Only a number below one goes on from its whole part. -/
theorem floor_eq_zero_of_not_negligible {x : Binary64} {q : ℚ} (hx : x.HasValue q) (nonneg : 0 ≤ q)
    (le : q ≤ 1) (goes : ¬ negligible x.fract) : q.floor = 0 := by
  have pos := pos_of_not_negligible (hx.fract_of_nonneg nonneg) goes
  rcases le.eq_or_lt with rfl | lt
  · rw [show (1 : ℚ).floor = 1 from rfl, Int.cast_one, sub_self] at pos
    exact absurd pos (lt_irrefl 0)
  · exact floor_eq (by exact_mod_cast nonneg) (by simpa using lt)

theorem best_ends {x : Binary64} {limit : ℕ} (hlimit : 1 ≤ limit) {q : ℚ} (hx : x.HasValue q)
    (nonneg : 0 ≤ q) (le : q ≤ 1) :
    ∃ y, |q - y| ≤ (1 - 2 ^ (-32 : ℤ)) * 2 ^ (-53 : ℤ) ∧ Ends x limit y (best x limit) := by
  have fract := hx.fract_of_nonneg nonneg
  have low := floor_le q
  simp only [best, hx.toInt]
  split
  next ends =>
    refine ⟨q, by norm_num, .close one_pos hlimit (Nat.coprime_one_right _) ?_⟩
    have small := lt_billionth_of_negligible fract ends
    have whole : (q.floor.toNat : ℚ) = q.floor := by
      rw [← Int.cast_natCast, Int.toNat_of_nonneg (Rat.le_floor_iff.2 (by exact_mod_cast nonneg))]
    simp only [Ratio.value, whole]
    rw [Nat.cast_one, div_one, abs_of_nonneg (by linarith)]
    linarith
  next goes =>
    have floor := floor_eq_zero_of_not_negligible hx nonneg le goes
    rw [floor, Int.cast_zero, sub_zero] at fract
    have pos := pos_of_not_negligible fract goes
    obtain ⟨rest, one, small, near⟩ := hasValue_reciprocal fract goes le
    rw [floor, Int.toNat_zero]
    rcases le_or_gt q (1 - 2 ^ (-31 : ℤ)) with below | above
    · obtain ⟨y, close, ends⟩ := walk_ends (x := x) rest one small (Convergents.within_first hlimit)
      have lt : q < 1 := lt_of_le_of_lt below (by norm_num)
      have paid := Convergents.abs_value_sub_add_drift_le (c := .start) (a := 0) (.inl rfl)
        (by decide) pos lt one near
      rw [Nat.cast_zero, zero_add, Convergents.value_start, Convergents.start_next] at paid
      have drift : Convergents.start.drift q = (1 + 2 ^ (-40 : ℤ)) * 2 ^ (-53 : ℤ) * q := by
        simp [Convergents.drift, Convergents.scale, Convergents.start, floor]
      refine ⟨y, ?_, ends⟩
      have := abs_sub_le q ((⟨1, 0, 0, 1⟩ : Convergents).value (rounded (1 / q))) y
      rw [drift] at paid
      norm_num at below paid close this ⊢
      linarith
    · have top : rounded (1 / q) ≤ 1 + 2 ^ (-30 : ℤ) := by
        have held : Holds ((1073741825 : ℕ) * 2 ^ (-30 : ℤ)) :=
          holds_of_le (by norm_num) (by norm_num)
        have := rounded_of_holds held
        refine (rounded_mono (q := (1073741825 : ℕ) * 2 ^ (-30 : ℤ)) ?_).trans ?_
        · rw [div_le_iff₀ pos]
          norm_num at above ⊢
          linarith
        · rw [this]
          norm_num
      rw [walk_near_one hlimit rest one top]
      refine ⟨q, by norm_num, .close one_pos hlimit (Nat.coprime_one_right _) ?_⟩
      rw [abs_sub_comm, abs_of_nonneg (by simpa [Ratio.value] using le)]
      norm_num [Ratio.value] at above ⊢
      linarith

end CellDisplay.Fraction
