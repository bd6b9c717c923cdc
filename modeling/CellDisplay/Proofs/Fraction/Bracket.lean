import CellDisplay.Proofs.Fraction.Walk

/-! The end of a walk at the limit. The last fraction and the blend are neighbours with the followed
number between them, and no other fraction within the limit comes between. The better one is chosen
by errors in doubles, each off by a unit in the last place of one at most, so the chosen fraction is
as close as any, but for the rounding of two errors (`abs_sub_le_add`). -/
namespace CellDisplay.Fraction

open Binary64 Rounding

/-! ### Errors in doubles -/

section

variable {x : Binary64} {q : ℚ} (hx : x.HasValue q) (nonneg : 0 ≤ q) (le : q ≤ 1)
include hx nonneg le

/-- The error of a fraction is rounded twice; near the number the second rounding hardly counts. -/
theorem error_hasValue {r : Ratio} (pos : 0 < r.denominator)
    (small : r.denominator ≤ 9007199254740992) (proper : r.numerator ≤ r.denominator) :
    ∃ e, (error x r).HasValue e ∧ |e - (|q - r.value|)| ≤ 2 ^ (-53 : ℤ) ∧
      (|q - r.value| ≤ 2 ^ (-50 : ℤ) → |e - (|q - r.value|)| ≤ 2 ^ (-54 : ℤ) + 2 ^ (-102 : ℤ)) := by
  have pos' : (0 : ℚ) < r.denominator := by exact_mod_cast pos
  have low : 0 ≤ r.value := div_nonneg (Nat.cast_nonneg _) pos'.le
  have high : r.value ≤ 1 := by
    rw [Ratio.value, div_le_one pos']
    exact_mod_cast proper
  have bound : |r.value| ≤ 2 ^ (0 : ℤ) := by rwa [abs_of_nonneg low, zpow_zero]
  have quotient : (ofInt r.numerator / ofInt r.denominator).HasValue (rounded r.value) := by
    have hn : (ofInt r.numerator).HasValue r.numerator := by
      simpa using hasValue_ofInt (n := r.numerator) (by omega)
    have hd : (ofInt r.denominator).HasValue r.denominator := by
      simpa using hasValue_ofInt (n := r.denominator) (by omega)
    exact hn.div hd pos'.ne' (small_of_le bound (by norm_num))
  have low' := rounded_nonneg low
  have high' := (abs_le.1 (abs_rounded_le (by norm_num) bound)).2
  rw [zpow_zero] at high'
  have unit : |rounded r.value - q| ≤ 2 ^ (0 : ℤ) := by
    rw [zpow_zero, abs_le]
    constructor <;> linarith
  have difference := (quotient.sub hx (small_of_le unit (by norm_num))).abs
  refine ⟨|rounded (rounded r.value - q)|, by rwa [error], ?_⟩
  have first := abs_rounded_sub_le (by norm_num) bound
  rw [zero_sub] at first
  -- both roundings, with the second bounded by the magnitude of the difference
  have both {k : ℤ} (low : -1021 ≤ k) (le : |rounded r.value - q| ≤ 2 ^ k) :
      |(|rounded (rounded r.value - q)| - (|q - r.value|))| ≤ 2 ^ (-54 : ℤ) + 2 ^ (k - 54) := by
    have second := abs_rounded_sub_le low le
    rw [abs_sub_comm q]
    have outer := abs_abs_sub_abs_le (rounded (rounded r.value - q)) (r.value - q)
    have := abs_sub_le (rounded (rounded r.value - q)) (rounded r.value - q) (r.value - q)
    rw [sub_sub_sub_cancel_right] at this
    linarith
  constructor
  · have := both (by norm_num) unit
    norm_num at this ⊢
    exact this
  · intro near
    have := both (k := -48) (by norm_num) (by
      have := abs_sub_le (rounded r.value) r.value q
      rw [abs_sub_comm q] at near
      norm_num at this first near ⊢
      linarith)
    norm_num at this ⊢
    exact this

end

/-! ### Two neighbours -/

/-- Neighbours within a limit, with a number between them and no room for a third fraction. -/
structure Bracket (limit : ℕ) (y : ℚ) (r s : Ratio) : Prop where
  adjacent : r.Adjacent s
  pos : 0 < r.denominator ∧ 0 < s.denominator
  le : r.denominator ≤ limit ∧ s.denominator ≤ limit
  proper : r.numerator ≤ r.denominator ∧ s.numerator ≤ s.denominator
  past : limit < r.denominator + s.denominator
  between : y ∈ Set.uIcc r.value s.value

theorem Convergents.Within.bracket {limit : ℕ} {c : Convergents} (within : c.Within limit) {y : ℚ}
    (between : y ∈ Set.uIcc c.last.value (c.blend limit).value) :
    Bracket limit y c.last (c.blend limit) :=
  ⟨within.adjacent_blend, ⟨within.pos, within.blend_pos⟩, ⟨within.le, within.blend_le⟩,
    ⟨within.proper, within.blend_proper⟩, within.lt_add_blend, between⟩

namespace Bracket

variable {limit : ℕ} {y : ℚ} {r s : Ratio}

theorem symm (h : Bracket limit y r s) : Bracket limit y s r :=
  ⟨h.adjacent.symm, h.pos.symm, h.le.symm, h.proper.symm, by rw [add_comm]; exact h.past,
    by rw [Set.uIcc_comm]; exact h.between⟩

/-- A fraction within the limit does not come between. -/
theorem outside (h : Bracket limit y r s) {a b : ℕ} (hb : 0 < b) (le : b ≤ limit) :
    (a / b : ℚ) ≤ min r.value s.value ∨ max r.value s.value ≤ a / b := by
  by_contra inside
  rw [not_or, not_le, not_le] at inside
  obtain ⟨low, high⟩ := inside
  have past := h.past
  rcases le_total r.value s.value with order | order
  · rw [min_eq_left order] at low
    rw [max_eq_right order] at high
    have := h.adjacent.le_of_between h.pos.1 h.pos.2 hb low high
    omega
  · rw [min_eq_right order] at low
    rw [max_eq_left order] at high
    have := h.adjacent.symm.le_of_between h.pos.2 h.pos.1 hb low high
    omega

/-- A fraction within the limit is no closer to a number between the neighbours than both are. -/
theorem min_abs_sub_le (h : Bracket limit y r s) {q : ℚ} (inside : q ∈ Set.uIcc r.value s.value)
    {a b : ℕ} (hb : 0 < b) (le : b ≤ limit) :
    |q - r.value| ≤ |q - a / b| ∨ |q - s.value| ≤ |q - a / b| := by
  have away := h.outside (a := a) hb le
  rw [Set.mem_uIcc] at inside
  rcases inside with ⟨low, high⟩ | ⟨low, high⟩
  · rw [min_eq_left (low.trans high), max_eq_right (low.trans high)] at away
    rcases away with below | above
    · left
      rw [abs_of_nonneg (by linarith), abs_of_nonneg (by linarith)]
      linarith
    · right
      rw [abs_of_nonpos (by linarith), abs_of_nonpos (by linarith)]
      linarith
  · rw [min_eq_right (low.trans high), max_eq_left (low.trans high)] at away
    rcases away with below | above
    · right
      rw [abs_of_nonneg (by linarith), abs_of_nonneg (by linarith)]
      linarith
    · left
      rw [abs_of_nonpos (by linarith), abs_of_nonpos (by linarith)]
      linarith

/-- A number that left the interval is near an end of it. -/
theorem near_of_outside (h : Bracket limit y r s) {q δ : ℚ} (close : |q - y| ≤ δ)
    (out : q ∉ Set.uIcc r.value s.value) : |q - r.value| ≤ δ ∨ |q - s.value| ≤ δ := by
  have between := h.between
  rw [Set.mem_uIcc] at between out
  rw [abs_le] at close
  rw [abs_le, abs_le]
  by_contra far
  grind

end Bracket

/-! ### The choice -/

/-- The fraction whose rounded error is not greater than that of the other neighbour. -/
def Bracket.Chosen (x : Binary64) (r s : Ratio) : Prop :=
  ∃ e e', (error x r).HasValue e ∧ (error x s).HasValue e' ∧ e ≤ e'

section

variable {x : Binary64} {q : ℚ} (hx : x.HasValue q) (nonneg : 0 ≤ q) (le : q ≤ 1)
include hx nonneg le

theorem closer_bracket {limit : ℕ} (hlimit : limit ≤ 9007199254740992) {y : ℚ} {c : Convergents}
    (within : c.Within limit) (between : y ∈ Set.uIcc c.last.value (c.blend limit).value) :
    ∃ s, Bracket limit y (closer x limit c) s ∧ Bracket.Chosen x (closer x limit c) s := by
  have bracket := within.bracket between
  obtain ⟨e, he, -, -⟩ :=
    error_hasValue hx nonneg le bracket.pos.1 (bracket.le.1.trans hlimit) bracket.proper.1
  obtain ⟨e', he', -, -⟩ :=
    error_hasValue hx nonneg le bracket.pos.2 (bracket.le.2.trans hlimit) bracket.proper.2
  unfold closer
  split
  next last => exact ⟨_, bracket, e, e', he, he', (he.le_iff he').1 last⟩
  next blend =>
    rw [he.le_iff he', not_le] at blend
    exact ⟨_, bracket.symm, e', e, he', he, blend.le⟩

theorem Bracket.abs_sub_le_add {limit : ℕ} (hlimit : limit ≤ 9007199254740992) {y : ℚ}
    {r s : Ratio} (h : Bracket limit y r s) (chosen : Bracket.Chosen x r s)
    (close : |q - y| ≤ (1 - 2 ^ (-32 : ℤ)) * 2 ^ (-53 : ℤ)) {a b : ℕ} (hb : 0 < b)
    (hb' : b ≤ limit) : |q - r.value| ≤ |q - a / b| + 2 ^ (-52 : ℤ) := by
  obtain ⟨e, e', he, he', order⟩ := chosen
  obtain ⟨_, same, coarse, fine⟩ :=
    error_hasValue hx nonneg le h.pos.1 (h.le.1.trans hlimit) h.proper.1
  obtain rfl := he.unique same
  obtain ⟨_, same, coarse', fine'⟩ :=
    error_hasValue hx nonneg le h.pos.2 (h.le.2.trans hlimit) h.proper.2
  obtain rfl := he'.unique same
  have rest : 0 ≤ |q - a / b| := abs_nonneg _
  rw [abs_le] at coarse coarse'
  by_cases inside : q ∈ Set.uIcc r.value s.value
  · rcases h.min_abs_sub_le inside (a := a) hb hb' with nearer | nearer
    · exact nearer.trans (le_add_of_nonneg_right (by positivity))
    · norm_num at coarse coarse' ⊢
      linarith
  · rcases h.near_of_outside close inside with near | near
    · norm_num at near ⊢
      linarith
    · -- both errors are tiny, and then the second roundings hardly count
      have fine' := abs_le.1 (fine' (near.trans (by norm_num)))
      have tiny : |q - r.value| ≤ 2 ^ (-50 : ℤ) := by
        norm_num at near coarse fine' ⊢
        linarith
      have fine := abs_le.1 (fine tiny)
      norm_num at near fine fine' ⊢
      linarith

end

end CellDisplay.Fraction
