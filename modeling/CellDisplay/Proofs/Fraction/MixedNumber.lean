import CellDisplay.Proofs.Fraction.MixedText
import CellDisplay.Proofs.Fraction.Nearest

/-! Mixed numbers that come back. The double nearest to a mixed number with a denominator up to a
thousand is off by far less than such fractions are apart, whole parts up to 2 ^ 20 included, so the
walk finds the fraction again, at a negligible remainder or as the better one of two neighbours. -/
namespace CellDisplay.Fraction

open Binary64 Rounding

/-! ### Fractions up to a thousandth -/

/-- Fractions with denominators up to a thousand are a millionth apart. -/
theorem millionth_le_abs_sub {r : Ratio} (hr : 0 < r.denominator) (few : r.denominator ≤ 1000)
    {a b : ℕ} (hb : 0 < b) (few' : b ≤ 1000) (ne : (a / b : ℚ) ≠ r.value) :
    1 / 1000000 ≤ |r.value - a / b| := by
  refine le_trans ?_ (Ratio.one_div_le_abs_sub hr hb ne)
  have hr' : (0 : ℚ) < r.denominator := by exact_mod_cast hr
  have hb' : (0 : ℚ) < b := by exact_mod_cast hb
  have few : (r.denominator : ℚ) ≤ 1000 := by exact_mod_cast few
  have few' : (b : ℚ) ≤ 1000 := by exact_mod_cast few'
  calc (1 / 1000000 : ℚ) = 1 / (1000 * 1000) := by norm_num
    _ ≤ 1 / (r.denominator * b) := by gcongr

/-- A number so close to a fraction with a denominator up to a thousand is not as close to another
as a negligible remainder would make it. -/
theorem not_close_of_ne {r : Ratio} (hr : 0 < r.denominator) (few : r.denominator ≤ 1000) {a b : ℕ}
    (hb : 0 < b) (few' : b ≤ 1000) (ne : (a / b : ℚ) ≠ r.value) {y q : ℚ}
    (ends : |y - r.value| ≤ 1 / (1000000000 * r.denominator ^ 2)) (close : |q - y| ≤ 2 ^ (-53 : ℤ))
    (near : |q - a / b| ≤ 2 ^ (-32 : ℤ)) : False := by
  have far := Ratio.one_div_le_abs_sub hr hb ne
  have hr' : (1 : ℚ) ≤ r.denominator := by exact_mod_cast hr
  have hb' : (0 : ℚ) < b := by exact_mod_cast hb
  have few : (r.denominator : ℚ) ≤ 1000 := by exact_mod_cast few
  have few' : (b : ℚ) ≤ 1000 := by exact_mod_cast few'
  -- the least distance shrinks with the denominator, the remainder with its square
  set z : ℚ := 1 / r.denominator with hz
  have least : 1 / 1000 ≤ z := by
    rw [hz]
    gcongr
  have most : z ≤ 1 := by
    rw [hz, div_le_one (by linarith)]
    exact hr'
  have apart : z / 1000 ≤ |r.value - a / b| := by
    refine le_trans ?_ far
    rw [hz, div_div]
    gcongr
  have remainder : |y - r.value| ≤ z / 1000000000 := by
    refine ends.trans ?_
    calc (1 / (1000000000 * r.denominator ^ 2) : ℚ) = z * z / 1000000000 := by
          rw [hz]
          field_simp
      _ ≤ z * 1 / 1000000000 := by gcongr
      _ = z / 1000000000 := by rw [mul_one]
  have first := abs_sub_le r.value y (a / b)
  have second := abs_sub_le y q (a / b)
  rw [abs_sub_comm r.value y] at first
  rw [abs_sub_comm y q] at second
  norm_num at near close
  linarith

section

variable {x : Binary64} {q : ℚ} (hx : x.HasValue q) (nonneg : 0 ≤ q) (le : q ≤ 1) {a b : ℕ}
  (hb : 0 < b) (near : |q - a / b| ≤ 2 ^ (-32 : ℤ))
include hx nonneg le hb near

/-- Of two neighbours the chosen one is the fraction that the number came from. -/
theorem Bracket.value_eq {limit : ℕ} (few : limit ≤ 1000) {y : ℚ} {r s : Ratio}
    (h : Bracket limit y r s) (chosen : Bracket.Chosen x r s) (close : |q - y| ≤ 2 ^ (-53 : ℤ))
    (hb' : b ≤ limit) : r.value = a / b := by
  have apart {t : Ratio} (pos : 0 < t.denominator) (le : t.denominator ≤ limit)
      (ne : (a / b : ℚ) ≠ t.value) : 1 / 1000000 ≤ |t.value - a / b| :=
    millionth_le_abs_sub pos (le.trans few) hb (hb'.trans few) ne
  by_contra wrong
  have far := apart h.pos.1 h.le.1 (Ne.symm wrong)
  by_cases other : (a / b : ℚ) = s.value
  · obtain ⟨e, e', he, he', order⟩ := chosen
    obtain ⟨_, same, coarse, -⟩ :=
      error_hasValue hx nonneg le h.pos.1 (h.le.1.trans (by omega)) h.proper.1
    obtain rfl := he.unique same
    obtain ⟨_, same, coarse', -⟩ :=
      error_hasValue hx nonneg le h.pos.2 (h.le.2.trans (by omega)) h.proper.2
    obtain rfl := he'.unique same
    have := abs_sub_le r.value q (a / b)
    rw [abs_sub_comm r.value q] at this
    rw [← other] at coarse'
    rw [abs_le] at coarse coarse'
    norm_num at near coarse coarse' far this
    linarith
  · have far' := apart h.pos.2 h.le.2 other
    have distant : 1 / 1000000 ≤ |y - a / b| := by
      have between := h.between
      rw [Set.mem_uIcc] at between
      rcases h.outside hb hb' (a := a) with below | above
      · rw [le_min_iff] at below
        rw [abs_of_nonneg (by linarith)] at far far'
        rw [abs_of_nonneg] <;> rcases between with between | between <;> linarith
      · rw [max_le_iff] at above
        rw [abs_of_nonpos (by linarith)] at far far'
        rw [abs_of_nonpos] <;> rcases between with between | between <;> linarith
    have := abs_sub_le y q (a / b)
    rw [abs_sub_comm y q] at this
    norm_num at near close distant this
    linarith

theorem best_eq {limit : ℕ} (one : 1 ≤ limit) (few : limit ≤ 1000) (hb' : b ≤ limit)
    (coprime : a.Coprime b) : best x limit = ⟨a, b⟩ := by
  obtain ⟨y, close, ends⟩ := best_ends one hx nonneg le
  have close : |q - y| ≤ 2 ^ (-53 : ℤ) := by
    norm_num at close ⊢
    linarith
  generalize best x limit = r at ends ⊢
  cases ends with
  | close pos small coprime' ends =>
    refine Ratio.eq_of_value_eq coprime' coprime pos hb ?_
    by_contra wrong
    exact not_close_of_ne pos (small.trans few) hb (hb'.trans few) (Ne.symm wrong) ends close near
  | closer within between =>
    obtain ⟨s, bracket, chosen⟩ := closer_bracket hx nonneg le (by omega) within between
    exact Ratio.eq_of_value_eq bracket.adjacent.coprime coprime bracket.pos.1 hb
      (bracket.value_eq hx nonneg le hb near few chosen close hb')

end

/-! ### The text -/

/-- The double nearest to a mixed number. -/
theorem rest_of_mixed {w : ℤ} (hw : |w| ≤ 1048576) {a b : ℕ} (proper : a < b) (few : b ≤ 1000)
    (negativeZero : Bool) :
    ∃ v : Finite, ofRat negativeZero (w + a / b) = finite v ∧ v.value.floor = w ∧
      ∃ q, (finite v - ofInt w).HasValue q ∧ 0 ≤ q ∧ q ≤ 1 ∧ |q - a / b| ≤ 2 ^ (-32 : ℤ) := by
  have hb : (0 : ℚ) < b := by exact_mod_cast (Nat.zero_le a).trans_lt proper
  have part : 0 ≤ (a / b : ℚ) := by positivity
  have room : (a / b : ℚ) ≤ 999 / 1000 := by
    have proper : (a + 1 : ℚ) ≤ b := by exact_mod_cast proper
    have few : (b : ℚ) ≤ 1000 := by exact_mod_cast few
    rw [div_le_div_iff₀ hb (by norm_num)]
    linarith
  have small : |(w : ℚ)| ≤ 1048576 := by exact_mod_cast hw
  rw [abs_le] at small
  have bound : |(w + a / b : ℚ)| ≤ 2 ^ (21 : ℤ) := by
    rw [abs_le]
    norm_num
    constructor <;> linarith
  obtain ⟨v, hv, value⟩ := hasValue_ofRat negativeZero (small_of_le bound (by norm_num))
  have error := abs_rounded_sub_le (by norm_num) bound
  have above : (w : ℚ) ≤ rounded (w + a / b) :=
    rounded_intCast_le (by rw [Int.abs_eq_natAbs] at hw; omega) (le_add_of_nonneg_right part)
  have floor : v.value.floor = w := by
    rw [value]
    apply floor_eq above
    have := (abs_le.1 error).2
    norm_num at this
    linarith
  have rest := v.sub_floor_hasValue
  obtain ⟨nonneg, le⟩ := rest_bounds v.value
  rw [floor] at rest nonneg le
  refine ⟨v, hv, floor, _, rest, nonneg, le, ?_⟩
  have unit : |v.value - w| ≤ 2 ^ (0 : ℤ) := by
    have low := floor_le v.value
    have high := lt_floor_add_one v.value
    rw [floor] at low high
    rw [zpow_zero, abs_of_nonneg (by linarith)]
    linarith
  have error' := abs_rounded_sub_le (by norm_num) unit
  rw [value] at error' ⊢
  rw [abs_le] at error error' ⊢
  norm_num at error error' ⊢
  constructor <;> linarith

/-- A mixed number in lowest terms within the limit is written from the double nearest to it. -/
theorem writeFraction_mixed {limit : ℕ} (two : 2 ≤ limit) (few : limit ≤ 1000) {w : ℤ}
    (hw : |w| ≤ 1048576) {a b : ℕ} (proper : a < b) (le : b ≤ limit) (coprime : a.Coprime b)
    (negativeZero : Bool) :
    writeFraction ⟨limit, .approximate⟩ (ofRat negativeZero (w + a / b)) =
      (toString w ++ " " ++ toString a ++ "/" ++ toString b, none) := by
  obtain ⟨v, hv, floor, q, hq, nonneg, le', near⟩ :=
    rest_of_mixed hw proper (le.trans few) negativeZero
  have found := best_eq hq nonneg le' (by omega) near (show 1 ≤ limit by omega) few le coprime
  have bounded := Spec.overflows_approximate two
  rw [hv, writeFraction_finite (r := ⟨a, b⟩) bounded, floor]
  rw [floor, Spec.ratio, bounded]
  exact found

/-- The greatest whole part below zero, with a denominator that only the limit admits. -/
theorem writeFraction_mixed_thousandth :
    writeFraction ⟨1000, .approximate⟩ (ofRat false ((-1048576 : ℤ) + (333 : ℕ) / (1000 : ℕ))) =
      ("-1048576 333/1000", none) :=
  writeFraction_mixed (w := -1048576) (a := 333) (b := 1000) (by norm_num) le_rfl (by norm_num)
    (by norm_num) le_rfl (by decide) false

end CellDisplay.Fraction
