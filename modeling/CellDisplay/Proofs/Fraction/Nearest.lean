import CellDisplay.Fraction.Mixed
import CellDisplay.Proofs.Fraction.Bracket
import Mathlib.RingTheory.Coprime.Lemmas

/-! How good the approximation by a limited denominator is. A walk to the limit chooses a fraction
that no other within the limit beats by more than the rounding of two errors. A walk that ends at a
remainder below a billionth has seen no neighbour with a denominator more than half a billion times
larger, and such a neighbour, where the limit admits it, can be closer: then, and only then, the
fraction is not the nearest (`text_nearest_iff`). -/
namespace CellDisplay.Fraction

open Binary64 Rounding

/-! ### Remainders below a billionth -/

/-- Within half a billion times its denominator nothing is closer to a number than a fraction this
close to it. -/
theorem abs_sub_le_add_of_close {y q : ℚ} {r : Ratio} (pos : 0 < r.denominator)
    (near : |y - r.value| ≤ 1 / (1000000000 * r.denominator ^ 2)) (close : |q - y| ≤ 2 ^ (-53 : ℤ))
    {a b : ℕ} (hb : 0 < b) (few : b ≤ 500000000 * r.denominator) :
    |q - r.value| ≤ |q - a / b| + 2 ^ (-52 : ℤ) := by
  have hd : (0 : ℚ) < r.denominator := by exact_mod_cast pos
  have hb' : (0 : ℚ) < b := by exact_mod_cast hb
  have few : (b : ℚ) ≤ 500000000 * r.denominator := by exact_mod_cast few
  by_cases same : (a / b : ℚ) = r.value
  · rw [same]
    exact le_add_of_nonneg_right (by positivity)
  have apart : 2 * (1 / (1000000000 * r.denominator ^ 2)) ≤ |r.value - a / b| := by
    calc (2 * (1 / (1000000000 * r.denominator ^ 2)) : ℚ) =
          1 / (r.denominator * (500000000 * r.denominator)) := by
            field_simp
            norm_num
      _ ≤ 1 / (r.denominator * b) := by gcongr
      _ ≤ |r.value - a / b| := Ratio.one_div_le_abs_sub pos hb same
  have first := abs_sub_le q y r.value
  have second := abs_sub_le r.value y (a / b)
  have third := abs_sub_le y q (a / b)
  rw [abs_sub_comm r.value y] at second
  rw [abs_sub_comm y q] at third
  norm_num at close ⊢
  linarith

section

variable {x : Binary64} {q : ℚ} (hx : x.HasValue q) (nonneg : 0 ≤ q) (le : q ≤ 1)
include hx nonneg le

/-- The two ways in which an approximation is good. -/
theorem best_nearest {limit : ℕ} (one : 1 ≤ limit) (hlimit : limit ≤ 9007199254740992) :
    (0 < (best x limit).denominator ∧
      (best x limit).numerator.Coprime (best x limit).denominator) ∧
    ((∀ a b : ℕ, 0 < b → b ≤ limit →
        |q - (best x limit).value| ≤ |q - a / b| + 2 ^ (-52 : ℤ)) ∨
      |q - (best x limit).value| ≤
          1 / (1000000000 * (best x limit).denominator ^ 2) + 2 ^ (-53 : ℤ) ∧
        ∀ a b : ℕ, 0 < b → b ≤ 500000000 * (best x limit).denominator →
          |q - (best x limit).value| ≤ |q - a / b| + 2 ^ (-52 : ℤ)) := by
  obtain ⟨y, close, ends⟩ := best_ends one hx nonneg le
  have half : |q - y| ≤ 2 ^ (-53 : ℤ) := by
    norm_num at close ⊢
    linarith
  generalize best x limit = r at ends ⊢
  cases ends with
  | close pos _ coprime near =>
    refine ⟨⟨pos, coprime⟩, .inr ⟨?_, fun a b hb few => ?_⟩⟩
    · rw [add_comm]
      exact (abs_sub_le q y r.value).trans (add_le_add half near)
    · exact abs_sub_le_add_of_close pos near half hb few
  | closer within between =>
    obtain ⟨s, bracket, chosen⟩ := closer_bracket hx nonneg le hlimit within between
    exact ⟨⟨bracket.pos.1, bracket.adjacent.coprime⟩, .inl fun a b hb hb' =>
      bracket.abs_sub_le_add hx nonneg le hlimit chosen close hb hb'⟩

end

/-! ### Neighbours with large denominators -/

/-- A fraction has a neighbour on either side in every run of denominators as long as its own. -/
theorem exists_adjacent {r : Ratio} (pos : 0 < r.denominator)
    (coprime : r.numerator.Coprime r.denominator) {b : ℕ} (long : r.denominator ≤ b) {ε : ℤ}
    (unit : ε = 1 ∨ ε = -1) (room : ε = 1 ∨ 0 < r.numerator) :
    ∃ s : Ratio, (s.numerator * r.denominator : ℤ) = r.numerator * s.denominator + ε ∧
      b < s.denominator + r.denominator ∧ s.denominator ≤ b := by
  obtain ⟨u, v, bezout⟩ := Nat.isCoprime_iff_coprime.2 coprime
  have hd : (0 : ℤ) < r.denominator := by exact_mod_cast pos
  have split := Int.mul_ediv_add_emod (b + ε * u) r.denominator
  have low := Int.emod_nonneg (b + ε * u) hd.ne'
  have high := Int.emod_lt_of_pos (b + ε * u) hd
  generalize (b + ε * u) % (r.denominator : ℤ) = k at split low high
  generalize (b + ε * u) / (r.denominator : ℤ) = m at split
  have cross : (r.numerator * m + ε * v) * (r.denominator : ℤ) = r.numerator * (b - k) + ε := by
    linear_combination (r.numerator : ℤ) * split + ε * bezout
  have positive : 0 < (b : ℤ) - k := by omega
  have nonneg : 0 ≤ r.numerator * m + ε * v := by
    have product : 0 ≤ r.numerator * ((b : ℤ) - k) + ε := by
      rcases room with rfl | room
      · positivity
      · have : (1 : ℤ) ≤ r.numerator * (b - k) :=
          one_le_mul_of_one_le_of_one_le (by exact_mod_cast room) positive
        omega
    rw [← cross] at product
    exact nonneg_of_mul_nonneg_left product hd
  refine ⟨⟨(r.numerator * m + ε * v).toNat, (b - k : ℤ).toNat⟩, ?_, ?_, ?_⟩
  · simp only [Int.toNat_of_nonneg nonneg, Int.toNat_of_nonneg positive.le, cross]
  · simp only
    omega
  · simp only
    omega

/-- The signed distance of two fractions by their cross products. -/
theorem sign_mul_sub {r s : Ratio} (hr : 0 < r.denominator) (hs : 0 < s.denominator) {ε j : ℤ}
    (unit : ε * ε = 1)
    (cross : (s.numerator * r.denominator : ℤ) = r.numerator * s.denominator + ε * j) :
    ε * (s.value - r.value) = j / (r.denominator * s.denominator) := by
  have hr' : (0 : ℚ) < r.denominator := by exact_mod_cast hr
  have hs' : (0 : ℚ) < s.denominator := by exact_mod_cast hs
  have cross : (s.numerator * r.denominator : ℚ) = r.numerator * s.denominator + ε * j := by
    exact_mod_cast cross
  have unit : (ε * ε : ℚ) = 1 := by exact_mod_cast unit
  rw [Ratio.value, Ratio.value]
  field_simp
  linear_combination (ε : ℚ) * cross + (j : ℚ) * unit

/-- A fraction that is no neighbour lies on one side, by a whole number of cross products. -/
theorem exists_sign {r : Ratio} {a b : ℕ} (ne : (a * r.denominator : ℤ) ≠ r.numerator * b) :
    ∃ ε j : ℤ, (ε = 1 ∨ ε = -1) ∧ 1 ≤ j ∧ (ε = 1 ∨ 0 < r.numerator) ∧
      (a * r.denominator : ℤ) = r.numerator * b + ε * j := by
  rcases lt_or_gt_of_ne ne with below | above
  · refine ⟨-1, r.numerator * b - a * r.denominator, .inr rfl, by omega, .inr ?_, by ring⟩
    by_contra zero
    obtain zero : r.numerator = 0 := by omega
    rw [zero, Nat.cast_zero, zero_mul] at below
    exact absurd below (not_lt.2 (by positivity))
  · exact ⟨1, a * r.denominator - r.numerator * b, .inl rfl, by omega, .inl rfl, by ring⟩

/-- A number so close to a fraction, and still not at it, leaves the denominator small. -/
theorem denominator_lt_of_close {d : ℕ} {δ : ℚ} (far : 2 ^ (-52 : ℤ) < δ)
    (near : δ ≤ 1 / (1000000000 * d ^ 2) + 2 ^ (-53 : ℤ)) : d < 4096 := by
  by_contra large
  have large : (4096 : ℚ) ≤ d := by exact_mod_cast not_lt.1 large
  have : 1 / (1000000000 * (d : ℚ) ^ 2) ≤ 1 / (1000000000 * 4096 ^ 2) := by gcongr
  norm_num at far near this
  linarith

/-- If any fraction with twice the denominator or more is closer, a neighbour is. -/
theorem exists_adjacent_closer {q : ℚ} {r : Ratio} (pos : 0 < r.denominator)
    (coprime : r.numerator.Coprime r.denominator)
    (near : |q - r.value| ≤ 1 / (1000000000 * r.denominator ^ 2) + 2 ^ (-53 : ℤ)) {a b : ℕ}
    (long : 2 * r.denominator ≤ b) (small : b ≤ 4294967296)
    (closer : |q - a / b| + 2 ^ (-52 : ℤ) < |q - r.value|) :
    ∃ s : Ratio, r.Adjacent s ∧ 0 < s.denominator ∧ s.denominator ≤ b ∧
      |q - s.value| + 2 ^ (-52 : ℤ) < |q - r.value| := by
  have hb : 0 < b := by omega
  have hd : (0 : ℚ) < r.denominator := by exact_mod_cast pos
  have hb' : (0 : ℚ) < b := by exact_mod_cast hb
  have ne : (a * r.denominator : ℤ) ≠ r.numerator * b := by
    intro same
    have same : (a / b : ℚ) = r.value := by
      rw [Ratio.value, div_eq_div_iff hb'.ne' hd.ne']
      exact_mod_cast same
    rw [same] at closer
    exact absurd closer (not_lt.2 (le_add_of_nonneg_right (by positivity)))
  obtain ⟨ε, j, unit, one, room, cross⟩ := exists_sign ne
  have square : ε * ε = 1 := by rcases unit with rfl | rfl <;> rfl
  have length : |(ε : ℚ)| = 1 := by rcases unit with rfl | rfl <;> simp
  -- distances seen from the fraction, in the direction of the closer one
  set δ : ℚ := ε * (q - r.value)
  have seen (z : ℚ) : |q - z| = |δ - ε * (z - r.value)| := by
    rw [show δ - ε * (z - r.value) = ε * (q - z) by ring, abs_mul, length, one_mul]
  have distance : ε * ((a / b : ℚ) - r.value) = j / (r.denominator * b) :=
    sign_mul_sub (s := ⟨a, b⟩) pos hb square cross
  have apart : 0 < (j / (r.denominator * b) : ℚ) := by
    have : (0 : ℚ) < j := by exact_mod_cast one
    positivity
  have unmoved : |q - r.value| = |δ| := by rw [seen, sub_self, mul_zero, sub_zero]
  rw [unmoved] at near closer ⊢
  have away : |q - a / b| = |δ - j / (r.denominator * b)| := by rw [seen, distance]
  rw [away] at closer
  have forward : 0 < δ := by
    by_contra back
    rw [abs_of_nonpos (by linarith), abs_of_nonpos (not_lt.1 back)] at closer
    norm_num at closer
    linarith
  rw [abs_of_pos forward] at near closer ⊢
  have reach := neg_abs_le (δ - j / (r.denominator * b) : ℚ)
  rcases one.eq_or_lt with rfl | more
  · refine ⟨⟨a, b⟩, ?_, hb, le_rfl, ?_⟩
    · rcases unit with rfl | rfl
      · left
        have : (a * r.denominator : ℤ) = r.numerator * b + 1 := by linarith
        exact_mod_cast this.symm
      · right
        have : (a * r.denominator + 1 : ℤ) = r.numerator * b := by linarith
        exact_mod_cast this
    · rw [Ratio.value, away]
      exact closer
  · obtain ⟨s, cross', short, le⟩ := exists_adjacent pos coprime (b := b) (by omega) unit room
    have hs : 0 < s.denominator := by omega
    have hs' : (0 : ℚ) < s.denominator := by exact_mod_cast hs
    have distance' : ε * (s.value - r.value) = 1 / (r.denominator * s.denominator) := by
      have := sign_mul_sub (j := 1) pos hs square (by rw [cross', mul_one])
      rwa [Int.cast_one] at this
    refine ⟨s, ?_, hs, le, ?_⟩
    · rcases unit with rfl | rfl
      · left
        exact_mod_cast cross'.symm
      · right
        have : (s.numerator * r.denominator + 1 : ℤ) = r.numerator * s.denominator := by linarith
        exact_mod_cast this
    -- the neighbour is no farther than the fraction, and not too near to count
    have nearer : (1 / (r.denominator * s.denominator) : ℚ) ≤ j / (r.denominator * b) := by
      rw [div_le_div_iff₀ (by positivity) (by positivity)]
      have half : (b : ℚ) ≤ 2 * s.denominator := by
        have : b ≤ 2 * s.denominator := by omega
        exact_mod_cast this
      have two : (2 : ℚ) ≤ j := by exact_mod_cast more
      calc (1 * (r.denominator * b) : ℚ) ≤ 1 * (r.denominator * (2 * s.denominator)) := by gcongr
        _ = 2 * (r.denominator * s.denominator) := by ring
        _ ≤ j * (r.denominator * s.denominator) := by gcongr
    have visible : 2 ^ (-52 : ℤ) < (1 / (r.denominator * s.denominator) : ℚ) := by
      have far := (le_add_of_nonneg_left (abs_nonneg _)).trans_lt closer
      have few := denominator_lt_of_close far near
      have product : r.denominator * s.denominator < 4096 * 4294967297 :=
        Nat.mul_lt_mul'' few (by omega)
      have product : (r.denominator * s.denominator : ℚ) < 4096 * 4294967297 := by
        exact_mod_cast product
      rw [lt_div_iff₀ (by positivity)]
      norm_num at product ⊢
      linarith
    rw [seen, distance', ← lt_sub_iff_add_lt, abs_lt]
    constructor <;> linarith

/-! ### The text -/

/-- A neighbour with a denominator more than half a billion times larger is closer, by more than the
rounding of two errors. -/
def Overlooks (q : ℚ) (limit : ℕ) (r : Ratio) : Prop :=
  ∃ s : Ratio, r.Adjacent s ∧ 500000000 * r.denominator < s.denominator ∧ s.denominator ≤ limit ∧
    |q - s.value| + 2 ^ (-52 : ℤ) < |q - r.value|

theorem best_nearest_iff {x : Binary64} {q : ℚ} (hx : x.HasValue q) (nonneg : 0 ≤ q) (le : q ≤ 1)
    {limit : ℕ} (one : 1 ≤ limit) (hlimit : limit < 4294967296) :
    (∀ a b : ℕ, 0 < b → b ≤ limit →
        |q - (best x limit).value| ≤ |q - a / b| + 2 ^ (-52 : ℤ)) ↔
      ¬ Overlooks q limit (best x limit) := by
  obtain ⟨⟨pos, coprime⟩, nearest | ⟨near, few⟩⟩ := best_nearest hx nonneg le one (by omega)
  · refine iff_of_true nearest ?_
    rintro ⟨s, -, large, small, closer⟩
    exact closer.not_ge (nearest _ _ (by omega) small)
  · constructor
    · rintro nearest ⟨s, -, large, small, closer⟩
      exact closer.not_ge (nearest _ _ (by omega) small)
    · intro seen a b hb small
      by_contra closer
      rw [not_le] at closer
      have long : 500000000 * (best x limit).denominator < b := by
        by_contra short
        exact closer.not_ge (few a b hb (not_lt.1 short))
      obtain ⟨s, adjacent, hs, le, closer⟩ :=
        exists_adjacent_closer pos coprime near (by omega) (by omega) closer
      refine seen ⟨s, adjacent, ?_, le.trans small, closer⟩
      by_contra short
      exact closer.not_ge (few s.numerator s.denominator hs (not_lt.1 short))

theorem Spec.overflows_approximate {limit : ℕ} (two : 2 ≤ limit) :
    (Spec.mk limit .approximate).overflows = false := by
  simp only [Spec.overflows, decide_true, Bool.true_and, decide_eq_false_iff_not]
  omega

theorem text_approximate {limit : ℕ} (two : 2 ≤ limit) (v : Finite) :
    text ⟨limit, .approximate⟩ (finite v) = Decimal.paddedInt 1 v.value.floor ++
      ' ' :: (best (finite v - ofInt v.value.floor) limit).text := by
  simp [text, Spec.ratio, Spec.overflows_approximate two]

theorem rest_bounds (q : ℚ) : 0 ≤ rounded (q - q.floor) ∧ rounded (q - q.floor) ≤ 1 := by
  have low := floor_le q
  have high := lt_floor_add_one q
  constructor
  · exact rounded_nonneg (by linarith)
  · have := rounded_mono (show q - q.floor ≤ (1 : ℤ) by push_cast; linarith)
    rwa [rounded_intCast (by norm_num), Int.cast_one] at this

/-- The part of a number above its floor, which is rounded and can be one. -/
theorem exists_rest (v : Finite) : ∃ rest : Finite,
    finite v - ofInt v.value.floor = finite rest ∧ 0 ≤ rest.value ∧ rest.value ≤ 1 := by
  obtain ⟨rest, same, value⟩ := v.sub_floor_hasValue
  have bounds := rest_bounds v.value
  rw [← value] at bounds
  exact ⟨rest, same, bounds⟩

/-- What is written for the part of a number above its floor is as close to it as every fraction
within the limit, but for the rounding of two errors, unless a neighbour is overlooked. -/
theorem text_nearest_iff (v : Finite) {limit : ℕ} (two : 2 ≤ limit) (small : limit < 4294967296) :
    ∃ (rest : Finite) (r : Ratio), finite v - ofInt v.value.floor = finite rest ∧
      text ⟨limit, .approximate⟩ (finite v) =
        Decimal.paddedInt 1 v.value.floor ++ ' ' :: r.text ∧ 0 < r.denominator ∧
      ((∀ a b : ℕ, 0 < b → b ≤ limit →
          |rest.value - r.value| ≤ |rest.value - a / b| + 2 ^ (-52 : ℤ)) ↔
        ¬ Overlooks rest.value limit r) := by
  obtain ⟨rest, hrest, nonneg, le⟩ := exists_rest v
  have one : 1 ≤ limit := by omega
  obtain ⟨⟨pos, -⟩, -⟩ := best_nearest (hasValue_finite rest) nonneg le one (by omega)
  refine ⟨rest, best (finite rest) limit, hrest, by rw [text_approximate two, hrest], pos, ?_⟩
  exact best_nearest_iff (hasValue_finite rest) nonneg le one small

/-- Nothing is overlooked where no denominator is more than half a billion times larger. -/
theorem text_nearest_to_hundredth :
    let v : Finite := ⟨false, 7074237752028440, -51, by decide⟩
    2 ≤ 100 ∧ 100 < 4294967296 ∧
      ∃ (rest : Finite) (r : Ratio), finite v - ofInt v.value.floor = finite rest ∧
        text ⟨100, .approximate⟩ (finite v) =
          Decimal.paddedInt 1 v.value.floor ++ ' ' :: r.text ∧ 0 < r.denominator ∧
        ∀ a b : ℕ, 0 < b → b ≤ 100 →
          |rest.value - r.value| ≤ |rest.value - a / b| + 2 ^ (-52 : ℤ) := by
  intro v
  refine ⟨by norm_num, by norm_num, ?_⟩
  obtain ⟨rest, r, hrest, written, pos, nearest⟩ :=
    text_nearest_iff v (show 2 ≤ 100 by norm_num) (by norm_num)
  refine ⟨rest, r, hrest, written, pos, nearest.2 ?_⟩
  rintro ⟨s, -, large, small, -⟩
  omega

/-- One billionth is a hundred times closer to 0.99 billionths than zero is. -/
theorem text_overlooks_billionth :
    let v : Finite := ⟨false, 4787346245673932, -82, by decide⟩
    finite v - ofInt v.value.floor = finite v ∧
      text ⟨1000000000, .approximate⟩ (finite v) = "0 0/1".toList ∧
      ¬ ∀ a b : ℕ, 0 < b → b ≤ 1000000000 →
        |v.value - (Ratio.mk 0 1).value| ≤ |v.value - a / b| + 2 ^ (-52 : ℤ) := by
  intro v
  refine ⟨by decide +kernel, by decide +kernel, fun nearest => ?_⟩
  have closer := nearest 1 1000000000 (by norm_num) le_rfl
  have value : v.value = 4787346245673932 * 2 ^ (-82 : ℤ) := by
    simp [Finite.value, Finite.magnitude, v]
  rw [value, Ratio.value] at closer
  norm_num [abs_of_nonneg, abs_of_nonpos] at closer

end CellDisplay.Fraction
