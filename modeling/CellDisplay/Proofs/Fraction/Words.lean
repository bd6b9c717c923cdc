import CellDisplay.Proofs.Fraction.MixedText
import CellDisplay.Proofs.Fraction.Nearest
import Mathlib.Data.Nat.Fib.Basic

/-! The search for a fraction as a loop on 64-bit words. A word that does not fit, a difference
below zero and a division by zero are faults here, and a loop that has not come to a fraction after
its turns is none either. Neighbours within a limit of 32 bits stay neighbours within it, whatever
the partial quotients are, so there are no faults, and what is left at the end is in lowest terms;
denominators grow as fast as Fibonacci numbers, so the turns are few (`writeFraction_lowest_terms`).
-/
namespace CellDisplay

/-- A fraction in lowest terms from zero to one, with a denominator within a limit. -/
structure Ratio.Proper (limit : ℕ) (r : Ratio) : Prop where
  pos : 1 ≤ r.denominator
  le : r.denominator ≤ limit
  le_one : r.numerator ≤ r.denominator
  coprime : r.numerator.Coprime r.denominator

namespace Fraction

open Binary64 Rounding

/-! ### Results in lowest terms -/

namespace Convergents.Within

variable {limit : ℕ} {c : Convergents} (h : c.Within limit)
include h

theorem proper_last : c.last.Proper limit :=
  ⟨h.pos, h.le, h.proper, h.adjacent.symm.coprime⟩

theorem proper_blend : (c.blend limit).Proper limit :=
  ⟨h.blend_pos, h.blend_le, h.blend_proper, h.adjacent_blend.symm.coprime⟩

theorem proper_closer (x : Binary64) : (closer x limit c).Proper limit := by
  unfold closer
  split
  · exact h.proper_last
  · exact h.proper_blend

end Convergents.Within

/-- Nothing is asked of the rests here: the guards of the walk are enough. -/
theorem proper_walk (x : Binary64) {limit : ℕ} (rest : Binary64) {c : Convergents}
    (within : c.Within limit) : (walk x limit rest c).Proper limit := by
  fun_induction walk x limit rest c with
  | case1 rest c a next bounds => exact (within.next bounds.2.1 bounds.2.2).proper_last
  | case2 rest c a next bounds goes ih => exact ih (within.next bounds.2.1 bounds.2.2)
  | case3 rest c a next => exact within.proper_closer x

/-! ### Words -/

namespace Word

/-- A number of 64 bits. -/
def fit? (n : ℕ) : Option ℕ := if n < 18446744073709551616 then some n else none

def add? (a b : ℕ) : Option ℕ := fit? (a + b)

def mul? (a b : ℕ) : Option ℕ := fit? (a * b)

/-- A product and then a sum. -/
def addMul? (a k b : ℕ) : Option ℕ := (mul? k b).bind (add? a)

def sub? (a b : ℕ) : Option ℕ := if b ≤ a then some (a - b) else none

def div? (a b : ℕ) : Option ℕ := if b = 0 then none else some (a / b)

/-- The whole part of a double, cut to the range of words. -/
def ofDouble (x : Binary64) : ℕ := min x.toInt.toNat 18446744073709551615

variable {a b k : ℕ}

/-- The product is no greater than the sum, so one bound is enough for both. -/
theorem addMul?_eq (fits : a + k * b < 18446744073709551616) :
    addMul? a k b = some (a + k * b) := by
  have product : k * b < 18446744073709551616 := by omega
  rw [addMul?, mul?, fit?, if_pos product, Option.bind_some, add?, fit?, if_pos fits]

theorem sub?_eq (le : b ≤ a) : sub? a b = some (a - b) := if_pos le

theorem div?_eq (pos : 0 < b) : div? a b = some (a / b) := if_neg pos.ne'

end Word

/-! ### The loop -/

/-- The distance from a fraction to a number; none over zero. -/
def error? (x : Binary64) (r : Ratio) : Option Binary64 :=
  if r.denominator = 0 then none else some (error x r)

theorem error?_eq (x : Binary64) {r : Ratio} (pos : 0 < r.denominator) :
    error? x r = some (error x r) := if_neg pos.ne'

def reciprocal? (x : Binary64) : Option Binary64 := if x.isZero then none else some (ofInt 1 / x)

theorem reciprocal?_eq {x : Binary64} {q : ℚ} (hx : x.HasValue q) (ne : q ≠ 0) :
    reciprocal? x = some (ofInt 1 / x) := by
  obtain ⟨f, rfl, rfl⟩ := hx
  rw [reciprocal?, Binary64.isZero, f.isZero_eq_false ne]
  rfl

/-- The better one of the last fraction within the limit and the blend, in words. -/
def closer? (x : Binary64) (limit : ℕ) (c : Convergents) : Option Ratio := do
  let k ← Word.div? (← Word.sub? limit c.q₀) c.q₁
  let p ← Word.addMul? c.p₀ k c.p₁
  let q ← Word.addMul? c.q₀ k c.q₁
  let last ← error? x c.last
  let blend ← error? x ⟨p, q⟩
  return if last.le blend then c.last else ⟨p, q⟩

/-- What a turn of the loop ends in. -/
inductive Turn where
  | next (rest : Binary64) (c : Convergents)
  | done (r : Ratio)

/-- One turn of the loop in words. -/
def turn? (x : Binary64) (limit : ℕ) (rest : Binary64) (c : Convergents) : Option Turn := do
  if (ofInt limit).lt rest.floor then
    return .done (← closer? x limit c)
  let a := Word.ofDouble rest.floor
  let q ← Word.addMul? c.q₀ a c.q₁
  if limit < q then
    return .done (← closer? x limit c)
  let p ← Word.addMul? c.p₀ a c.p₁
  if negligible rest.fract then
    return .done ⟨p, q⟩
  return .next (← reciprocal? rest.fract) ⟨c.p₁, c.q₁, p, q⟩

/-- The loop with so many turns at most. -/
def loop? (x : Binary64) (limit : ℕ) : ℕ → Binary64 → Convergents → Option Ratio
  | 0, _, _ => none
  | turns + 1, rest, c =>
    (turn? x limit rest c).bind fun
      | .next rest c => loop? x limit turns rest c
      | .done r => some r

/-! ### One turn -/

section

variable {rest : Binary64} {t : ℚ} (ht : rest.HasValue t)
include ht

theorem limit_lt_floor_iff {limit : ℕ} (small : limit ≤ 9007199254740992) :
    (ofInt limit).lt rest.floor ↔ limit < rest.toInt.toNat := by
  rw [(hasValue_ofInt (n := limit) (by omega)).lt_iff ht.whole, Int.cast_lt, ht.toInt]
  omega

theorem ofDouble_floor : Word.ofDouble rest.floor = min rest.toInt.toNat 18446744073709551615 := by
  rw [Word.ofDouble, ht.whole.toInt, Rat.floor_intCast, ht.toInt]

end

section

variable {limit : ℕ} {c : Convergents} (within : c.Within limit) (small : limit < 4294967296)
include within small

theorem closer?_eq (x : Binary64) : closer? x limit c = some (closer x limit c) := by
  have proper := within.proper_blend
  have numerator : (c.blend limit).numerator < 18446744073709551616 :=
    proper.le_one.trans_lt (proper.le.trans_lt (small.trans (by norm_num)))
  have denominator : (c.blend limit).denominator < 18446744073709551616 :=
    proper.le.trans_lt (small.trans (by norm_num))
  have last := error?_eq x (r := c.last) within.pos
  have blend := error?_eq x proper.pos
  simp only [Convergents.blend] at numerator denominator blend
  simp only [closer?, Word.sub?_eq within.previous_le, Word.div?_eq within.pos,
    Word.addMul?_eq numerator, Word.addMul?_eq denominator, last, blend, Option.bind_eq_bind,
    Option.bind_some]
  rfl

variable {rest : Binary64} {t : ℚ} (ht : rest.HasValue t) (one : 1 ≤ t)
include ht one

/-- A turn has no faults, and it goes on or ends as the walk does. -/
theorem turn?_eq (x : Binary64) :
    turn? x limit rest c =
      if rest.toInt.toNat ≤ limit ∧ c.q₀ < (c.next rest.toInt.toNat).q₁ ∧
          (c.next rest.toInt.toNat).q₁ ≤ limit then
        if negligible rest.fract then some (.done (c.next rest.toInt.toNat).last)
        else some (.next (ofInt 1 / rest.fract) (c.next rest.toInt.toNat))
      else some (.done (closer x limit c)) := by
  obtain ⟨r, -, whole, -, -, fract⟩ := exists_whole_fract ht one
  have compared := limit_lt_floor_iff ht (show limit ≤ 9007199254740992 by omega)
  have read := ofDouble_floor ht
  generalize rest.toInt.toNat = a at *
  by_cases few : a ≤ limit
  swap
  · rw [if_neg fun bounds => few bounds.1, turn?, if_pos (compared.2 (not_le.1 few)),
      closer?_eq within small]
    rfl
  -- From here on the quotient has 32 bits: the cut does nothing, and its products fit.
  have word : Word.ofDouble rest.floor = a := by omega
  have denominator : c.q₀ + a * c.q₁ < 18446744073709551616 := by
    have := Nat.mul_le_mul few within.le
    have := Nat.mul_le_mul (Nat.le_of_lt_succ small) (Nat.le_of_lt_succ small)
    have := within.previous_le
    omega
  rw [turn?, if_neg (mt compared.1 (not_lt.2 few)), word]
  simp only [Word.addMul?_eq denominator, Option.bind_eq_bind, Option.bind_some]
  by_cases le : c.q₀ + a * c.q₁ ≤ limit
  swap
  · rw [if_pos (not_le.1 le), closer?_eq within small, if_neg fun bounds => le bounds.2.2]
    rfl
  have grows : c.q₀ < (c.next a).q₁ := Nat.lt_add_of_pos_right (Nat.mul_pos whole within.pos)
  have next : (c.next a).Within limit := within.next grows le
  have numerator : c.p₀ + a * c.p₁ < 18446744073709551616 :=
    next.proper.trans_lt (next.le.trans_lt (small.trans (by norm_num)))
  have bounds : a ≤ limit ∧ c.q₀ < (c.next a).q₁ ∧ (c.next a).q₁ ≤ limit := ⟨few, grows, le⟩
  rw [if_pos bounds, if_neg (not_lt.2 le), Word.addMul?_eq numerator, Option.bind_some]
  split
  next => rfl
  next goes =>
    rw [reciprocal?_eq fract (pos_of_not_negligible fract goes).ne']
    rfl

end

/-! ### The whole loop -/

theorem loop?_done {x : Binary64} {limit turns : ℕ} {rest : Binary64} {c : Convergents} {r : Ratio}
    (h : turn? x limit rest c = some (.done r)) : loop? x limit (turns + 1) rest c = some r := by
  rw [loop?, h]
  rfl

theorem loop?_next {x : Binary64} {limit turns : ℕ} {rest rest' : Binary64} {c c' : Convergents}
    (h : turn? x limit rest c = some (.next rest' c')) :
    loop? x limit (turns + 1) rest c = loop? x limit turns rest' c' := by
  rw [loop?, h]
  rfl

/-- Two successive denominators are above two successive Fibonacci numbers, and every turn moves
them on by one. -/
theorem loop?_walk {x : Binary64} {limit : ℕ} (small : limit < 4294967296) {rest : Binary64}
    {c : Convergents} {t : ℚ} (ht : rest.HasValue t) (one : 1 ≤ t) (within : c.Within limit) {k : ℕ}
    (grown : Nat.fib k ≤ c.q₀) (grown' : Nat.fib (k + 1) ≤ c.q₁) :
    ∃ turns, Nat.fib (k + turns + 1) ≤ limit ∧
      loop? x limit (turns + 1) rest c = some (walk x limit rest c) := by
  have turn := turn?_eq within small ht one x
  fun_induction walk x limit rest c generalizing t k with
  | case1 rest c a next bounds =>
    rename_i ends
    rw [if_pos bounds, if_pos ends] at turn
    exact ⟨0, grown'.trans within.le, loop?_done turn⟩
  | case2 rest c a next bounds goes =>
    rename_i ih
    rw [if_pos bounds, if_neg goes] at turn
    obtain ⟨r, -, whole, -, lt, fract⟩ := exists_whole_fract ht one
    obtain ⟨rest', one', -, -⟩ := hasValue_reciprocal fract goes lt.le
    have within' : next.Within limit := within.next bounds.2.1 bounds.2.2
    have grown'' : Nat.fib (k + 1 + 1) ≤ next.q₁ := by
      rw [Nat.fib_add_two]
      exact Nat.add_le_add grown (grown'.trans (Nat.le_mul_of_pos_left _ whole))
    obtain ⟨turns, few, ends⟩ :=
      ih rest' one' within' grown' grown'' (turn?_eq within' small rest' one' x)
    refine ⟨turns + 1, ?_, (loop?_next turn).trans ends⟩
    rwa [show k + (turns + 1) + 1 = k + 1 + turns + 1 by omega]
  | case3 rest c a next =>
    rename_i bounds
    rw [if_neg bounds] at turn
    exact ⟨0, grown'.trans within.le, loop?_done turn⟩

theorem whole_le_one {x : Binary64} {q : ℚ} (hx : x.HasValue q) (le : q ≤ 1) :
    x.toInt.toNat ≤ 1 := by
  have : q.floor ≤ (1 : ℚ).floor := Rat.floor_monotone le
  rw [show (1 : ℚ).floor = 1 from rfl] at this
  rw [hx.toInt]
  omega

section

variable {x : Binary64} {q : ℚ} (hx : x.HasValue q) (nonneg : 0 ≤ q) (le : q ≤ 1) {limit : ℕ}
  (one : 1 ≤ limit)
include hx nonneg le one

/-- The first turn begins with one over zero, which is no fraction yet. -/
theorem turn?_start (small : limit < 4294967296) :
    turn? x limit x .start =
      if negligible x.fract then some (.done ⟨x.toInt.toNat, 1⟩)
      else some (.next (ofInt 1 / x.fract) ⟨1, 0, x.toInt.toNat, 1⟩) := by
  have compared := limit_lt_floor_iff hx (show limit ≤ 9007199254740992 by omega)
  have read := ofDouble_floor hx
  have whole := whole_le_one hx le
  have fract := hx.fract_of_nonneg nonneg
  generalize x.toInt.toNat = a at *
  have word : Word.ofDouble x.floor = a := by omega
  have denominator : 1 + a * 0 < 18446744073709551616 := by omega
  have numerator : 0 + a * 1 < 18446744073709551616 := by omega
  rw [turn?, if_neg (mt compared.1 (by omega)), word]
  simp only [Convergents.start, Word.addMul?_eq denominator, Word.addMul?_eq numerator,
    Option.bind_eq_bind, Option.bind_some, Nat.mul_zero, Nat.add_zero, Nat.mul_one, Nat.zero_add]
  rw [if_neg (not_lt.2 one)]
  split
  next => rfl
  next goes =>
    rw [reciprocal?_eq fract (pos_of_not_negligible fract goes).ne']
    rfl

theorem loop?_best (small : limit < 4294967296) :
    ∃ turns, Nat.fib turns ≤ limit ∧ loop? x limit (turns + 1) x .start = some (best x limit) := by
  have turn := turn?_start hx nonneg le one small
  have fract := hx.fract_of_nonneg nonneg
  rw [best]
  split
  next ends =>
    rw [if_pos ends] at turn
    exact ⟨0, Nat.zero_le _, loop?_done turn⟩
  next goes =>
    have floor := floor_eq_zero_of_not_negligible hx nonneg le goes
    have zero : x.toInt.toNat = 0 := by rw [hx.toInt, floor, Int.toNat_zero]
    rw [if_neg goes, zero] at turn
    rw [floor, Int.cast_zero, sub_zero] at fract
    -- The second turn is the first with a fraction behind it, zero over one.
    obtain ⟨rest, above, -, -⟩ := hasValue_reciprocal fract goes le
    obtain ⟨turns, few, ends⟩ := loop?_walk (x := x) small rest above (Convergents.within_first one)
      (k := 0) le_rfl le_rfl
    refine ⟨turns + 1, ?_, ?_⟩
    · rwa [Nat.zero_add] at few
    · rw [loop?_next turn, ends, zero]

theorem proper_best : (best x limit).Proper limit := by
  rw [best]
  split
  next => exact ⟨le_rfl, one, whole_le_one hx le, Nat.coprime_one_right _⟩
  next goes =>
    rw [hx.toInt, floor_eq_zero_of_not_negligible hx nonneg le goes]
    exact proper_walk x _ (Convergents.within_first one)

end

/-- The loop in words comes to a fraction in lowest terms within the limit, in as many turns as
there are Fibonacci numbers up to the limit and one more at most, and that fraction is written. The
part of the number above its floor can be one, since it is rounded. -/
theorem writeFraction_lowest_terms (v : Finite) {limit : ℕ} (two : 2 ≤ limit)
    (small : limit < 4294967296) :
    ∃ (rest : Finite) (turns : ℕ) (r : Ratio), finite v - ofInt v.value.floor = finite rest ∧
      (0 ≤ rest.value ∧ rest.value ≤ 1) ∧ Nat.fib turns ≤ limit ∧
      loop? (finite rest) limit (turns + 1) (finite rest) .start = some r ∧
      writeFraction ⟨limit, .approximate⟩ (finite v) =
        (toString v.value.floor ++ " " ++ toString r.numerator ++ "/" ++ toString r.denominator,
          none) ∧
      (1 ≤ r.denominator ∧ r.denominator ≤ limit) ∧ r.numerator ≤ r.denominator ∧
      r.numerator.Coprime r.denominator := by
  obtain ⟨rest, hrest, nonneg, le⟩ := exists_rest v
  have one : 1 ≤ limit := by omega
  obtain ⟨turns, few, ends⟩ := loop?_best (hasValue_finite rest) nonneg le one small
  have proper := proper_best (hasValue_finite rest) nonneg le one
  have bounded := Spec.overflows_approximate two
  have ratio : (Spec.mk limit .approximate).ratio (finite v - ofInt v.value.floor) =
      best (finite rest) limit := by
    rw [Spec.ratio, bounded, hrest]
    rfl
  exact ⟨rest, turns, _, hrest, ⟨nonneg, le⟩, few, ends, writeFraction_finite bounded ratio,
    ⟨proper.pos, proper.le⟩, proper.le_one, proper.coprime⟩

/-- Just below zero the part above the floor rounds up to one. -/
theorem writeFraction_lowest_terms_least :
    let v : Finite := ⟨true, 1, -1074, by decide⟩
    2 ≤ 4294967295 ∧ 4294967295 < 4294967296 ∧
      ∃ (rest : Finite) (turns : ℕ) (r : Ratio), finite v - ofInt v.value.floor = finite rest ∧
        (0 ≤ rest.value ∧ rest.value ≤ 1) ∧ Nat.fib turns ≤ 4294967295 ∧
        loop? (finite rest) 4294967295 (turns + 1) (finite rest) .start = some r ∧
        writeFraction ⟨4294967295, .approximate⟩ (finite v) =
          (toString v.value.floor ++ " " ++ toString r.numerator ++ "/" ++ toString r.denominator,
            none) ∧
        (1 ≤ r.denominator ∧ r.denominator ≤ 4294967295) ∧ r.numerator ≤ r.denominator ∧
        r.numerator.Coprime r.denominator := by
  intro v
  exact ⟨by norm_num, by norm_num, writeFraction_lowest_terms v (by norm_num) (by norm_num)⟩

end Fraction

end CellDisplay
