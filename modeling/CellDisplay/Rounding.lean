/-! Rational numbers rounded to whole numbers. The two rules differ only on halves: `nearestEven`
sends a half to the even neighbour and `nearestAway` sends it away from zero. Every rounding in
this library, of a double or of a decimal text, is one of these two applied to an exact rational. -/
namespace CellDisplay.Rounding

/-- The nearest whole number; a half goes to the even neighbour. -/
def nearestEven (q : Rat) : Int :=
  let low := q.floor
  let excess := q - low
  if excess < 1 / 2 then low
  else if 1 / 2 < excess then low + 1
  else if low % 2 = 0 then low else low + 1

/-- The nearest whole number; a half goes away from zero. -/
def nearestAway (q : Rat) : Int :=
  if 0 ≤ q then (q + 1 / 2).floor else -(1 / 2 - q).floor

theorem nearestAway_neg_of_pos {q : Rat} (h : 0 < q) : nearestAway (-q) = -nearestAway q := by
  have neg : ¬ (0 : Rat) ≤ -q := by grind
  have sum : 1 / 2 - -q = q + 1 / 2 := by grind
  rw [nearestAway, nearestAway, if_neg neg, if_pos (Rat.le_of_lt h), sum]

end CellDisplay.Rounding
