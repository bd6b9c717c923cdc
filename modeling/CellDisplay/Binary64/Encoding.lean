import CellDisplay.Binary64.Basic

/-! The standard bit patterns of doubles: a sign, a biased exponent and a fraction, packed from the
top. `ofBits` reads the 64-bit pattern and `toBits` writes it, a NaN always as the quiet pattern
without payload; reading a written finite double gives it back (`ofBits_toBits`). `ofSingleBits`
reads a 32-bit pattern, whose every value is a double too. -/
namespace CellDisplay.Binary64

/-- The three fields of a bit pattern. -/
structure Fields where
  negative : Bool
  exponent : Nat
  fraction : Nat
  deriving DecidableEq

namespace Fields

/-- The fields of a pattern with `exponents` exponent codes and `fractions` fraction codes. -/
def ofBits (exponents fractions bits : Nat) : Fields where
  negative := bits / fractions / exponents % 2 = 1
  exponent := bits / fractions % exponents
  fraction := bits % fractions

def toBits (exponents fractions : Nat) (f : Fields) : Nat :=
  ((if f.negative then exponents else 0) + f.exponent) * fractions + f.fraction

theorem ofBits_toBits {exponents fractions : Nat} {f : Fields} (he : f.exponent < exponents)
    (hf : f.fraction < fractions) :
    ofBits exponents fractions (f.toBits exponents fractions) = f := by
  obtain ⟨negative, e, r⟩ := f
  have head (n : Nat) : (n * fractions + r) / fractions = n := by
    rw [Nat.mul_comm, Nat.mul_add_div (by omega), Nat.div_eq_of_lt hf, Nat.add_zero]
  cases negative <;>
    simp [ofBits, toBits, head, Nat.mul_add_mod_self_right, Nat.mod_eq_of_lt hf,
      Nat.mod_eq_of_lt he, Nat.div_eq_of_lt he, Nat.add_div_left e (show 0 < exponents by omega)]

end Fields

def ofBits (bits : Nat) : Binary64 :=
  let f := Fields.ofBits 2048 4503599627370496 bits
  if f.exponent = 2047 then (if f.fraction = 0 then .infinite f.negative else .nan)
  else if f.exponent = 0 then pack f.negative f.fraction (-1074)
  else pack f.negative (4503599627370496 + f.fraction) ((f.exponent : Int) - 1075)

/-- The leading significand bit is implied by a positive exponent field. -/
def Finite.fields (x : Finite) : Fields :=
  if x.significand < 4503599627370496 then ⟨x.negative, 0, x.significand⟩
  else ⟨x.negative, (x.exponent + 1075).toNat, x.significand - 4503599627370496⟩

def fields : Binary64 → Fields
  | .nan => ⟨false, 2047, 2251799813685248⟩
  | .infinite negative => ⟨negative, 2047, 0⟩
  | .finite x => x.fields

def toBits (x : Binary64) : Nat := x.fields.toBits 2048 4503599627370496

/-- Every finite single-precision number is a double, so the rounding in `ofMagnitude` is exact. -/
def ofSingleBits (bits : Nat) : Binary64 :=
  let f := Fields.ofBits 256 8388608 bits
  if f.exponent = 255 then (if f.fraction = 0 then .infinite f.negative else .nan)
  else if f.exponent = 0 then
    ofMagnitude f.negative ((f.fraction : Rat) * (2 : Rat) ^ (-149 : Int))
  else
    ofMagnitude f.negative
      (((8388608 + f.fraction : Nat) : Rat) * (2 : Rat) ^ ((f.exponent : Int) - 150))

theorem ofBits_toBits (x : Binary64) : ofBits x.toBits = x := by
  have small : x.fields.exponent < 2048 ∧ x.fields.fraction < 4503599627370496 := by
    rcases x with _ | _ | ⟨negative, m, e, h⟩
    · simp [fields]
    · simp [fields]
    · simp only [Canonical] at h
      by_cases low : m < 4503599627370496
      · simp [fields, Finite.fields, low]
      · simp only [fields, Finite.fields, if_neg low]
        omega
  rw [ofBits, toBits, Fields.ofBits_toBits small.1 small.2]
  rcases x with _ | _ | ⟨negative, m, e, h⟩
  · rfl
  · rfl
  · have bounds := h
    simp only [Canonical] at bounds
    by_cases low : m < 4503599627370496
    · obtain rfl : e = -1074 := by omega
      simp [fields, Finite.fields, low, pack, h]
    · have e1 : (e + 1075).toNat ≠ 2047 := by omega
      have e2 : (e + 1075).toNat ≠ 0 := by omega
      have e3 : ((e + 1075).toNat : Int) - 1075 = e := by omega
      have m1 : 4503599627370496 + (m - 4503599627370496) = m := by omega
      simp only [fields, Finite.fields, if_neg low, if_neg e1, if_neg e2, e3, m1, pack, dif_pos h]

end CellDisplay.Binary64
