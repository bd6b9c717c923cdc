import CellDisplay.Proofs.Number.Decimals
import CellDisplay.Render

/-! The symbol between quotes before an amount of money. It is written as it is and does not change
the category of the code, but the count of decimals is read from the first point of the whole code,
and that can be one in the symbol. No double is written alike with two counts of decimals
(`fixedPoint_amount_inj`), so this says exactly where the symbol changes the number. -/
namespace CellDisplay

/-! ### What the code asks for behind a symbol -/

namespace FormatCode

variable {mark : Char} {symbol : List Char}

theorem after?_singleton_cons (mark c : Char) (rest : List Char) :
    after? [mark] (c :: rest) = if mark = c then some rest else after? [mark] rest := by
  simp [after?, List.isPrefixOf]

/-- A text without the mark is passed over. -/
theorem after?_append {before : List Char} (h : mark ∉ before) (rest : List Char) :
    after? [mark] (before ++ rest) = after? [mark] rest := by
  induction before with
  | nil => rfl
  | cons c before ih =>
    rw [List.mem_cons, not_or] at h
    rw [List.cons_append, after?_singleton_cons, if_neg h.1, ih h.2]

theorem after?_eq_none (h : mark ∉ symbol) : after? [mark] symbol = none := by
  have := after?_append h []
  rwa [List.append_nil] at this

/-- A point in the symbol comes first, and no zero behind the closing quote is directly after it. -/
theorem decimals_quoted (symbol code : List Char) :
    decimals ('"' :: (symbol ++ '"' :: code)) =
      if '.' ∈ symbol then decimals symbol else decimals code := by
  unfold decimals
  rw [after?_singleton_cons, if_neg (by decide)]
  by_cases mem : '.' ∈ symbol
  · obtain ⟨before, behind, rfl, none⟩ := List.eq_append_cons_of_mem mem
    rw [if_pos mem, List.append_assoc, after?_append none, after?_append none, List.cons_append,
      after?_singleton_cons, after?_singleton_cons, if_pos rfl, if_pos rfl]
    dsimp only
    rw [List.takeWhile_append]
    split
    next all => simp [all]
    next => rfl
  · rw [if_neg mem, after?_append mem, after?_singleton_cons, if_neg (by decide)]

theorem currencySymbol_quoted (inside : '"' ∉ symbol) (code : List Char) :
    currencySymbol ('"' :: (symbol ++ '"' :: code)) = symbol := by
  have before : ∀ c ∈ symbol, decide (c ≠ '"') = true := by
    intro c mem
    exact decide_eq_true fun eq => inside (eq ▸ mem)
  rw [currencySymbol, after?_singleton_cons, if_pos rfl, Option.getD_some,
    List.takeWhile_append_of_pos before, List.takeWhile_cons_of_neg (by simp), List.append_nil]

theorem currencySymbol_of_not_mem {code : List Char} (none : '"' ∉ code) :
    currencySymbol code = [] := by
  rw [currencySymbol, after?_eq_none none]
  rfl

end FormatCode

/-- The mark of an amount of money is looked for first. -/
theorem Category.ofCode_eq_currency {code : List Char} (h : [',', '#'] <:+: code) :
    Category.ofCode .numeric code = .currency := by
  have found : Signature.matches ⟨[',', '#'], .currency⟩ code = true :=
    FormatCode.after?_isSome_iff.2 h
  simp only [ofCode, signatures, List.find?_cons, found]

/-! ### The count of decimals shows -/

namespace Decimal

theorem length_digits_le_succ (n : ℕ) : (digits n).length ≤ (digits (n + 1)).length := by
  have bound := (Nat.length_toDigits_le_iff (b := 10) (by norm_num)
    (Nat.length_toDigits_pos (b := 10) (n := n + 1))).1 le_rfl
  exact (Nat.length_toDigits_le_iff (by norm_num) Nat.length_toDigits_pos).2 (by omega)

/-- A number that takes one more digit than the number before it begins with another one. -/
theorem head?_digits_succ {n : ℕ} (longer : (digits n).length < (digits (n + 1)).length) :
    (digits n).head? ≠ (digits (n + 1)).head? := by
  have split {k : ℕ} (h : 10 ≤ k) : digits k = digits (k / 10) ++ [Nat.digitChar (k % 10)] :=
    Nat.toDigits_of_base_le (by decide) h
  have length {k : ℕ} (h : 10 ≤ k) : (digits k).length = (digits (k / 10)).length + 1 := by
    rw [split h, List.length_append, List.length_singleton]
  have head {k : ℕ} (h : 10 ≤ k) : (digits k).head? = (digits (k / 10)).head? := by
    have ne : digits (k / 10) ≠ [] := Nat.toDigits_ne_nil
    rw [split h, List.head?_append_of_ne_nil _ ne]
  induction n using Nat.strong_induction_on with
  | _ n ih =>
    rcases Nat.lt_or_ge n 10 with small | large
    · have single : ∀ k < 10, (digits k).length < (digits (k + 1)).length →
          (digits k).head? ≠ (digits (k + 1)).head? := by decide
      exact single n small longer
    · have large' : 10 ≤ n + 1 := by omega
      rw [length large, length large'] at longer
      have carry : (n + 1) / 10 = n / 10 + 1 := by
        by_contra none
        have same : (n + 1) / 10 = n / 10 := by omega
        rw [same] at longer
        omega
      rw [carry] at longer
      rw [head large, head large', carry]
      exact ih (n / 10) (by omega) (by omega)

end Decimal

namespace Binary64.Finite

open Rounding

variable (x : Finite)

/-- What is at most one is at most one before the point, whichever product is taken. -/
theorem scaled_le_tenPow {x : Finite} (h : x.magnitude ≤ 1) (decimals : ℕ) :
    x.scaled decimals ≤ 10 ^ decimals := by
  have exact : x.magnitude * 10 ^ decimals ≤ 10 ^ decimals :=
    mul_le_of_le_one_left (by positivity) h
  have le : (x.scaled decimals : ℤ) ≤ (10 ^ decimals : ℕ) := by
    rcases x.scaled_eq_nearestAway_or decimals with ⟨product, h, nonneg, small, count⟩ | count
    · obtain ⟨p, power, value⟩ := finite_of_mul_eq h
      rw [x.value_abs] at value
      rw [count]
      apply nearestAway_le nonneg
      push_cast
      rcases Nat.lt_or_ge 22 decimals with many | few
      · calc product.value ≤ 9007199254740992 := small.le
          _ ≤ 10 ^ 22 := by norm_num
          _ ≤ 10 ^ decimals := pow_le_pow_right₀ (by norm_num) many.le
      · rw [value, ← (hasValue_powerOfTen few).unique ⟨p, power, rfl⟩]
        exact (rounded_mono exact).trans_eq (rounded_of_holds (holds_tenPow few))
    · rw [count]
      apply nearestEven_le
      exact_mod_cast exact
  exact_mod_cast le

/-- Before the point stands the whole part of the number or the next whole number. -/
theorem scaled_div_eq_or (decimals : ℕ) :
    x.scaled decimals / 10 ^ decimals = x.magnitude.floor.toNat ∨
      x.scaled decimals / 10 ^ decimals = x.magnitude.floor.toNat + 1 := by
  have unit : 0 < 10 ^ decimals := by positivity
  rcases lt_or_ge x.magnitude (1 / 2) with small | half
  · have zero : x.magnitude.floor = 0 :=
      floor_eq (by simpa using x.magnitude_nonneg) (by norm_num; linarith)
    have one : x.scaled decimals / 10 ^ decimals ≤ 1 :=
      Nat.div_le_of_le_mul (by simpa using scaled_le_tenPow (by linarith) decimals)
    rw [zero, Int.toNat_zero]
    exact Nat.le_one_iff_eq_zero_or_eq_one.1 one
  · obtain ⟨whole, hwhole⟩ := Int.eq_ofNat_of_zero_le (Rat.le_floor_iff.2 x.magnitude_nonneg)
    have low : (whole : ℚ) ≤ x.magnitude := by exact_mod_cast hwhole ▸ floor_le x.magnitude
    have high : x.magnitude ≤ whole + 1 := by
      have := (lt_floor_add_one x.magnitude).le
      rw [hwhole] at this
      exact_mod_cast this
    have atLeast : whole * 10 ^ decimals ≤ x.scaled decimals := by
      apply le_scaled half
      push_cast
      exact mul_le_mul_of_nonneg_right low (by positivity)
    have atMost : x.scaled decimals ≤ (whole + 1) * 10 ^ decimals := by
      apply scaled_le half
      push_cast
      exact mul_le_mul_of_nonneg_right high (by positivity)
    have := (Nat.le_div_iff_mul_le unit).2 atLeast
    have := Nat.div_le_of_le_mul (Nat.mul_comm _ _ ▸ atMost)
    rw [hwhole, Int.toNat_natCast]
    omega

end Binary64.Finite

namespace Number

theorem length_grouped (separator : Char) (digits : List Char) :
    (grouped separator digits).length = digits.length + (digits.length - 1) / 3 := by
  induction digits with
  | nil => rfl
  | cons c rest ih =>
    simp only [grouped, ← List.length_pos_iff]
    split <;> simp only [List.length_cons, ih] <;> omega

theorem head?_grouped (separator : Char) (digits : List Char) :
    (grouped separator digits).head? = digits.head? := by
  cases digits with
  | nil => rfl
  | cons c rest =>
    rw [grouped]
    split <;> rfl

/-- A sign is told from the digit that follows it. -/
theorem append_left_cancel_sign {m n : Numeral} {a b : List Char} (ha : ∃ c ∈ a.head?, c.isDigit)
    (hb : ∃ c ∈ b.head?, c.isDigit) (h : m.sign ++ a = n.sign ++ b) : a = b := by
  obtain ⟨c, first, digit⟩ := ha
  obtain ⟨a, rfl⟩ := List.head?_eq_some_iff.1 first
  obtain ⟨d, first', digit'⟩ := hb
  obtain ⟨b, rfl⟩ := List.head?_eq_some_iff.1 first'
  have unsigned := congrArg (List.dropWhile (· = '-')) h
  rwa [dropWhile_sign m.sign_eq_or (ne_minus_of_isDigit digit),
    dropWhile_sign n.sign_eq_or (ne_minus_of_isDigit digit')] at unsigned

section Amount

variable {d e : ℕ} (point separator : Char) (x : Binary64.Finite)

/-- What is written of a number with separators behind its sign. -/
def unsignedAmount (d : ℕ) : List Char :=
  grouped separator (Decimal.digits (x.scaled d / 10 ^ d)) ++
    (Layout.numeral ⟨d, point, some separator⟩ (x.value < 0) (x.scaled d)).decimals point

theorem fixedPoint_amount (d : ℕ) :
    fixedPoint ⟨d, point, some separator⟩ (.finite x) =
      (Layout.numeral ⟨d, point, some separator⟩ (x.value < 0) (x.scaled d)).sign ++
        unsignedAmount point separator x d := by
  rw [fixedPoint, lt_zero_finite, scaledDigits, Layout.text_digits, Layout.whole_numeral,
    List.append_assoc]
  rfl

theorem head?_unsignedAmount (d : ℕ) :
    (unsignedAmount point separator x d).head? =
      (Decimal.digits (x.scaled d / 10 ^ d)).head? := by
  have ne : Decimal.digits (x.scaled d / 10 ^ d) ≠ [] := Nat.toDigits_ne_nil
  obtain ⟨c, rest, hd⟩ := List.exists_cons_of_ne_nil ne
  rw [unsignedAmount, List.head?_append, head?_grouped, hd]
  rfl

theorem length_unsignedAmount (d : ℕ) :
    (unsignedAmount point separator x d).length =
      (Decimal.digits (x.scaled d / 10 ^ d)).length +
        ((Decimal.digits (x.scaled d / 10 ^ d)).length - 1) / 3 + if d = 0 then 0 else d + 1 := by
  have fraction := Layout.length_fraction_numeral ⟨d, point, some separator⟩ (x.value < 0)
    (x.scaled d)
  dsimp only at fraction
  rw [unsignedAmount, List.length_append, length_grouped, Numeral.decimals]
  congr 1
  simp only [← List.length_eq_zero_iff, fraction]
  split
  · rfl
  · rw [List.length_cons, fraction]

/-- More decimals are not written alike: either the text is longer, or fewer decimals have rounded
up to one more digit before the point, and then the first digit is another. -/
theorem fixedPoint_amount_ne (lt : d < e) :
    fixedPoint ⟨d, point, some separator⟩ (.finite x) ≠
      fixedPoint ⟨e, point, some separator⟩ (.finite x) := by
  have first (k : ℕ) : ∃ c ∈ (unsignedAmount point separator x k).head?, c.isDigit := by
    obtain ⟨c, rest, hd⟩ := List.exists_cons_of_ne_nil
      (Nat.toDigits_ne_nil (b := 10) (n := x.scaled k / 10 ^ k))
    refine ⟨c, ?_, Decimal.isDigit_of_mem_digits (n := x.scaled k / 10 ^ k) ?_⟩
    · rw [head?_unsignedAmount, Decimal.digits, hd, List.head?_cons, Option.mem_some_iff]
    · rw [Decimal.digits, hd]
      exact List.mem_cons_self
  intro same
  rw [fixedPoint_amount, fixedPoint_amount] at same
  have same := append_left_cancel_sign (first d) (first e) same
  have heads := congrArg List.head? same
  have lengths := congrArg List.length same
  rw [head?_unsignedAmount, head?_unsignedAmount] at heads
  rw [length_unsignedAmount, length_unsignedAmount] at lengths
  have longer : (Decimal.digits (x.scaled e / 10 ^ e)).length <
      (Decimal.digits (x.scaled d / 10 ^ d)).length := by
    split_ifs at lengths <;> omega
  rcases x.scaled_div_eq_or d with hd | hd <;> rcases x.scaled_div_eq_or e with he | he <;>
    rw [hd, he] at longer heads
  · exact lt_irrefl _ longer
  · exact longer.not_ge (Decimal.length_digits_le_succ _)
  · exact Decimal.head?_digits_succ longer heads.symm
  · exact lt_irrefl _ longer

theorem fixedPoint_amount_inj :
    fixedPoint ⟨d, point, some separator⟩ (.finite x) =
      fixedPoint ⟨e, point, some separator⟩ (.finite x) ↔ d = e := by
  constructor
  · intro same
    rcases lt_trichotomy d e with lt | eq | gt
    · exact absurd same (fixedPoint_amount_ne point separator x lt)
    · exact eq
    · exact absurd same.symm (fixedPoint_amount_ne point separator x gt)
  · rintro rfl
    rfl

end Amount

/-! ### The symbol -/

theorem render_currency (options : Options) {code : List Char} (h : [',', '#'] <:+: code)
    (x : Binary64.Finite) :
    render options .numeric (.ofList code) (.number (.finite x)) =
      .ok (.ofList (FormatCode.currencySymbol code ++ fixedPoint ⟨FormatCode.decimals code,
        options.locale.point, some options.locale.separator⟩ (.finite x))) := by
  simp only [render, report, String.toList_ofList, Category.ofCode_eq_currency h, writeNumber]
  rfl

/-- A quoted symbol stands before an amount of money, whatever it holds. The number behind it is the
one that is written without it unless the symbol has a point with another count of zeros behind it
than the code's own. -/
theorem render_quoted_iff (options : Options) (x : Binary64.Finite) {symbol code : List Char}
    (inside : '"' ∉ symbol) (outside : '"' ∉ code) (amount : [',', '#'] <:+: code) :
    Category.ofCode .numeric code = .currency ∧
      Category.ofCode .numeric ('"' :: (symbol ++ '"' :: code)) = .currency ∧
      ∃ number shown,
        render options .numeric (.ofList code) (.number (.finite x)) = .ok (.ofList number) ∧
        render options .numeric (.ofList ('"' :: (symbol ++ '"' :: code))) (.number (.finite x)) =
          .ok (.ofList (symbol ++ shown)) ∧
        (shown = number ↔
          ('.' ∈ symbol → FormatCode.decimals symbol = FormatCode.decimals code)) := by
  have amount' : [',', '#'] <:+: '"' :: (symbol ++ '"' :: code) := by
    obtain ⟨before, behind, rfl⟩ := amount
    exact ⟨'"' :: (symbol ++ '"' :: before), behind, by simp⟩
  have plain := render_currency options amount x
  have marked := render_currency options amount' x
  rw [FormatCode.currencySymbol_of_not_mem outside, List.nil_append] at plain
  rw [FormatCode.currencySymbol_quoted inside, FormatCode.decimals_quoted] at marked
  refine ⟨Category.ofCode_eq_currency amount, Category.ofCode_eq_currency amount', _, _, plain,
    marked, ?_⟩
  rw [fixedPoint_amount_inj, ite_eq_right_iff]

/-- A symbol that is full of signs, with a point before as many zeros as the code has. -/
theorem render_quoted_same_decimals :
    let x : Binary64.Finite := ⟨true, 5429388417957888, -42, by decide⟩
    let symbol : List Char := ",#0%.00?/".toList
    let code : List Char := "#,##0.00".toList
    '"' ∉ symbol ∧ '"' ∉ code ∧ [',', '#'] <:+: code ∧
      ∃ number, render {} .numeric (.ofList code) (.number (.finite x)) = .ok (.ofList number) ∧
        render {} .numeric (.ofList ('"' :: (symbol ++ '"' :: code))) (.number (.finite x)) =
          .ok (.ofList (symbol ++ number)) := by
  intro x symbol code
  have inside : '"' ∉ symbol := by decide
  have outside : '"' ∉ code := by decide
  have amount : [',', '#'] <:+: code := ⟨['#'], "#0.00".toList, rfl⟩
  obtain ⟨-, -, number, shown, plain, marked, same⟩ := render_quoted_iff {} x inside outside amount
  obtain rfl := same.2 fun _ => by decide
  exact ⟨inside, outside, amount, shown, plain, marked⟩

/-- The point of an abbreviated symbol takes the decimals from a number. -/
theorem render_quoted_drops_decimals :
    let x : Binary64.Finite := ⟨false, 5429388417957888, -42, by decide⟩
    render {} .numeric "#,##0.00" (.number (.finite x)) = .ok "1,234.50" ∧
      render {} .numeric "\"kr.\"#,##0.00" (.number (.finite x)) = .ok "kr.1,235" := by
  decide +kernel

end Number

end CellDisplay
