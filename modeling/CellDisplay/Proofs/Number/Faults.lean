import CellDisplay.Proofs.DateCode.Round
import CellDisplay.Proofs.Fraction.Denominator
import CellDisplay.Proofs.Fraction.Words
import CellDisplay.Proofs.Number.Accuracy

/-! Numbers written in steps that can fail. Digits are split at a byte, which may lie inside a
character or behind the last one, and a difference of lengths may be below zero; a formatter keeps
widths in 16 bits, exponents have 32, and fractions are sought in words. For a finite number none of
these steps fails as long as the decimals of its code fit a formatter, and what is written is the
text of `writeNumber` (`writeNumber?_eq`). -/
namespace CellDisplay

open Binary64 DateCode Fraction

/-! ### Characters of one byte -/

namespace DateCode.OneByte

variable {text : List Char} (ascii : OneByte text)
include ascii

theorem leftpad (width : ℕ) : OneByte (text.leftpad width '0') := by
  intro c mem
  rw [List.leftpad, List.mem_append] at mem
  rcases mem with mem | mem
  · obtain rfl := List.eq_of_mem_replicate mem
    rfl
  · exact ascii c mem

theorem take (n : ℕ) : OneByte (text.take n) := fun c mem => ascii c (List.mem_of_mem_take mem)

theorem byteLength_take {n : ℕ} (le : n ≤ text.length) : byteLength (text.take n) = n := by
  rw [(ascii.take n).byteLength_eq, List.length_take, Nat.min_eq_left le]

theorem takeBytes?_eq {n : ℕ} (le : n ≤ text.length) : takeBytes? n text = some (text.take n) := by
  have taken := takeBytes?_byteLength (text.take n) (text.drop n)
  rwa [ascii.byteLength_take le, List.take_append_drop] at taken

theorem dropBytes?_eq {n : ℕ} (le : n ≤ text.length) : dropBytes? n text = some (text.drop n) := by
  have dropped := dropBytes?_byteLength (text.take n) (text.drop n)
  rwa [ascii.byteLength_take le, List.take_append_drop] at dropped

end DateCode.OneByte

/-! ### A fixed count of decimals -/

namespace Number

/-- A width that a formatter can keep. -/
def width? (n : ℕ) : Option ℕ := if n < 65536 then some n else none

/-- Groups of three. A digit has a separator before it where the digits from there on are a multiple
of three; they are counted by the position of the digit. -/
def grouped? (separator : Char) (size : ℕ) : ℕ → List Char → Option (List Char)
  | _, [] => some []
  | position, c :: rest => do
    let left ← Word.sub? size position
    let tail ← grouped? separator size (position + 1) rest
    return if 0 < position ∧ left % 3 = 0 then separator :: c :: tail else c :: tail

/-- What follows a digit. -/
def groupedBehind (separator : Char) (digits : List Char) : List Char :=
  if digits ≠ [] ∧ digits.length % 3 = 0 then separator :: grouped separator digits
  else grouped separator digits

theorem grouped_cons (separator c : Char) (rest : List Char) :
    grouped separator (c :: rest) = c :: groupedBehind separator rest := by
  rw [grouped, groupedBehind]
  split <;> rfl

theorem grouped?_behind (separator : Char) {digits : List Char} {position : ℕ}
    (pos : 0 < position) :
    grouped? separator (position + digits.length) position digits =
      some (groupedBehind separator digits) := by
  induction digits generalizing position with
  | nil => rfl
  | cons c rest ih =>
    have left : Word.sub? (position + (c :: rest).length) position = some (c :: rest).length :=
      (Word.sub?_eq (Nat.le_add_right _ _)).trans (congrArg some (Nat.add_sub_cancel_left _ _))
    have size : position + (c :: rest).length = position + 1 + rest.length := by
      rw [List.length_cons]
      omega
    have tail := ih (Nat.succ_pos position)
    rw [← size] at tail
    simp only [grouped?, left, tail, Option.bind_eq_bind, Option.bind_some, groupedBehind,
      grouped_cons, pos, true_and, ne_eq, reduceCtorEq, not_false_eq_true]
    split <;> rfl

theorem grouped?_eq (separator : Char) (digits : List Char) :
    grouped? separator digits.length 0 digits = some (grouped separator digits) := by
  cases digits with
  | nil => rfl
  | cons c rest =>
    have tail : grouped? separator (1 + rest.length) 1 rest = _ :=
      grouped?_behind separator Nat.one_pos
    rw [Nat.add_comm] at tail
    simp only [grouped?, List.length_cons, Word.sub?_eq (Nat.zero_le _), tail, Option.bind_eq_bind,
      Option.bind_some, grouped_cons, Nat.lt_irrefl, false_and, if_false, Nat.zero_add]
    rfl

namespace Layout

def wholePart? (layout : Layout) (digits : List Char) : Option (List Char) :=
  match layout.separator with
  | some separator => grouped? separator (byteLength digits) 0 digits
  | none => some digits

/-- The digits padded to one before the point, and split at the byte where the decimals begin. -/
def text? (layout : Layout) (negative : Bool) (digits : List Char) : Option (List Char) := do
  let width ← width? (layout.decimals + 1)
  let all := digits.leftpad width '0'
  let size ← Word.sub? (byteLength all) layout.decimals
  let whole ← layout.wholePart? (← takeBytes? size all)
  let fraction ← dropBytes? size all
  return (if negative && all.any (· ≠ '0') then ['-'] else []) ++ whole ++
    layout.fractionPart fraction

variable {layout : Layout} {digits : List Char}

theorem wholePart?_eq (ascii : OneByte digits) :
    layout.wholePart? digits = some (layout.wholePart digits) := by
  rw [wholePart?, wholePart, ascii.byteLength_eq]
  cases layout.separator with
  | none => rfl
  | some separator => exact grouped?_eq separator digits

/-- Digits of one byte each can be split between any two of them. -/
theorem text?_eq (fits : layout.decimals < 65535) (ascii : OneByte digits) (negative : Bool) :
    layout.text? negative digits = some (layout.text negative digits) := by
  have width : width? (layout.decimals + 1) = some (layout.decimals + 1) := if_pos (by omega)
  have padded := ascii.leftpad (layout.decimals + 1)
  have long : layout.decimals ≤ (digits.leftpad (layout.decimals + 1) '0').length := by
    rw [List.length_leftpad]
    omega
  simp only [text?, text, width, Option.bind_eq_bind, Option.bind_some]
  generalize digits.leftpad (layout.decimals + 1) '0' = all at *
  have before : all.length - layout.decimals ≤ all.length := Nat.sub_le _ _
  simp only [padded.byteLength_eq, Word.sub?_eq long, padded.takeBytes?_eq before,
    padded.dropBytes?_eq before, wholePart?_eq (padded.take _), Option.bind_some]
  rfl

end Layout

theorem oneByte_scaledDigits (decimals : ℕ) (x : Binary64) : OneByte (scaledDigits decimals x) := by
  cases x with
  | nan => exact show OneByte "NaN".toList by decide
  | infinite => exact show OneByte "inf".toList by decide
  | finite x =>
    intro c mem
    have digit := Decimal.isDigit_of_mem_digits mem
    rw [Char.isDigit, Bool.and_eq_true, decide_eq_true_eq, decide_eq_true_eq] at digit
    exact Char.utf8Size_eq_one_iff.2 (Nat.le_trans digit.2 (by decide))

/-- The number rounded to the layout's decimals. -/
def fixedPoint? (layout : Layout) (x : Binary64) : Option (List Char) :=
  layout.text? (x.lt .zero) (scaledDigits layout.decimals x)

theorem fixedPoint?_eq {layout : Layout} (fits : layout.decimals < 65535) (x : Binary64) :
    fixedPoint? layout x = some (fixedPoint layout x) :=
  Layout.text?_eq fits (oneByte_scaledDigits _ x) _

/-! ### Exponential notation -/

/-- An exponent of 32 bits. -/
def exponent? (e : ℤ) : Option ℤ := if -2147483648 ≤ e ∧ e < 2147483648 then some e else none

def mantissa? (layout : Layout) (x : Binary64) (e : ℤ) : Option (List Char) :=
  fixedPoint? layout (scaleDown x e)

/-- The adjusted exponent, one more after a mantissa of ten. -/
def finalExponent? (start : ℤ) (layout : Layout) (x : Binary64) : Option ℤ := do
  let adjusted ← exponent? (adjustedExponent start x)
  let written ← mantissa? layout x adjusted
  if startsWithTen written then exponent? (adjusted + 1) else some adjusted

/-- Mantissa and exponent, from a first guess of the exponent. -/
def scientificFrom? (start : ℤ) (layout : Layout) (x : Binary64) : Option (List Char) := do
  let last ← finalExponent? start layout x
  let written ← mantissa? layout x last
  return written ++ exponentText last

def scientific? (layout : Layout) (x : Binary64) : Option (List Char) :=
  if x.isZero then (fixedPoint? layout .zero).map (· ++ exponentText 0)
  else scientificFrom? x.abs.logarithm layout x

section

variable {layout : Layout} (fits : layout.decimals < 65535)
include fits

theorem mantissa?_eq (x : Binary64) (e : ℤ) :
    mantissa? layout x e = some (mantissa layout x e) := fixedPoint?_eq fits _

section

variable {x : Finite} (nonzero : x.isZero = false) {start : ℤ} (guess : Guesses start x.magnitude)
include nonzero guess

theorem finalExponent?_eq :
    finalExponent? start layout (finite x) = some (finalExponent start layout (finite x)) := by
  obtain ⟨r, adjusted⟩ := exists_adjusted nonzero guess
  have below := adjusted.exponent_lt
  have most := (div_le_iff₀ (ten_zpow_pos _)).1 adjusted.between.2
  have above := lt_exponent nonzero (most.trans (by gcongr; norm_num))
  rw [finalExponent?, finalExponent]
  generalize adjustedExponent start (finite x) = e at *
  have same : exponent? e = some e := if_pos (by omega)
  have next : exponent? (e + 1) = some (e + 1) := if_pos (by omega)
  simp only [same, next, mantissa?_eq fits, Option.bind_eq_bind, Option.bind_some, apply_ite some]

theorem scientificFrom?_eq :
    scientificFrom? start layout (finite x) = some (scientificFrom start layout (finite x)) := by
  simp only [scientificFrom?, finalExponent?_eq fits nonzero guess, mantissa?_eq fits,
    Option.bind_eq_bind, Option.bind_some]
  rfl

end

theorem scientific?_eq (x : Finite) :
    scientific? layout (finite x) = some (scientific layout (finite x)) := by
  cases zero : x.isZero with
  | false =>
    rw [scientific_of_nonzero layout zero, scientific?, if_neg (not_isZero_finite zero)]
    exact scientificFrom?_eq fits zero (guesses_logarithm zero)
  | true =>
    have zero : (finite x).isZero := zero
    rw [scientific?, scientific, if_pos zero, if_pos zero, fixedPoint?_eq fits, Option.map_some]

end

end Number

/-! ### Fractions -/

namespace Fraction

/-- The fraction for the part of a number above its floor, which is sought in so many turns at
most. -/
def Spec.ratio? (turns : ℕ) (spec : Spec) (rest : Binary64) : Option Ratio :=
  if spec.mode = .approximate && !spec.overflows then loop? rest spec.limit turns rest .start
  else some ⟨fixedNumerator rest spec.limit, spec.limit⟩

/-- The Fibonacci numbers up to a billion are turns enough for every code. -/
theorem ReadsAs.exists_ratio? {signs : List Char} {spec : Spec} (h : ReadsAs signs spec)
    (v : Finite) : ∃ turns, Nat.fib turns ≤ 10 ^ 9 ∧
      spec.ratio? (turns + 1) (finite v - ofInt v.value.floor) =
        some (spec.ratio (finite v - ofInt v.value.floor)) := by
  rw [Spec.ratio]
  simp only [Spec.ratio?]
  split
  next approximates =>
    have mode : spec.mode = .approximate := by simp_all
    have le := h.limit_le mode
    obtain ⟨rest, same, nonneg, most⟩ := exists_rest v
    rw [same]
    obtain ⟨turns, few, ends⟩ :=
      loop?_best (hasValue_finite rest) nonneg most h.limit_pos (le.trans_lt (by norm_num))
    exact ⟨turns, few.trans le, ends⟩
  next => exact ⟨0, Nat.zero_le _, rfl⟩

end Fraction

def writeFraction? (turns : ℕ) (spec : Fraction.Spec) (v : Finite) : Option Written :=
  (spec.ratio? turns (finite v - ofInt v.value.floor)).map fun r =>
    (.ofList (Decimal.paddedInt 1 v.value.floor ++ ' ' :: r.text),
      if spec.overflows then some (.fractionOverflow spec.limit) else none)

/-! ### Every category -/

/-- The decimals that a category takes from a code. -/
def Category.decimals (category : Category) (code : List Char) : ℕ :=
  match category with
  | .currency | .scientific | .fixedDecimal => FormatCode.decimals code
  | .percentage => FormatCode.percentDecimals code
  | .fraction | .general | .dateTime => 0

/-- A number for a code of the given category. -/
def writeNumber? (turns : ℕ) (locale : Locale) (category : Category) (code : String) (v : Finite) :
    Option Written :=
  let layout := Number.decimalLayout locale code.toList
  match category with
  | .currency =>
    (Number.fixedPoint? { layout with separator := some locale.separator } (finite v)).map
      fun text => (.ofList (FormatCode.currencySymbol code.toList ++ text), none)
  | .percentage =>
    (Number.fixedPoint? ⟨FormatCode.percentDecimals code.toList, locale.point, none⟩
      (finite v * ofInt 100)).map fun text => (.ofList (text ++ ['%']), none)
  | .scientific => (Number.scientific? layout (finite v)).map fun text => (.ofList text, none)
  | .fixedDecimal => (Number.fixedPoint? layout (finite v)).map fun text => (.ofList text, none)
  | .fraction =>
    match Fraction.Spec.ofCode? code.toList with
    | some spec => writeFraction? turns spec v
    | none =>
      some (.ofList (finite v).text, some (.malformedFormat code .unrecognizedDenominator))
  | .general | .dateTime => some (.ofList (finite v).text, none)

/-- No step fails for a code whose decimals fit a formatter. -/
theorem writeNumber?_eq (locale : Locale) {category : Category} {code : String}
    (fits : category.decimals code.toList < 65535) (v : Finite) :
    ∃ turns, Nat.fib turns ≤ 10 ^ 9 ∧ writeNumber? (turns + 1) locale category code v =
      some (writeNumber locale category code (finite v)) := by
  cases category with
  | fraction =>
    simp only [writeNumber?, writeNumber]
    cases read : Spec.ofCode? code.toList with
    | none => exact ⟨0, Nat.zero_le _, rfl⟩
    | some spec =>
      obtain ⟨signs, -, reads⟩ := Spec.ofCode?_eq_some_iff.1 read
      obtain ⟨turns, few, found⟩ := reads.exists_ratio? v
      refine ⟨turns, few, ?_⟩
      simp only [writeFraction?, found, Option.map_some]
      rfl
  | scientific =>
    refine ⟨0, Nat.zero_le _, ?_⟩
    have written : Number.scientific? (Number.decimalLayout locale code.toList) (finite v) = _ :=
      Number.scientific?_eq fits v
    rw [writeNumber?, written]
    rfl
  | currency | percentage | fixedDecimal =>
    refine ⟨0, Nat.zero_le _, ?_⟩
    rw [writeNumber?, Number.fixedPoint?_eq fits]
    rfl
  | general | dateTime => exact ⟨0, Nat.zero_le _, rfl⟩

end CellDisplay
