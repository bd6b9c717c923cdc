import CellDisplay.Proofs.Fraction.Nearest
import CellDisplay.Render
import Mathlib.Data.List.TakeWhile

/-! What the denominator of a fraction code asks for. The table of common codes agrees with the
reading of the signs (`Spec.ofCode?_eq_ofDenominator?`), so a code asks for one of two things: up to
nine question marks for a limit of as many zeros, digits for a denominator of their value. That is
what it is read as, but for one kind of code: question marks are counted in 32 bits, and so many of
them that the count comes round to nine or less are read as that few (`Wraps`). A finite number in
a numeric cell is written with a positive denominator, or plainly where the code is read as nothing;
a limit is too small to approximate just where the count comes round to none
(`report_denominators`). -/
namespace CellDisplay.Fraction

open Binary64

/-! ### The signs of a denominator -/

/-- A question mark or a digit. -/
def IsSign (c : Char) : Prop := c = '?' ∨ c.isDigit

/-- The signs right behind the first slash that follows a question mark, as far as they go. -/
def HasSigns (code signs : List Char) : Prop :=
  ∃ head tail, code = head ++ (['?', '/'] ++ (signs ++ tail)) ∧
    (∀ other rest, code = other ++ (['?', '/'] ++ rest) → head.length ≤ other.length) ∧
    (∀ c ∈ signs, IsSign c) ∧ ∀ c ∈ tail.head?, ¬ IsSign c

theorem takeWhile_isSign_iff {text signs : List Char} :
    (text.takeWhile fun c => c = '?' || c.isDigit) = signs ↔
      ∃ tail, text = signs ++ tail ∧ (∀ c ∈ signs, IsSign c) ∧ ∀ c ∈ tail.head?, ¬ IsSign c := by
  constructor
  · rintro rfl
    refine ⟨_, List.takeWhile_append_dropWhile.symm, fun c mem => ?_, fun c mem => ?_⟩
    · simpa [IsSign] using List.mem_takeWhile_imp mem
    · have := List.head?_dropWhile_not (fun c => c = '?' || c.isDigit) text
      simp_all [IsSign]
  · rintro ⟨tail, rfl, inside, stop⟩
    rw [List.takeWhile_append_of_pos (by simpa [IsSign] using inside)]
    cases tail with
    | nil => rw [List.takeWhile_nil, List.append_nil]
    | cons c tail =>
      have stop : ¬ IsSign c := stop c rfl
      rw [List.takeWhile_cons_of_neg (by simpa [IsSign] using stop), List.append_nil]

theorem hasSigns_iff {code signs : List Char} :
    HasSigns code signs ↔
      ∃ rest, FormatCode.after? ['?', '/'] code = some rest ∧
        (rest.takeWhile fun c => c = '?' || c.isDigit) = signs := by
  simp only [takeWhile_isSign_iff, FormatCode.after?_eq_some_iff]
  constructor
  · rintro ⟨head, tail, split, first, run⟩
    exact ⟨signs ++ tail, ⟨head, split, first⟩, tail, rfl, run⟩
  · rintro ⟨rest, ⟨head, split, first⟩, tail, rfl, run⟩
    exact ⟨head, tail, split, first, run⟩

theorem HasSigns.unique {code signs others : List Char} (h : HasSigns code signs)
    (h' : HasSigns code others) : signs = others := by
  obtain ⟨rest, found, rfl⟩ := hasSigns_iff.1 h
  obtain ⟨rest', found', rfl⟩ := hasSigns_iff.1 h'
  rw [found, Option.some_inj] at found'
  rw [found']

/-! ### What they ask for, and what they are read as -/

/-- What signs ask for. A question mark for each digit sets a limit that is itself one digit longer;
digits are the denominator. -/
inductive Asks : List Char → Spec → Prop
  | upTo {n : ℕ} (one : 1 ≤ n) (few : n ≤ 9) :
      Asks (List.replicate n '?') ⟨10 ^ n, .approximate⟩
  | exactly {digits : List Char} {k : ℕ} (nonempty : digits ≠ [])
      (isDigit : ∀ c ∈ digits, c.isDigit)
      (value : Nat.ofDigitChars 10 digits 0 = k) (pos : 1 ≤ k) (small : k < 4294967296) :
      Asks digits ⟨k, .fixed⟩

/-- A count beyond 32 bits that comes round to nine or less. -/
def Wraps (n : ℕ) : Prop := 4294967296 ≤ n ∧ n % 4294967296 ≤ 9

/-- What signs are read as: what they ask for, and what is left of a count that wraps. -/
inductive ReadsAs : List Char → Spec → Prop
  | asked {signs : List Char} {spec : Spec} (asks : Asks signs spec) : ReadsAs signs spec
  | wrapped {n : ℕ} (wraps : Wraps n) :
      ReadsAs (List.replicate n '?') ⟨10 ^ (n % 4294967296), .approximate⟩

theorem readsAs_replicate {n : ℕ} (pos : 0 < n) (few : n % 4294967296 ≤ 9) :
    ReadsAs (List.replicate n '?') ⟨10 ^ (n % 4294967296), .approximate⟩ := by
  rcases Nat.lt_or_ge n 4294967296 with small | large
  · rw [Nat.mod_eq_of_lt small] at few ⊢
    exact .asked (.upTo pos few)
  · exact .wrapped ⟨large, few⟩

/-- A question mark is no digit, so more than nine of them ask for nothing. -/
theorem Asks.le_nine {n : ℕ} {spec : Spec} (h : Asks (List.replicate n '?') spec) : n ≤ 9 := by
  generalize same : List.replicate n '?' = signs at h
  cases h with
  | @upTo m _ few =>
    have lengths := congrArg List.length same
    rw [List.length_replicate, List.length_replicate] at lengths
    exact lengths ▸ few
  | exactly nonempty isDigit =>
    obtain ⟨c, mem⟩ := List.exists_mem_of_ne_nil _ nonempty
    obtain rfl : c = '?' := List.eq_of_mem_replicate (same ▸ mem)
    exact absurd (isDigit '?' mem) (by decide)

namespace Spec

theorem powerOfTen?_eq_some_iff {count limit : ℕ} :
    powerOfTen? count = some limit ↔ count ≤ 9 ∧ limit = 10 ^ count := by
  have below : 10 ^ count < 4294967296 ↔ count ≤ 9 := by
    constructor
    · intro small
      by_contra! many
      have : 10 ^ 10 ≤ 10 ^ count := Nat.pow_le_pow_right (by norm_num) many
      omega
    · intro few
      have : 10 ^ count ≤ 10 ^ 9 := Nat.pow_le_pow_right (by norm_num) few
      omega
  simp only [powerOfTen?, Nat.pow_eq, below, Option.ite_none_right_eq_some, Option.some_inj]
  exact and_congr_right fun _ => eq_comm

theorem ofDenominator?_replicate {n : ℕ} (pos : 0 < n) (few : n % 4294967296 ≤ 9) :
    ofDenominator? (List.replicate n '?') = some ⟨10 ^ (n % 4294967296), .approximate⟩ := by
  have nonempty : n ≠ 0 := pos.ne'
  simp [ofDenominator?, nonempty, powerOfTen?_eq_some_iff.2 ⟨few, rfl⟩]

theorem ofDenominator?_eq_some_iff {signs : List Char} {spec : Spec} :
    ofDenominator? signs = some spec ↔ ReadsAs signs spec := by
  constructor
  · intro h
    rw [ofDenominator?] at h
    split at h
    next empty => contradiction
    rename_i nonempty
    rw [List.isEmpty_iff] at nonempty
    split at h
    next marks =>
      have same : signs = List.replicate signs.length '?' :=
        List.eq_replicate_length.2 (by simpa using marks)
      obtain ⟨limit, power, rfl⟩ := Option.map_eq_some_iff.1 h
      obtain ⟨few, rfl⟩ := powerOfTen?_eq_some_iff.1 power
      have reads := readsAs_replicate (List.length_pos_iff.2 nonempty) few
      rwa [← same] at reads
    split at h
    next digits =>
      dsimp only at h
      split at h
      next range =>
        obtain rfl := Option.some_inj.1 h
        exact .asked (.exactly nonempty (List.all_eq_true.1 digits) rfl range.1 range.2)
      next => contradiction
    next => contradiction
  · rintro ((⟨one, few⟩ | ⟨nonempty, isDigit, rfl, pos, small⟩) | ⟨large, few⟩)
    · rename_i n
      have same : n % 4294967296 = n := Nat.mod_eq_of_lt (by omega)
      simpa only [same] using ofDenominator?_replicate one (by omega)
    · obtain ⟨c, signs, rfl⟩ := List.exists_cons_of_ne_nil nonempty
      have noMark : c ≠ '?' := by
        rintro rfl
        exact absurd (isDigit '?' List.mem_cons_self) (by decide)
      have all : (c :: signs).all Char.isDigit := List.all_eq_true.2 isDigit
      rw [ofDenominator?, if_neg (by simp), if_neg (by simp [noMark]), if_pos all,
        if_pos ⟨pos, small⟩]
    · exact ofDenominator?_replicate (by omega) few

/-- The table says nothing that the signs do not say. -/
theorem ofCode?_eq_ofDenominator? (code : List Char) :
    ofCode? code = ofDenominator? (denominatorSigns code) := by
  have agrees : ∀ entry ∈ table,
      some ⟨entry.2, if FormatCode.contains ['?', '/', '?'] entry.1.toList then .approximate
        else .fixed⟩ = ofDenominator? (denominatorSigns entry.1.toList) := by decide
  rw [ofCode?]
  split
  next limit found =>
    obtain ⟨mem, same⟩ := And.intro (List.mem_of_find?_eq_some found) (List.find?_some found)
    have same := of_decide_eq_true same
    rw [← same]
    exact agrees _ mem
  next => rfl

theorem ofCode?_eq_some_iff {code : List Char} {spec : Spec} :
    ofCode? code = some spec ↔ ∃ signs, HasSigns code signs ∧ ReadsAs signs spec := by
  simp only [ofCode?_eq_ofDenominator?, ofDenominator?_eq_some_iff, denominatorSigns, hasSigns_iff]
  cases FormatCode.after? ['?', '/'] code with
  | none =>
    refine iff_of_false (fun reads => ?_) (by simp)
    rw [Option.getD_none, List.takeWhile_nil, ← ofDenominator?_eq_some_iff] at reads
    contradiction
  | some rest => simp

/-- A code is read as what it asks for, unless its question marks wrap. -/
theorem ofCode?_asked_iff {code : List Char} :
    (∀ spec, ofCode? code = some spec ↔ ∃ signs, HasSigns code signs ∧ Asks signs spec) ↔
      ¬ ∃ n, Wraps n ∧ HasSigns code (List.replicate n '?') := by
  constructor
  · rintro asked ⟨n, wraps, marks⟩
    obtain ⟨signs, has, asks⟩ := (asked _).1 (ofCode?_eq_some_iff.2 ⟨_, marks, .wrapped wraps⟩)
    obtain rfl := has.unique marks
    have := asks.le_nine
    have := wraps.1
    omega
  · intro bounded spec
    rw [ofCode?_eq_some_iff]
    constructor
    · rintro ⟨_, has, asks | wraps⟩
      · exact ⟨_, has, asks⟩
      · exact absurd ⟨_, wraps, has⟩ bounded
    · rintro ⟨signs, has, asks⟩
      exact ⟨signs, has, .asked asks⟩

end Spec

/-! ### The limits and the text -/

theorem ReadsAs.limit_pos {signs : List Char} {spec : Spec} (h : ReadsAs signs spec) :
    0 < spec.limit := by
  rcases h with (_ | ⟨_, _, _, pos⟩) | _
  · exact Nat.pow_pos (by norm_num)
  · exact pos
  · exact Nat.pow_pos (by norm_num)

theorem ReadsAs.limit_le {signs : List Char} {spec : Spec} (h : ReadsAs signs spec)
    (mode : spec.mode = .approximate) : spec.limit ≤ 10 ^ 9 := by
  rcases h with (⟨_, few⟩ | _) | ⟨_, few⟩
  · exact Nat.pow_le_pow_right (by norm_num) few
  · contradiction
  · exact Nat.pow_le_pow_right (by norm_num) few

/-- The only limit that is too small to approximate is one. -/
theorem ReadsAs.overflows_iff {signs : List Char} {spec : Spec} (h : ReadsAs signs spec) :
    spec.overflows ↔ spec = ⟨1, .approximate⟩ := by
  have pos := h.limit_pos
  obtain ⟨limit, mode⟩ := spec
  simp only [Spec.overflows, Bool.and_eq_true, decide_eq_true_eq, Spec.mk.injEq] at pos ⊢
  rw [and_comm]
  exact and_congr_left fun _ => by omega

/-- A code has the limit one just where the count of its question marks comes round to none. -/
theorem Spec.ofCode?_eq_one_iff {code : List Char} :
    ofCode? code = some ⟨1, .approximate⟩ ↔
      ∃ n, 0 < n ∧ n % 4294967296 = 0 ∧ HasSigns code (List.replicate n '?') := by
  rw [ofCode?_eq_some_iff]
  constructor
  · rintro ⟨signs, has, reads⟩
    generalize same : (⟨1, .approximate⟩ : Spec) = spec at reads
    rcases reads with (⟨one, few⟩ | _) | ⟨large, few⟩
    · rename_i n
      have := (Nat.pow_eq_one.1 (congrArg Spec.limit same).symm).resolve_left (by norm_num)
      omega
    · cases same
    · rename_i n
      have round := (Nat.pow_eq_one.1 (congrArg Spec.limit same).symm).resolve_left (by norm_num)
      exact ⟨n, by omega, round, has⟩
  · rintro ⟨n, pos, round, has⟩
    have reads := readsAs_replicate pos (round ▸ Nat.zero_le 9)
    rw [round] at reads
    exact ⟨_, has, reads⟩

theorem ReadsAs.ratio_denominator_pos {signs : List Char} {spec : Spec} (h : ReadsAs signs spec)
    (v : Finite) : 0 < (spec.ratio (finite v - ofInt v.value.floor)).denominator := by
  rw [Spec.ratio]
  split
  next approximates =>
    have mode : spec.mode = .approximate := by simp_all
    obtain ⟨rest, same, nonneg, le⟩ := exists_rest v
    rw [same]
    exact (best_nearest (hasValue_finite rest) nonneg le h.limit_pos
      ((h.limit_le mode).trans (by norm_num))).1.1
  next => exact h.limit_pos

theorem writeFraction_of_readsAs {signs : List Char} {spec : Spec} (h : ReadsAs signs spec)
    (v : Finite) : ∃ r : Ratio, 0 < r.denominator ∧ writeFraction spec (.finite v) =
      (String.ofList (Decimal.paddedInt 1 v.value.floor ++ ' ' :: r.text),
        if spec = ⟨1, .approximate⟩ then some (.fractionOverflow 1) else none) := by
  refine ⟨spec.ratio (finite v - ofInt v.value.floor), h.ratio_denominator_pos v, ?_⟩
  rw [writeFraction, text]
  by_cases one : spec = ⟨1, .approximate⟩
  · rw [if_pos (h.overflows_iff.2 one), if_pos one, one]
  · rw [if_neg (one ∘ h.overflows_iff.1), if_neg one]

/-- A code is read as what its signs ask for, just where they are not so many question marks that
their count wraps; such a code is read by what is left of the count. A finite number in a numeric
cell is always written: a fraction for a code that is read as one, with a positive denominator; the
plain number, with a note, for a code of a fraction that is read as nothing. A limit is reported as
too small just where the count comes round to none. -/
theorem report_denominators (options : Options) (code : String) (v : Finite) :
    ((∀ spec, Spec.ofCode? code.toList = some spec ↔
        ∃ signs, HasSigns code.toList signs ∧ Asks signs spec) ↔
      ¬ ∃ n, Wraps n ∧ HasSigns code.toList (List.replicate n '?')) ∧
    (∀ n, Wraps n → HasSigns code.toList (List.replicate n '?') →
      Spec.ofCode? code.toList = some ⟨10 ^ (n % 4294967296), .approximate⟩) ∧
    ∃ rendered : Rendered,
      report options .numeric code (.number (.finite v)) = .ok rendered ∧
      rendered.category = Category.ofCode .numeric code.toList ∧
      (∀ limit, rendered.degradation = some (.fractionOverflow limit) ↔
        limit = 1 ∧ rendered.category = .fraction ∧
          ∃ n, 0 < n ∧ n % 4294967296 = 0 ∧ HasSigns code.toList (List.replicate n '?')) ∧
      ((∃ c reason, rendered.degradation = some (.malformedFormat c reason)) ↔
        rendered.category = .fraction ∧ Spec.ofCode? code.toList = none) ∧
      (rendered.category = .fraction → Spec.ofCode? code.toList = none →
        rendered.text = String.ofList (finite v).text ∧
          rendered.degradation = some (.malformedFormat code .unrecognizedDenominator)) ∧
      (rendered.category = .fraction → Spec.ofCode? code.toList ≠ none →
        ∃ r : Ratio, 0 < r.denominator ∧
          rendered.text = String.ofList (Decimal.paddedInt 1 v.value.floor ++ ' ' :: r.text)) := by
  refine ⟨Spec.ofCode?_asked_iff, fun n wraps marks =>
    Spec.ofCode?_eq_some_iff.2 ⟨_, marks, .wrapped wraps⟩, _, rfl, rfl, ?_⟩
  simp only [← Spec.ofCode?_eq_one_iff]
  generalize Category.ofCode .numeric code.toList = category
  cases category with
  | fraction =>
    rw [writeNumber]
    cases read : Spec.ofCode? code.toList with
    | none => simp
    | some spec =>
      obtain ⟨signs, -, reads⟩ := Spec.ofCode?_eq_some_iff.1 read
      obtain ⟨r, pos, written⟩ := writeFraction_of_readsAs reads v
      refine ⟨fun limit => ?_, ?_, ?_, ?_⟩
      · simp [written, eq_comm, and_comm]
      · simp [written]
      · simp
      · intro _ _
        exact ⟨r, pos, congrArg Prod.fst written⟩
  | _ => simp [writeNumber]

/-- No fraction can be written over zero. -/
theorem report_denominator_zero :
    let v : Finite := ⟨false, 6755399441055744, -52, by decide⟩
    let code : String := "# ?/0"
    Category.ofCode .numeric code.toList = .fraction ∧ Spec.ofCode? code.toList = none ∧
      ∃ rendered : Rendered, report {} .numeric code (.number (.finite v)) = .ok rendered ∧
        rendered.text = String.ofList (finite v).text ∧
        rendered.degradation = some (.malformedFormat code .unrecognizedDenominator) := by
  intro v code
  have category : Category.ofCode .numeric code.toList = .fraction := by decide
  have nothing : Spec.ofCode? code.toList = none := by decide
  obtain ⟨-, -, rendered, ok, same, -, -, plain, -⟩ := report_denominators {} code v
  exact ⟨category, nothing, rendered, ok, plain (same.trans category) nothing⟩

section Marks

variable {n : ℕ}

theorem hasSigns_marks : HasSigns ('?' :: '/' :: List.replicate n '?') (List.replicate n '?') :=
  ⟨[], [], by simp, fun _ _ _ => Nat.zero_le _,
    fun _ mem => .inl (List.eq_of_mem_replicate mem), by simp⟩

theorem category_marks :
    Category.ofCode .numeric ('?' :: '/' :: List.replicate n '?') = .fraction := by
  have missing {c : Char} {pattern : List Char} (mem : c ∈ pattern) (other : c ≠ '?' ∧ c ≠ '/') :
      FormatCode.contains pattern ('?' :: '/' :: List.replicate n '?') = false := by
    rw [FormatCode.contains, Bool.eq_false_iff, Ne, FormatCode.after?_isSome_iff]
    intro found
    simpa [other] using found.subset mem
  have currency := @missing ',' [',', '#'] List.mem_cons_self (by decide)
  have percentage := @missing '0' ['0', '%'] List.mem_cons_self (by decide)
  have fraction : FormatCode.contains ['?', '/'] ('?' :: '/' :: List.replicate n '?') = true :=
    FormatCode.after?_isSome_iff.2 (List.prefix_append _ _).isInfix
  simp only [Category.ofCode, Category.signatures, List.find?_cons, Signature.matches, currency,
    percentage, fraction]

/-- Where the count comes round to none, the limit is one, and one half becomes a whole fraction. -/
theorem report_marks (pos : 0 < n) (round : n % 4294967296 = 0) :
    let code := String.ofList ('?' :: '/' :: List.replicate n '?')
    Spec.ofCode? code.toList = some ⟨1, .approximate⟩ ∧
      report {} .numeric code (.number (.finite ⟨false, 4503599627370496, -53, by decide⟩)) =
        .ok ⟨"0 1/1", .fraction, some (.fractionOverflow 1)⟩ := by
  intro code
  have chars : code.toList = '?' :: '/' :: List.replicate n '?' := String.toList_ofList
  have read : Spec.ofCode? code.toList = some ⟨1, .approximate⟩ :=
    Spec.ofCode?_eq_one_iff.2 ⟨n, pos, round, chars ▸ hasSigns_marks⟩
  have text : Fraction.text ⟨1, .approximate⟩ (.finite ⟨false, 4503599627370496, -53, by decide⟩) =
      "0 1/1".toList := by decide +kernel
  have written : String.ofList "0 1/1".toList = "0 1/1" := String.ofList_toList
  refine ⟨read, ?_⟩
  simp only [report, writeNumber, writeFraction, chars ▸ category_marks, read, text, written]
  rfl

end Marks

/-- Of 2 ^ 32 question marks none are counted. They ask for nothing, and are read as a limit of one,
which is reported as too small. -/
theorem fractionOverflow_reported :
    let code := String.ofList ('?' :: '/' :: List.replicate 4294967296 '?')
    (¬ ∃ signs spec, HasSigns code.toList signs ∧ Asks signs spec) ∧
      Spec.ofCode? code.toList = some ⟨1, .approximate⟩ ∧
      report {} .numeric code (.number (.finite ⟨false, 4503599627370496, -53, by decide⟩)) =
        .ok ⟨"0 1/1", .fraction, some (.fractionOverflow 1)⟩ := by
  intro code
  refine ⟨?_, report_marks (by norm_num) (by norm_num)⟩
  rintro ⟨signs, spec, has, asks⟩
  rw [String.toList_ofList] at has
  obtain rfl := has.unique hasSigns_marks
  exact absurd asks.le_nine (by norm_num)

end CellDisplay.Fraction
