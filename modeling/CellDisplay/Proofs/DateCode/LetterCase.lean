import Mathlib.Data.List.Forall2
import CellDisplay.Proofs.DateCode.Dropped

/-! The case of letters in a date code. Hours and the marks of the halves of the day tell `h` from
`H` and `a` from `A`; years, months, days and seconds do not tell their letters apart, not in runs,
not in tags and not inside a mark. To fold these letters turns every slice into the folded slice,
and in a code without quotes and escapes no token shows it (`lex_folded`). So two codes that differ
in nothing else have the same tokens (`lex_same_but_case`). -/
namespace CellDisplay.DateCode

open Calendar (Timestamp)

/-! ### Folded letters -/

/-- The letters whose case does not matter, in lower case. -/
def caselessLetters : List Char := ['y', 'm', 'd', 's']

/-- The same character, but for the case of a caseless letter. -/
def SameButCase (c d : Char) : Prop :=
  c = d ∨ c.toLower = d.toLower ∧ c.toLower ∈ caselessLetters

instance (c d : Char) : Decidable (SameButCase c d) := inferInstanceAs (Decidable (_ ∨ _))

/-- A caseless letter in lower case; other characters stay. -/
def folded (c : Char) : Char := if c.toLower ∈ caselessLetters then c.toLower else c

theorem SameButCase.folded_eq {c d : Char} (h : SameButCase c d) : folded c = folded d := by
  rcases h with rfl | ⟨same, mem⟩
  · rfl
  · rw [folded, folded, if_pos mem, if_pos (same ▸ mem), same]

/-- Four letters are gone through one by one. -/
theorem forall_mem_four {P : Char → Prop} {a b c d : Char} (h : P a ∧ P b ∧ P c ∧ P d) :
    ∀ x ∈ [a, b, c, d], P x := by
  simpa using h

theorem toLower_eq_or (c : Char) : c.toLower = c ∨ c.val = c.toLower.val - 32 := by
  unfold Char.toLower
  split
  · exact .inr (UInt32.eq_sub_iff_add_eq.2 rfl)
  · exact .inl rfl

/-- Folding moves four characters only. -/
theorem folded_eq_or (c : Char) : folded c = c ∨ c ∈ ['Y', 'M', 'D', 'S'] := by
  unfold folded
  rcases toLower_eq_or c with same | shift
  · rw [same, ite_self]
    exact .inl rfl
  split
  next mem =>
    simp only [caselessLetters, List.mem_cons, List.not_mem_nil, or_false] at mem
    rcases mem with h | h | h | h <;> rw [h] at shift <;> simp [Char.ext_iff, shift]
  next => exact .inl rfl

/-- What holds of all characters that stay and of those that are moved holds of all. -/
theorem folded_induction {P : Char → Char → Prop} (stays : ∀ c, P c c)
    (moved : ∀ c ∈ ['Y', 'M', 'D', 'S'], P (folded c) c) (c : Char) : P (folded c) c := by
  rcases folded_eq_or c with same | upper
  · rw [same]
    exact stays c
  · exact moved c upper

theorem toLower_folded (c : Char) : (folded c).toLower = c.toLower :=
  folded_induction (P := fun f c => f.toLower = c.toLower) (fun _ => rfl)
    (forall_mem_four (by decide)) c

theorem folded_mem_chars (letter : Letter) (c : Char) :
    folded c ∈ letter.chars ↔ c ∈ letter.chars :=
  folded_induction (P := fun f c => f ∈ letter.chars ↔ c ∈ letter.chars) (fun _ => Iff.rfl)
    (forall_mem_four (by cases letter <;> decide)) c

/-- A caseless letter is one of those that stand in runs. -/
theorem exists_mem_chars {c : Char} (h : c.toLower ∈ caselessLetters) :
    ∃ letter : Letter, c ∈ letter.chars := by
  have lower : ∀ d ∈ caselessLetters, Letter.ofChar? d ≠ none :=
    forall_mem_four (by decide)
  obtain ⟨letter, some⟩ := Option.ne_none_iff_exists'.1 (lower c.toLower h)
  have same : folded c = c.toLower := if_pos h
  exact ⟨letter, (folded_mem_chars letter c).1 (same ▸ Letter.ofChar?_eq_some.1 some)⟩

/-- A character that is no caseless letter in either case. -/
def IsApart (m : Char) : Prop := m ∉ caselessLetters ∧ m ∉ ['Y', 'M', 'D', 'S']

instance (m : Char) : Decidable (IsApart m) := inferInstanceAs (Decidable (_ ∧ _))

theorem folded_eq_iff {m : Char} (h : IsApart m) (c : Char) : folded c = m ↔ c = m := by
  have lower : ∀ c ∈ ['Y', 'M', 'D', 'S'], folded c ∈ caselessLetters :=
    forall_mem_four (by decide)
  refine folded_induction (P := fun f c => f = m ↔ c = m) (fun _ => Iff.rfl) (fun c upper => ?_) c
  exact iff_of_false (fun same => h.1 (same ▸ lower c upper)) fun same => h.2 (same ▸ upper)

section

variable {m : Char} (apart : IsApart m) (text : List Char)
include apart

theorem mem_map_folded : m ∈ text.map folded ↔ m ∈ text := by
  simp only [List.mem_map, folded_eq_iff apart, exists_eq_right]

theorem head?_map_folded : (text.map folded).head? = some m ↔ text.head? = some m := by
  simp only [List.head?_map, Option.map_eq_some_iff, folded_eq_iff apart, exists_eq_right]

theorem getLast?_map_folded : (text.map folded).getLast? = some m ↔ text.getLast? = some m := by
  simp only [List.getLast?_map, Option.map_eq_some_iff, folded_eq_iff apart, exists_eq_right]

end

theorem map_toLower_folded (text : List Char) :
    (text.map folded).map Char.toLower = text.map Char.toLower := by
  rw [List.map_map]
  exact List.map_congr_left fun c _ => toLower_folded c

theorem startsWithMark_map_folded (mark text : List Char) :
    StartsWithMark mark (text.map folded) ↔ StartsWithMark mark text := by
  rw [StartsWithMark, StartsWithMark, ← List.map_take, map_toLower_folded]

/-! ### Folded slices -/

/-- A slice with each of its characters replaced. -/
def Slice.map (f : Char → Char) : Slice → Slice
  | meridiem text => meridiem (text.map f)
  | shortMeridiem text => shortMeridiem (text.map f)
  | quoted body closed => quoted (body.map f) closed
  | escaped c => escaped (c.map f)
  | tag content => tag (content.map f)
  | textSection => textSection
  | run letter text => run letter (text.map f)
  | plain c => plain (f c)

theorem Slice.raw_map_folded (slice : Slice) : (slice.map folded).raw = slice.raw.map folded := by
  have quote : folded '"' = '"' := by decide
  have escape : folded '\\' = '\\' := by decide
  have bracket : folded '[' = '[' ∧ folded ']' = ']' := by decide
  have mark : folded ';' = ';' ∧ folded '@' = '@' := by decide
  cases slice with
  | quoted body closed => cases closed <;> simp [map, raw, quote]
  | escaped c => cases c <;> simp [map, raw, escape]
  | tag => simp [map, raw, bracket]
  | textSection => simp [map, raw, mark]
  | _ => rfl

/-- Where a text starts with a slice the folded text starts with the folded slice. -/
theorem Starts.map_folded {text rest : List Char} {slice : Slice} (h : Starts text slice rest) :
    Starts (text.map folded) (slice.map folded) (rest.map folded) := by
  have quote : IsApart '"' := by decide
  have escape : IsApart '\\' := by decide
  have bracket : IsApart '[' ∧ IsApart ']' := by decide
  have mark : IsApart ';' ∧ IsApart '@' := by decide
  cases h with
  | meridiem mark =>
    rw [List.map_append]
    exact .meridiem ((map_toLower_folded _).trans mark)
  | shortMeridiem mark =>
    rw [List.map_append]
    exact .shortMeridiem ((map_toLower_folded _).trans mark)
  | quoted inside =>
    rw [List.map_cons, List.map_append, List.map_cons, (folded_eq_iff quote _).2 rfl]
    exact .quoted (mt (mem_map_folded quote _).1 inside)
  | unclosed inside =>
    rw [List.map_cons, (folded_eq_iff quote _).2 rfl]
    exact .unclosed (mt (mem_map_folded quote _).1 inside)
  | escaped =>
    rw [List.map_cons, List.map_cons, (folded_eq_iff escape _).2 rfl]
    exact .escaped
  | backslash =>
    rw [List.map_cons, (folded_eq_iff escape _).2 rfl]
    exact .backslash
  | tag inside =>
    rw [List.map_cons, List.map_append, List.map_cons, (folded_eq_iff bracket.1 _).2 rfl,
      (folded_eq_iff bracket.2 _).2 rfl]
    exact .tag (mt (mem_map_folded bracket.2 _).1 inside)
  | textSection =>
    rw [List.map_cons, List.map_cons, (folded_eq_iff mark.1 _).2 rfl,
      (folded_eq_iff mark.2 _).2 rfl]
    exact .textSection
  | @run letter c text rest letters longest =>
    rw [List.map_append, List.map_cons]
    refine .run (fun d mem => ?_) fun d mem => ?_
    · rw [← List.map_cons, List.mem_map] at mem
      obtain ⟨d, mem, rfl⟩ := mem
      exact (folded_mem_chars letter d).2 (letters d mem)
    · rw [List.head?_map, Option.mem_def, Option.map_eq_some_iff] at mem
      obtain ⟨d, mem, rfl⟩ := mem
      exact mt (folded_mem_chars letter d).1 (longest d mem)
  | @plain c rest noMark noQuote noEscape noTag noSection noLetter =>
    rw [List.map_cons]
    refine .plain ?_ (mt (folded_eq_iff quote c).1 noQuote)
      (mt (folded_eq_iff escape c).1 noEscape) (fun tag => ?_) (fun marked => ?_)
      fun letter => mt (folded_mem_chars letter c).1 (noLetter letter)
    · rwa [← List.map_cons, startsWithMark_map_folded, startsWithMark_map_folded]
    · exact mt (mem_map_folded bracket.2 rest).1 (noTag ((folded_eq_iff bracket.1 c).1 tag))
    · exact mt (head?_map_folded mark.2 rest).1 (noSection ((folded_eq_iff mark.1 c).1 marked))

theorem Cuts.map_folded {code : List Char} {slices : List Slice} (h : Cuts code slices) :
    Cuts (code.map folded) (slices.map (Slice.map folded)) := by
  induction h with
  | nil => exact .nil
  | cons first _ ih => exact .cons first.map_folded ih

/-! ### Tokens -/

theorem Letter.copied_token (letter : Letter) (afterColon : Bool) (count : ℕ) :
    (letter.token afterColon count).copied = [] := by
  cases letter with
  | month | day =>
    unfold token
    split_ifs <;> rfl
  | _ => rfl

/-- A code whose literals are single characters: without quotes and without escapes. -/
def Unquoted (code : List Char) : Prop := '"' ∉ code ∧ '\\' ∉ code

instance (code : List Char) : Decidable (Unquoted code) := inferInstanceAs (Decidable (_ ∧ _))

theorem Unquoted.rest {text rest : List Char} {slice : Slice} (h : Unquoted text)
    (first : Starts text slice rest) : Unquoted rest := by
  rw [← first.raw_append] at h
  exact ⟨fun mem => h.1 (List.mem_append_right _ mem), fun mem => h.2 (List.mem_append_right _ mem)⟩

section

variable {text rest : List Char} {slice : Slice} (unquoted : Unquoted text)
  (h : Starts text slice rest)
include unquoted h

/-- What an unquoted slice copies is no letter of a run. -/
theorem Starts.not_mem_chars (afterColon : Bool) :
    ∀ c ∈ (slice.token? afterColon).toList.flatMap Token.copied,
      ∀ letter : Letter, c ∉ letter.chars := by
  cases h with
  | quoted | unclosed | escaped | backslash => simp [Unquoted] at unquoted
  | plain _ _ _ _ _ noLetter => simpa [Slice.token?, Token.copied] using noLetter
  | @tag content =>
    rw [Reader.token?_tag]
    cases elapsedUnit? content <;> simp [Token.copied]
  | @run letter c text =>
    rw [Slice.token?, List.length_cons, ← Letter.token_eq_reading, Option.toList_some,
      List.flatMap_singleton, Letter.copied_token]
    exact fun _ none => absurd none List.not_mem_nil
  | _ => simp [Slice.token?, Token.copied]

/-- A folded slice is read to the same token. -/
theorem Starts.token?_map_folded (afterColon : Bool) :
    (slice.map folded).token? afterColon = slice.token? afterColon := by
  cases h with
  | quoted | unclosed | escaped | backslash => simp [Unquoted] at unquoted
  | meridiem | textSection => rfl
  | @shortMeridiem mark =>
    have first : (mark.map folded).head? = some 'a' ↔ mark.head? = some 'a' :=
      head?_map_folded (by decide) mark
    simp only [Slice.map, Slice.token?, first]
  | tag => rw [Slice.map, Slice.token?, Slice.token?, map_toLower_folded]
  | run => rw [Slice.map, Slice.token?, Slice.token?, List.length_map]
  | @plain c rest _ _ _ _ _ noLetter =>
    have stays : folded c = c := by
      refine (folded_eq_or c).resolve_right fun upper => ?_
      have letter : ∀ c ∈ ['Y', 'M', 'D', 'S'], Letter.ofChar? c ≠ none :=
        forall_mem_four (by decide)
      exact letter c upper (Letter.ofChar?_eq_none noLetter)
    rw [Slice.map, stays]

end

theorem tokens_map_folded {code : List Char} {slices : List Slice} (unquoted : Unquoted code)
    (h : Cuts code slices) (before : List Char) :
    tokens (before.map folded) (slices.map (Slice.map folded)) = tokens before slices := by
  induction h generalizing before with
  | nil => rfl
  | cons first _ ih =>
    have colon := getLast?_map_folded (m := ':') (by decide) before
    rw [List.map_cons, tokens, tokens, first.token?_map_folded unquoted, Slice.raw_map_folded,
      ← List.map_append, ih (unquoted.rest first)]
    simp only [colon]

theorem copied_tokens {code : List Char} {slices : List Slice} (unquoted : Unquoted code)
    (h : Cuts code slices) (before : List Char) :
    ∀ c ∈ (tokens before slices).flatMap Token.copied, ∀ letter : Letter, c ∉ letter.chars := by
  induction h generalizing before with
  | nil => simp [tokens]
  | cons first _ ih =>
    intro c mem
    rw [tokens, List.flatMap_append, List.mem_append] at mem
    rcases mem with here | later
    · exact first.not_mem_chars unquoted _ c here
    · exact ih (unquoted.rest first) _ c later

/-- To fold an unquoted code changes none of its tokens. -/
theorem lex_folded {code : List Char} (unquoted : Unquoted code) :
    lex (code.map folded) = lex code := by
  have cuts := cuts_cut code
  rw [Reader.lex_eq, ← cuts_iff.1 cuts.map_folded, Reader.lex_eq]
  exact tokens_map_folded unquoted cuts []

/-- Two unquoted codes that differ in the case of caseless letters only have the same tokens and
give every timestamp the same text, and no literal of theirs contains such a letter. -/
theorem lex_same_but_case {a b : List Char} (same : List.Forall₂ SameButCase a b)
    (unquoted : Unquoted a) :
    lex a = lex b ∧ tokenize a = tokenize b ∧
      (∀ (options : Options) (t : Timestamp),
        (writeTimestamp options (.ofList a) t).1 = (writeTimestamp options (.ofList b) t).1) ∧
      ∀ text, .literal text ∈ lex a ∨ .literal text ∈ tokenize a →
        ∀ c ∈ text, c.toLower ∉ caselessLetters := by
  have folds : a.map folded = b.map folded := by
    induction same with
    | nil => rfl
    | cons first _ ih =>
      simp only [Unquoted, List.mem_cons, not_or] at unquoted
      rw [List.map_cons, List.map_cons, first.folded_eq, ih ⟨unquoted.1.2, unquoted.2.2⟩]
  have unquoted' : Unquoted b := by
    have quote : IsApart '"' := by decide
    have escape : IsApart '\\' := by decide
    rwa [Unquoted, ← mem_map_folded quote, ← mem_map_folded escape, ← folds, mem_map_folded quote,
      mem_map_folded escape]
  have lexed : lex a = lex b := by rw [← lex_folded unquoted, folds, lex_folded unquoted']
  have tokenized : tokenize a = tokenize b := by rw [tokenize, lexed, tokenize]
  refine ⟨lexed, tokenized, writeTimestamp_text_congr tokenized, fun text mem c hc caseless => ?_⟩
  have copied : c ∈ (lex a).flatMap Token.copied := by
    rcases mem with mem | mem
    · exact List.mem_flatMap.2 ⟨_, mem, hc⟩
    · exact flatMap_copied_tokenize a ▸ List.mem_flatMap.2 ⟨_, mem, hc⟩
  rw [Reader.lex_eq] at copied
  obtain ⟨letter, mem⟩ := exists_mem_chars caseless
  exact copied_tokens unquoted (cuts_cut a) [] c copied letter mem

/-- Tags, a whole mark, the half of one and an open bracket, with hours that keep their case. -/
theorem lex_same_but_case_mixed :
    let a := "[MM]:SS H Am/pM A/D[YYYY-mmM-dD".toList
    let b := "[mm]:ss H AM/pm A/d[yyyy-Mmm-Dd".toList
    List.Forall₂ SameButCase a b ∧ Unquoted a ∧ a ≠ b ∧ lex a = lex b ∧ tokenize a = tokenize b ∧
      ∀ (options : Options) (t : Timestamp),
        (writeTimestamp options (.ofList a) t).1 = (writeTimestamp options (.ofList b) t).1 := by
  intro a b
  have same : List.Forall₂ SameButCase a b := by decide
  have unquoted : Unquoted a := by decide
  obtain ⟨lexed, tokenized, text, -⟩ := lex_same_but_case same unquoted
  exact ⟨same, unquoted, by decide, lexed, tokenized, text⟩

end CellDisplay.DateCode
