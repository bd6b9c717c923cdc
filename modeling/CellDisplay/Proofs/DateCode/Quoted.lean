import CellDisplay.Proofs.DateCode.Minutes
import CellDisplay.Proofs.DateCode.Reading

/-! A code behind which another one follows. Slices look ahead for closing signs, for the rest of a
mark and for more of their letter, and a run looks behind itself for a colon, but none of them looks
over a quote or a backslash. So a quoted text splits a code into parts that are read one by one, and
the same text in escapes is read to the same tokens once literals are merged. -/
namespace CellDisplay.DateCode

/-! ### Slices that stay as they are -/

/-- A slice that the end of the code has not cut short: quotes and tags are closed, and something
stands behind a backslash. -/
def Slice.IsClosed : Slice → Prop
  | quoted _ closed => closed
  | escaped c => c.isSome
  | plain c => c ≠ '['
  | _ => True

instance (slice : Slice) : Decidable slice.IsClosed := by
  unfold Slice.IsClosed
  split <;> infer_instance

/-- A code without a quote, a backslash or a bracket that lacks its other side. -/
def Closed (code : List Char) : Prop := ∀ slice ∈ cut code, slice.IsClosed

/-- A character that no slice goes over unless it starts there or is closed. -/
def IsBarrier (c : Char) : Prop :=
  Letter.ofChar? c = none ∧ c.toLower ∉ ['a', 'm', '/', 'p', 'm'] ∧ c ≠ '@'

instance (c : Char) : Decidable (IsBarrier c) := inferInstanceAs (Decidable (_ ∧ _))

theorem startsWithMark_cons {m c : Char} {mark text : List Char} :
    StartsWithMark (m :: mark) (c :: text) ↔ c.toLower = m ∧ StartsWithMark mark text := by
  simp [StartsWithMark]

/-- A text that has no mark does not get one from a character that is in none. -/
theorem not_startsWithMark_append {mark text more : List Char} (h : ¬ StartsWithMark mark text)
    (stop : ∀ c ∈ more.head?, c.toLower ∉ mark) : ¬ StartsWithMark mark (text ++ more) := by
  induction mark generalizing text with
  | nil => exact absurd rfl h
  | cons m mark ih =>
    have others : ∀ c ∈ more.head?, c.toLower ∉ mark := fun c hc mem =>
      stop c hc (List.mem_cons_of_mem _ mem)
    cases text with
    | nil =>
      cases more with
      | nil => exact h
      | cons c more =>
        rw [List.nil_append, startsWithMark_cons]
        exact fun starts => stop c rfl (starts.1 ▸ List.mem_cons_self)
    | cons c text =>
      rw [startsWithMark_cons, not_and] at h
      rw [List.cons_append, startsWithMark_cons, not_and]
      exact fun first => ih (h first) others

section Append

variable {text rest more : List Char} {slice : Slice} {slices others : List Slice}
  (barrier : ∀ c ∈ more.head?, IsBarrier c)
include barrier

/-- A slice ends where it did if a barrier follows its code. A bracket that was left alone stays
alone if no tag is closed behind the barrier. -/
theorem Starts.append (h : Starts text slice rest)
    (stays : slice.IsClosed ∨ slice = .plain '[' ∧ ']' ∉ more) :
    Starts (text ++ more) slice (rest ++ more) := by
  have head {p : Char → Prop} (inside : ∀ c ∈ rest.head?, p c) (outside : ∀ c, IsBarrier c → p c) :
      ∀ c ∈ (rest ++ more).head?, p c := by
    cases rest with
    | nil => exact fun c hc => outside c (barrier c hc)
    | cons d rest => exact inside
  cases h with
  | meridiem mark =>
    rw [List.append_assoc]
    exact .meridiem mark
  | shortMeridiem mark =>
    rw [List.append_assoc]
    exact .shortMeridiem mark
  | quoted inside =>
    simp only [List.cons_append, List.append_assoc]
    exact .quoted inside
  | unclosed inside => simp [Slice.IsClosed] at stays
  | escaped => exact .escaped
  | backslash => simp [Slice.IsClosed] at stays
  | tag inside =>
    simp only [List.cons_append, List.append_assoc]
    exact .tag inside
  | textSection => exact .textSection
  | @run letter c text rest letters longest =>
    rw [List.append_assoc]
    refine .run letters (head longest fun c hc mem => ?_)
    exact absurd (hc.1.symm.trans (Letter.ofChar?_eq_some.2 mem)) (by simp)
  | @plain c rest noMark noQuote noEscape noTag noSection noLetter =>
    have full : ∀ d ∈ more.head?, d.toLower ∉ ['a', 'm', '/', 'p', 'm'] :=
      fun d hd => (barrier d hd).2.1
    have short : ∀ d ∈ more.head?, d.toLower ∉ ['a', '/', 'p'] := fun d hd mem =>
      full d hd ((by decide : ['a', '/', 'p'] ⊆ ['a', 'm', '/', 'p', 'm']) mem)
    have noTag' : c = '[' → ']' ∉ rest ++ more := by
      intro hc
      rcases stays with closed | ⟨-, unclosed⟩
      · exact absurd hc closed
      · rw [List.mem_append, not_or]
        exact ⟨noTag hc, unclosed⟩
    have noSection' : c = ';' → (rest ++ more).head? ≠ some '@' := by
      intro hc
      have other : ∀ d ∈ (rest ++ more).head?, d ≠ '@' :=
        head (fun d hd eq => noSection hc (eq ▸ hd)) fun d hd => hd.2.2
      exact fun mark => other '@' mark rfl
    exact .plain ⟨not_startsWithMark_append noMark.1 full,
      not_startsWithMark_append noMark.2 short⟩ noQuote noEscape noTag' noSection' noLetter

theorem Cuts.append (h : Cuts text slices) (ho : Cuts more others)
    (stays : ∀ slice ∈ slices, slice.IsClosed ∨ slice = .plain '[' ∧ ']' ∉ more) :
    Cuts (text ++ more) (slices ++ others) := by
  induction h with
  | nil => exact ho
  | cons first _ ih =>
    rw [List.forall_mem_cons] at stays
    exact .cons (first.append barrier stays.1) (ih stays.2)

end Append

/-! ### Tokens of the parts -/

/-- Of what stands before a slice, its token depends only on whether it ends in a colon. -/
theorem tokens_congr {before other : List Char}
    (h : before.getLast? = some ':' ↔ other.getLast? = some ':') (slices : List Slice) :
    tokens before slices = tokens other slices := by
  induction slices generalizing before other with
  | nil => rfl
  | cons slice slices ih =>
    have later : (before ++ slice.raw).getLast? = some ':' ↔
        (other ++ slice.raw).getLast? = some ':' := by
      rw [List.getLast?_append, List.getLast?_append]
      cases slice.raw.getLast? with
      | none => exact h
      | some _ => rfl
    rw [tokens, tokens, ih later]
    simp only [h]

theorem tokens_append (before : List Char) (slices others : List Slice) :
    tokens before (slices ++ others) =
      tokens before slices ++ tokens (before ++ slices.flatMap Slice.raw) others := by
  induction slices generalizing before with
  | nil => rw [List.nil_append, tokens, List.nil_append, List.flatMap_nil, List.append_nil]
  | cons slice slices ih =>
    rw [List.cons_append, tokens, tokens, ih, List.append_assoc, List.append_assoc,
      List.flatMap_cons]

/-- Behind a text that does not end in a colon a code has the tokens that it has alone. -/
theorem tokens_cut_eq_lex {before : List Char} (h : before.getLast? ≠ some ':')
    (code : List Char) : tokens before (cut code) = lex code := by
  rw [Reader.lex_eq]
  exact tokens_congr (by simp [h]) _

/-- The tokens of a closed code come first, whatever follows it behind a barrier. -/
theorem Closed.lex_append {code more : List Char} (closed : Closed code)
    (barrier : ∀ c ∈ more.head?, IsBarrier c) :
    lex (code ++ more) = lex code ++ tokens code (cut more) := by
  have cuts := (cuts_cut code).append barrier (cuts_cut more)
    fun slice hs => .inl (closed slice hs)
  rw [Reader.lex_eq, Reader.lex_eq, ← cuts_iff.1 cuts, tokens_append, List.nil_append,
    (cuts_cut code).flatMap_raw]

/-! ### Quotes and escapes -/

/-- A text between quotes. -/
def quoted (text : List Char) : List Char := '"' :: text ++ ['"']

/-- A text with a backslash before each character. -/
def escaped (text : List Char) : List Char := text.flatMap fun c => ['\\', c]

theorem getLast?_escaped (text : List Char) : (escaped text).getLast? = text.getLast? := by
  induction text using List.reverseRecOn with
  | nil => rfl
  | append_singleton text c _ =>
    rw [escaped, List.flatMap_append, List.flatMap_singleton, List.getLast?_append,
      List.getLast?_concat]
    rfl

theorem cut_quoted_append {text : List Char} (inside : '"' ∉ text) (more : List Char) :
    cut (quoted text ++ more) = .quoted text true :: cut more := by
  rw [quoted, List.cons_append, List.cons_append, List.append_assoc, List.singleton_append]
  exact cut_of_starts (.quoted inside)

theorem tokens_quoted_append {text : List Char} (inside : '"' ∉ text) (before more : List Char) :
    tokens before (cut (quoted text ++ more)) = .literal text :: lex more := by
  have behind : (before ++ (Slice.quoted text true).raw).getLast? ≠ some ':' := by
    rw [Slice.raw, if_pos rfl, ← List.append_assoc, List.getLast?_concat]
    decide
  rw [cut_quoted_append inside, tokens, tokens_cut_eq_lex behind]
  rfl

theorem tokens_escaped_append (text before more : List Char) :
    tokens before (cut (escaped text ++ more)) =
      text.map (fun c => .literal [c]) ++ tokens (before ++ escaped text) (cut more) := by
  induction text generalizing before with
  | nil => simp [escaped]
  | cons c text ih =>
    have first : cut (escaped (c :: text) ++ more) =
        .escaped (some c) :: cut (escaped text ++ more) := cut_of_starts .escaped
    rw [first, tokens, ih, List.append_assoc]
    rfl

/-! ### Merged literals -/

/-- What stands before tokens does not matter to how they merge. -/
theorem mergeLiterals_append_congr {rest other : List Token}
    (h : mergeLiterals rest = mergeLiterals other) (before : List Token) :
    mergeLiterals (before ++ rest) = mergeLiterals (before ++ other) := by
  induction before with
  | nil => exact h
  | cons token before ih =>
    rw [List.cons_append, List.cons_append]
    cases token with
    | literal text => rw [mergeLiterals, mergeLiterals, ih]
    | _ => rw [mergeLiterals_other (by simp [Token.isLiteral]),
        mergeLiterals_other (by simp [Token.isLiteral]), ih]

theorem mergeLiterals_literal_literal (text more : List Char) (rest : List Token) :
    mergeLiterals (.literal text :: .literal more :: rest) =
      mergeLiterals (.literal (text ++ more) :: rest) := by
  simp only [mergeLiterals]
  cases mergeLiterals rest with
  | nil => rfl
  | cons token others => cases token <;> simp

/-- A literal is as good as one for each of its characters. -/
theorem mergeLiterals_singletons {text : List Char} (nonempty : text ≠ []) (rest : List Token) :
    mergeLiterals (text.map (fun c => .literal [c]) ++ rest) =
      mergeLiterals (.literal text :: rest) := by
  induction text with
  | nil => contradiction
  | cons c text ih =>
    cases text with
    | nil => rfl
    | cons d text =>
      have later := ih (List.cons_ne_nil d text)
      rw [List.map_cons, List.cons_append]
      exact (mergeLiterals_append_congr later [.literal [c]]).trans
        (mergeLiterals_literal_literal [c] (d :: text) rest)

/-- A text in quotes behind a closed code is one literal between the tokens of the code and those of
what follows, as if these were read alone. Escapes in place of the quotes make no difference unless
the text is empty or ends in a colon. -/
theorem Closed.lex_quoted {code text : List Char} (closed : Closed code) (inside : '"' ∉ text)
    (more : List Char) :
    lex (code ++ quoted text ++ more) = lex code ++ .literal text :: lex more ∧
      (text ≠ [] → text.getLast? ≠ some ':' →
        tokenize (code ++ escaped text ++ more) = tokenize (code ++ quoted text ++ more)) := by
  have split : lex (code ++ quoted text ++ more) = lex code ++ .literal text :: lex more := by
    have quote : ∀ c ∈ (quoted text ++ more).head?, IsBarrier c := by
      simp only [quoted, List.cons_append, List.head?_cons, Option.mem_some_iff, forall_eq']
      decide
    rw [List.append_assoc, closed.lex_append quote, tokens_quoted_append inside]
  refine ⟨split, fun nonempty noColon => ?_⟩
  have backslash : ∀ c ∈ (escaped text ++ more).head?, IsBarrier c := by
    obtain ⟨d, text, rfl⟩ := List.exists_cons_of_ne_nil nonempty
    simp only [escaped, List.flatMap_cons, List.cons_append, List.head?_cons, Option.mem_some_iff,
      forall_eq']
    decide
  have behind : (code ++ escaped text).getLast? ≠ some ':' := by
    rwa [List.getLast?_append, getLast?_escaped, Option.or_of_isSome (by simpa using nonempty)]
  rw [tokenize, tokenize, split, List.append_assoc, closed.lex_append backslash,
    tokens_escaped_append, tokens_cut_eq_lex behind]
  exact congrArg (resolveMinutes false)
    (mergeLiterals_append_congr (mergeLiterals_singletons nonempty _) _)

/-- A text that would complete the mark begun before its quotes, with a bracket that closes no
tag. -/
theorem Closed.lex_quoted_half_mark :
    Closed "[h]:A".toList ∧ '"' ∉ "M/PM]".toList ∧ "M/PM]".toList ≠ [] ∧
      "M/PM]".toList.getLast? ≠ some ':' ∧
      lex "[h]:A\"M/PM]\"mm:ss".toList =
        lex "[h]:A".toList ++ .literal "M/PM]".toList :: lex "mm:ss".toList ∧
      tokenize "[h]:A\\M\\/\\P\\M\\]mm:ss".toList = tokenize "[h]:A\"M/PM]\"mm:ss".toList := by
  have closed : Closed "[h]:A".toList := by
    unfold Closed
    decide +kernel
  have inside : '"' ∉ "M/PM]".toList := by decide
  have nonempty : "M/PM]".toList ≠ [] := by decide
  have noColon : "M/PM]".toList.getLast? ≠ some ':' := by decide
  obtain ⟨split, escapes⟩ := closed.lex_quoted inside "mm:ss".toList
  exact ⟨closed, inside, nonempty, noColon, split, escapes nonempty noColon⟩

end CellDisplay.DateCode
