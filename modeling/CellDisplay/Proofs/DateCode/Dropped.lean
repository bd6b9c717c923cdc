import CellDisplay.Proofs.DateCode.Quoted
import CellDisplay.Render

/-! Pieces of a date code that stand for no token. A tag that counts no time leaves no trace in
front of a code, and the mark of a text section leaves none behind one, whatever looks ahead or
behind there (`tokenize_dropped`). A tag that counts time is one token more, and behind an open
quote or a lone backslash the mark is copied to the text. -/
namespace CellDisplay.DateCode

open Calendar (Timestamp)

/-! ### What is copied -/

/-- What a token copies from the code. -/
def Token.copied : Token → List Char
  | literal text => text
  | _ => []

theorem Merges.flatMap_copied {tokens merged : List Token} (h : Merges tokens merged) :
    merged.flatMap Token.copied = tokens.flatMap Token.copied := by
  induction h with
  | nil => rfl
  | other _ _ ih => rw [List.flatMap_cons, List.flatMap_cons, ih]
  | @run texts rest merged _ _ _ ih =>
    have each : (texts.map Token.literal).flatMap Token.copied = texts.flatten := by
      rw [List.flatMap_map]
      exact List.flatMap_id
    rw [List.flatMap_cons, List.flatMap_append, each, ih]
    rfl

theorem flatMap_copied_resolveMinutes (afterHour : Bool) (tokens : List Token) :
    (resolveMinutes afterHour tokens).flatMap Token.copied = tokens.flatMap Token.copied := by
  induction tokens generalizing afterHour with
  | nil => rfl
  | cons token rest ih =>
    rw [resolveMinutes_cons, List.flatMap_cons, List.flatMap_cons, ih,
      apply_turned (f := Token.copied) fun _ => rfl]

/-- Neither merged literals nor minutes change what is copied. -/
theorem flatMap_copied_tokenize (code : List Char) :
    (tokenize code).flatMap Token.copied = (lex code).flatMap Token.copied := by
  rw [tokenize, flatMap_copied_resolveMinutes, (merges_mergeLiterals _).flatMap_copied]

/-! ### A tag in front -/

/-- A text between brackets. -/
def tagged (content : List Char) : List Char := '[' :: content ++ [']']

/-- The contents of tags that count time, in lower case. -/
def elapsedTags : List (List Char) := [['h'], ['h', 'h'], ['m'], ['m', 'm'], ['s'], ['s', 's']]

theorem token?_tag_eq_none_iff (afterColon : Bool) (content : List Char) :
    (Slice.tag content).token? afterColon = none ↔ content.map Char.toLower ∉ elapsedTags := by
  rw [Slice.token?]
  split <;> simp_all [elapsedTags]

variable {content code : List Char}

/-- A tag is read alone: its bracket is no colon. -/
theorem lex_tagged_append (inside : ']' ∉ content) (code : List Char) :
    lex (tagged content ++ code) = ((Slice.tag content).token? false).toList ++ lex code := by
  have first : cut (tagged content ++ code) = .tag content :: cut code := by
    rw [tagged, List.cons_append, List.cons_append, List.append_assoc, List.singleton_append]
    exact cut_of_starts (.tag inside)
  have behind : ([] ++ (Slice.tag content).raw).getLast? ≠ some ':' := by
    rw [Slice.raw, List.nil_append, List.getLast?_concat]
    decide
  rw [Reader.lex_eq, first, tokens, tokens_cut_eq_lex behind]
  rfl

theorem length_tokenize (code : List Char) :
    (tokenize code).length = (mergeLiterals (lex code)).length := by
  have same := congrArg List.length (map_isLiteral_resolveMinutes false (mergeLiterals (lex code)))
  rwa [List.length_map, List.length_map] at same

theorem tokenize_tagged_append_iff (inside : ']' ∉ content) (code : List Char) :
    tokenize (tagged content ++ code) = tokenize code ↔ content.map Char.toLower ∉ elapsedTags := by
  rw [← token?_tag_eq_none_iff false content]
  constructor
  · intro same
    by_contra counts
    obtain ⟨token, read⟩ := Option.ne_none_iff_exists'.1 counts
    have noLiteral : ¬ token.isLiteral := by
      obtain ⟨unit, -, rfl⟩ := Option.map_eq_some_iff.1 ((Reader.token?_tag _ _).symm.trans read)
      exact Bool.false_ne_true
    have longer := congrArg List.length same
    rw [length_tokenize, length_tokenize, lex_tagged_append inside, read, Option.toList_some,
      List.singleton_append, mergeLiterals_other noLiteral, List.length_cons] at longer
    omega
  · intro none
    rw [tokenize, lex_tagged_append inside, none]
    rfl

/-! ### A text section behind -/

/-- A slice that the end of the code has not cut short, or a bracket that is left alone anyway. -/
def Slice.IsTerminated : Slice → Prop
  | quoted _ closed => closed
  | escaped c => c.isSome
  | _ => True

instance (slice : Slice) : Decidable slice.IsTerminated :=
  match slice with
  | .quoted _ closed => inferInstanceAs (Decidable (closed = true))
  | .escaped c => inferInstanceAs (Decidable (c.isSome = true))
  | .meridiem _ | .shortMeridiem _ | .tag _ | .textSection | .run .. | .plain _ => .isTrue trivial

/-- A code without an open quote or a backslash at its end. -/
def Terminated (code : List Char) : Prop := ∀ slice ∈ cut code, slice.IsTerminated

instance (code : List Char) : Decidable (Terminated code) :=
  inferInstanceAs (Decidable (∀ slice ∈ cut code, slice.IsTerminated))

/-- The mark of a text section. -/
def sectionMark : List Char := [';', '@']

theorem isBarrier_sectionMark : ∀ c ∈ sectionMark.head?, IsBarrier c := by
  rintro c ⟨⟩
  decide

/-- No tag is closed within the mark, so a bracket that was left alone stays alone. -/
theorem Slice.IsTerminated.stays {slice : Slice} (h : slice.IsTerminated) :
    slice.IsClosed ∨ slice = .plain '[' ∧ ']' ∉ sectionMark := by
  cases slice with
  | quoted | escaped => exact .inl h
  | plain c =>
    by_cases lone : c = '['
    · exact .inr ⟨congrArg Slice.plain lone, by decide⟩
    · exact .inl lone
  | _ => exact .inl trivial

theorem cut_sectionMark : cut sectionMark = [.textSection] :=
  (cut_of_starts .textSection).trans (congrArg _ cut_nil)

/-- Only the last slice can be cut short, and then it or what follows it copies the mark. -/
theorem flatMap_copied_append_sectionMark {slices : List Slice} (h : Cuts code slices)
    (short : ∃ slice ∈ slices, ¬ slice.IsTerminated) (before : List Char) :
    (tokens before (cut (code ++ sectionMark))).flatMap Token.copied =
      (tokens before slices).flatMap Token.copied ++ sectionMark := by
  induction h generalizing before with
  | nil => simp at short
  | @cons text rest slice slices first others ih =>
    by_cases terminated : slice.IsTerminated
    · have later : ∃ slice ∈ slices, ¬ slice.IsTerminated := by
        obtain ⟨other, mem, cutShort⟩ := short
        rcases List.mem_cons.1 mem with rfl | mem
        · exact absurd terminated cutShort
        · exact ⟨other, mem, cutShort⟩
      rw [cut_of_starts (first.append isBarrier_sectionMark terminated.stays), tokens, tokens,
        List.flatMap_append, List.flatMap_append, ih later, List.append_assoc]
    · cases first with
      | @unclosed body inside =>
        have inside' : '"' ∉ body ++ sectionMark := by simp [sectionMark, inside]
        rw [List.cons_append, cut_of_starts (.unclosed inside'), cuts_iff.1 others]
        simp [tokens, Slice.token?, Token.copied]
      | backslash =>
        have mark : cut ['@'] = [.plain '@'] :=
          (cut_of_starts (starts_firstSlice '@' [])).trans (congrArg _ cut_nil)
        have escape : cut (['\\'] ++ sectionMark) = [.escaped (some ';'), .plain '@'] :=
          (cut_of_starts .escaped).trans (congrArg _ mark)
        rw [escape, cuts_iff.1 others]
        simp [tokens, Slice.token?, Token.copied, sectionMark]
      | _ => simp [Slice.IsTerminated] at terminated

theorem Terminated.lex_append_sectionMark (h : Terminated code) :
    lex (code ++ sectionMark) = lex code := by
  have cuts := (cuts_cut code).append isBarrier_sectionMark (cuts_cut sectionMark)
    fun slice hs => (h slice hs).stays
  rw [Reader.lex_eq, ← cuts_iff.1 cuts, tokens_append, cut_sectionMark, Reader.lex_eq]
  exact List.append_nil _

theorem tokenize_append_sectionMark_iff :
    tokenize (code ++ sectionMark) = tokenize code ↔ Terminated code := by
  constructor
  · intro same
    by_contra short
    have short : ∃ slice ∈ cut code, ¬ slice.IsTerminated := by
      simpa [Terminated] using short
    have copied := flatMap_copied_append_sectionMark (cuts_cut code) short []
    rw [← Reader.lex_eq, ← Reader.lex_eq, ← flatMap_copied_tokenize, ← flatMap_copied_tokenize,
      same] at copied
    simp [sectionMark] at copied
  · intro h
    rw [tokenize, tokenize, h.lex_append_sectionMark]

/-! ### Every text -/

/-- Of a code, the text of a timestamp depends on its tokens only. -/
theorem writeTimestamp_text_congr {a b : List Char} (same : tokenize a = tokenize b)
    (options : Options) (t : Timestamp) :
    (writeTimestamp options (.ofList a) t).1 = (writeTimestamp options (.ofList b) t).1 := by
  simp only [writeTimestamp, String.toList_ofList, same]

/-- A tag in front of a code is invisible unless it counts time, and the mark of a text section
behind a code unless a quote is open there or a backslash ends the code. -/
theorem tokenize_dropped (inside : ']' ∉ content) (code : List Char) :
    (tokenize (tagged content ++ code) = tokenize code ↔
      content.map Char.toLower ∉ elapsedTags) ∧
    (tokenize (code ++ sectionMark) = tokenize code ↔ Terminated code) ∧
    ∀ (options : Options) (t : Timestamp),
      (content.map Char.toLower ∉ elapsedTags →
        (writeTimestamp options (.ofList (tagged content ++ code)) t).1 =
          (writeTimestamp options (.ofList code) t).1) ∧
      (Terminated code →
        (writeTimestamp options (.ofList (code ++ sectionMark)) t).1 =
          (writeTimestamp options (.ofList code) t).1) := by
  have front := tokenize_tagged_append_iff inside code
  have behind : tokenize (code ++ sectionMark) = tokenize code ↔ Terminated code :=
    tokenize_append_sectionMark_iff
  refine ⟨front, behind, fun options t => ⟨fun drops => ?_, fun terminated => ?_⟩⟩
  · exact writeTimestamp_text_congr (front.2 drops) options t
  · exact writeTimestamp_text_congr (behind.2 terminated) options t

/-- In front a tag that ends in a colon, and a code with a bracket that is left alone, the half of a
mark and a semicolon at its end. -/
theorem tokenize_dropped_around_half_mark :
    let content := "$-409:".toList
    let code := "mm\"[\"[h:mm A/;".toList
    ']' ∉ content ∧ content.map Char.toLower ∉ elapsedTags ∧ Terminated code ∧
      tokenize (tagged content ++ code) = tokenize code ∧
      tokenize (code ++ sectionMark) = tokenize code ∧
      ∀ (options : Options) (t : Timestamp),
        (writeTimestamp options "[$-409:]mm\"[\"[h:mm A/;" t).1 =
          (writeTimestamp options "mm\"[\"[h:mm A/;" t).1 ∧
        (writeTimestamp options "mm\"[\"[h:mm A/;;@" t).1 =
          (writeTimestamp options "mm\"[\"[h:mm A/;" t).1 := by
  intro content code
  have inside : ']' ∉ content := by decide
  have drops : content.map Char.toLower ∉ elapsedTags := by decide
  have terminated : Terminated code := by decide +kernel
  obtain ⟨front, behind, text⟩ := tokenize_dropped inside code
  exact ⟨inside, drops, terminated, front.2 drops, behind.2 terminated, fun options t =>
    ⟨(text options t).1 drops, (text options t).2 terminated⟩⟩

end CellDisplay.DateCode
