import CellDisplay.Proofs.DateCode.Slice

/-! One round of a reader. At the first byte of a character it goes over the slice that starts there
and reads its token, if it has one (`round?_between`). -/
namespace CellDisplay.DateCode

/-! ### Marks -/

/-- A text of characters that take one byte each. -/
def OneByte (text : List Char) : Prop := ∀ c ∈ text, c.utf8Size = 1

instance (text : List Char) : Decidable (OneByte text) :=
  List.decidableBAll (fun c : Char => c.utf8Size = 1) text

theorem OneByte.byteLength_eq {text : List Char} (h : OneByte text) :
    byteLength text = text.length := by
  induction text with
  | nil => rfl
  | cons c text ih =>
    obtain ⟨one, others⟩ := List.forall_mem_cons.1 h
    rw [byteLength_cons, ih others, one, List.length_cons, Nat.add_comm]

theorem utf8Size_of_toLower {c : Char} (h : c.toLower.utf8Size = 1) : c.utf8Size = 1 := by
  unfold Char.toLower at h
  split at h
  next upper => exact Char.utf8Size_eq_one_iff.2 (Nat.le_trans upper.2 (by decide))
  · exact h

/-- The characters of a mark take one byte each, so to compare bytes is to compare characters. -/
theorem takeBytes?_mark {mark : List Char} (ascii : OneByte mark) (text : List Char) :
    (∃ head, takeBytes? mark.length text = some head ∧ head.map Char.toLower = mark) ↔
      (text.take mark.length).map Char.toLower = mark := by
  induction mark generalizing text with
  | nil => simp [takeBytes?]
  | cons m mark ih =>
    obtain ⟨one, others⟩ := List.forall_mem_cons.1 ascii
    cases text with
    | nil => simp [takeBytes?]
    | cons c text =>
      by_cases hc : c.toLower = m
      · have size : c.utf8Size = 1 := utf8Size_of_toLower (hc ▸ one)
        rw [List.length_cons, takeBytes?, if_pos (by omega), size, Nat.add_sub_cancel,
          List.take_succ_cons, List.map_cons, hc, List.cons_inj_right, ← ih others]
        cases takeBytes? mark.length text <;> simp [hc]
      · simp only [List.length_cons, takeBytes?, List.take_succ_cons, List.map_cons,
          List.cons.injEq, hc, false_and, iff_false, not_exists, not_and]
        rintro head h
        split at h
        · obtain ⟨tail, _, rfl⟩ := Option.map_eq_some_iff.1 h
          simp [hc]
        · contradiction

theorem hasMark_eq {mark : List Char} (ascii : OneByte mark) (text : List Char) :
    hasMark mark text = decide (StartsWithMark mark text) := by
  rw [Bool.eq_iff_iff, decide_eq_true_iff, StartsWithMark, ← takeBytes?_mark ascii]
  unfold hasMark
  split <;> simp_all

theorem byteLength_mark {mark text : List Char} (ascii : OneByte mark)
    (h : text.map Char.toLower = mark) : byteLength text = text.length := by
  apply OneByte.byteLength_eq
  intro c hc
  exact utf8Size_of_toLower (ascii _ (h ▸ List.mem_map_of_mem hc))

/-! ### One round -/

namespace Reader

/-- The reader between two parts of a code. -/
def between (before rest : List Char) : Reader := ⟨before ++ rest, byteLength before⟩

variable (before : List Char)

theorem rest?_between (rest : List Char) : (between before rest).rest? = some rest :=
  dropBytes?_byteLength before rest

theorem afterColon?_between (rest : List Char) :
    (between before rest).afterColon? = some (decide (before.getLast? = some ':')) := by
  simp only [afterColon?, between, takeBytes?_byteLength, Option.map_some]

theorem skip_between (piece rest : List Char) {bytes : Nat} (h : byteLength piece = bytes) :
    (between before (piece ++ rest)).skip bytes = between (before ++ piece) rest := by
  simp only [skip, between, List.append_assoc, byteLength_append, h]

theorem rest?_skip_one {c : Char} (h : c.utf8Size = 1) (rest : List Char) :
    ((between before (c :: rest)).skip 1).rest? = some rest := by
  rw [← List.singleton_append, skip_between before [c] rest h, rest?_between]

/-- What a reader comes to that goes over one slice. -/
def past (slice : Slice) (rest : List Char) : Round :=
  .of (slice.token? (before.getLast? = some ':')) (between (before ++ slice.raw) rest)

theorem past_eq {slice : Slice} {rest text : List Char} {bytes : Nat}
    (h : slice.raw ++ rest = text) (size : byteLength slice.raw = bytes) :
    past before slice rest =
      .of (slice.token? (before.getLast? = some ':')) ((between before text).skip bytes) := by
  rw [← h, skip_between before slice.raw rest size, past]

theorem quoted?_closed {body : List Char} (h : '"' ∉ body) (rest : List Char) :
    (between before ('"' :: (body ++ '"' :: rest))).quoted? =
      some (past before (.quoted body true) rest) := by
  have size : byteLength (Slice.quoted body true).raw = 1 + (byteLength body + 1) := by
    simp only [Slice.raw, if_true, byteLength_append]
    rfl
  have text : (Slice.quoted body true).raw ++ rest = '"' :: (body ++ '"' :: rest) := by
    simp [Slice.raw]
  rw [past_eq before text size, quoted?, rest?_skip_one before rfl,
    Option.bind_some, findByte?_append h]
  simp only [takeBytes?_byteLength]
  rfl

theorem quoted?_open {body : List Char} (h : '"' ∉ body) :
    (between before ('"' :: body)).quoted? = some (past before (.quoted body false) []) := by
  rw [quoted?, rest?_skip_one before rfl, Option.bind_some, findByte?_eq_none h]
  simp [past, between, Slice.raw, Slice.token?, Round.of]

theorem escaped?_between (c : Char) (rest : List Char) :
    (between before ('\\' :: c :: rest)).escaped? =
      some (past before (.escaped (some c)) rest) := by
  rw [past_eq before rfl rfl, escaped?, rest?_skip_one before rfl]
  rfl

theorem escaped?_end :
    (between before ['\\']).escaped? = some (past before (.escaped none) []) := by
  rw [past_eq before rfl rfl, escaped?, rest?_skip_one before rfl]
  rfl

theorem token?_tag (afterColon : Bool) (content : List Char) :
    (Slice.tag content).token? afterColon =
      (elapsedUnit? content).map fun unit => .elapsed unit (.ofCount (byteLength content)) := by
  have size {mark : List Char} (ascii : OneByte mark)
      (h : content.map Char.toLower = mark) : byteLength content = mark.length := by
    rw [byteLength_mark ascii h, ← h, List.length_map]
  rw [Slice.token?]
  split
  case h_7 _ h₁ h₂ h₃ h₄ h₅ h₆ =>
    simp only [elapsedUnit?]
    rw [if_neg (not_or.2 ⟨h₁, h₂⟩), if_neg (not_or.2 ⟨h₃, h₄⟩), if_neg (not_or.2 ⟨h₅, h₆⟩),
      Option.map_none]
  all_goals
    rename_i h
    simp [elapsedUnit?, h, size (by decide) h, Width.ofCount]

theorem tag?_closed {content : List Char} (h : ']' ∉ content) (rest : List Char) :
    (between before ('[' :: (content ++ ']' :: rest))).tag? =
      some (past before (.tag content) rest) := by
  have size : byteLength (Slice.tag content).raw = byteLength content + 2 := by
    simp only [Slice.raw, byteLength_append]
    rw [byteLength_cons, byteLength_cons, byteLength_nil, Nat.add_comm (Char.utf8Size _)]
    rfl
  have text : (Slice.tag content).raw ++ rest = '[' :: (content ++ ']' :: rest) := by
    simp [Slice.raw]
  rw [past_eq before text size, tag?, rest?_skip_one before rfl,
    Option.bind_some, findByte?_append h]
  simp only [takeBytes?_byteLength, Option.map_some, token?_tag]

theorem tag?_open {rest : List Char} (h : ']' ∉ rest) :
    (between before ('[' :: rest)).tag? = some (past before (.plain '[') rest) := by
  rw [past_eq before rfl rfl, tag?, rest?_skip_one before rfl, Option.bind_some,
    findByte?_eq_none h]
  rfl

theorem run?_between {letter : Letter} {c : Char} {text rest : List Char}
    (letters : ∀ d ∈ c :: text, d ∈ letter.chars) (longest : ∀ d ∈ rest.head?, d ∉ letter.chars) :
    (between before (c :: text ++ rest)).run? letter (c :: text ++ rest) =
      some (past before (.run letter (c :: text)) rest) := by
  rw [past_eq before rfl rfl, run?, afterColon?_between]
  simp only [Letter.ofChar?_eq_some, (takeWhile_run letters longest).1, List.length_cons,
    Letter.token_eq_reading]
  rfl

theorem meridiemMark?_eq (text : List Char) :
    meridiemMark? text =
      if StartsWithMark ['a', 'm', '/', 'p', 'm'] text then some (.full, 5)
      else if StartsWithMark ['a', '/', 'p'] text then
        some (if text.head? = some 'a' then .lower else .upper, 3)
      else none := by
  have full : OneByte ['a', 'm', '/', 'p', 'm'] := by decide
  have short : OneByte ['a', '/', 'p'] := by decide
  simp only [meridiemMark?, hasMark_eq full, hasMark_eq short, decide_eq_true_eq]

/-- No text with another first character has a mark. -/
theorem meridiemMark?_guard (c : Char) (rest : List Char) :
    (if c = 'A' ∨ c = 'a' then meridiemMark? (c :: rest) else none) =
      meridiemMark? (c :: rest) := by
  split
  · rfl
  next hc => rw [meridiemMark?_eq, if_neg fun h => hc h.head, if_neg fun h => hc h.head]

theorem past_mark {mark text rest : List Char} {slice : Slice} (ascii : OneByte mark)
    (h : text.map Char.toLower = mark) (hraw : slice.raw = text) :
    past before slice rest =
      .of (slice.token? (before.getLast? = some ':'))
        ((between before (text ++ rest)).skip mark.length) := by
  apply past_eq before (by rw [hraw])
  rw [hraw, byteLength_mark ascii h, ← h, List.length_map]

/-- At the first byte of a character the reader goes over the slice that starts there. -/
theorem round?_between {text rest : List Char} {slice : Slice} (h : Starts text slice rest) :
    (between before text).round? = some (past before slice rest) := by
  obtain ⟨c, tail, htext, _⟩ := h.eq_firstSlice
  have round : (between before text).round? = (between before text).roundAt? c text := by
    rw [round?, rest?_between, htext]
    rfl
  have guard : (if c = 'A' ∨ c = 'a' then meridiemMark? text else none) = meridiemMark? text := by
    rw [htext, meridiemMark?_guard]
  rw [round, roundAt?, guard, meridiemMark?_eq]
  cases h with
  | @meridiem mark rest full =>
    rw [if_pos (startsWithMark_append full), past_mark before (by decide) full rfl]
    rfl
  | @shortMeridiem mark rest short =>
    have ne : mark ≠ [] := by
      rintro rfl
      contradiction
    obtain ⟨d, others, rfl⟩ := List.exists_cons_of_ne_nil ne
    rw [if_neg (not_startsWithMark_full short), if_pos (startsWithMark_append short),
      past_mark before (by decide) short rfl]
    rfl
  | quoted inside =>
    obtain ⟨rfl, -⟩ := List.cons.inj htext
    simp [StartsWithMark, quoted?_closed before inside]
  | unclosed inside =>
    obtain ⟨rfl, -⟩ := List.cons.inj htext
    simp [StartsWithMark, quoted?_open before inside]
  | escaped =>
    obtain ⟨rfl, -⟩ := List.cons.inj htext
    simp [StartsWithMark, escaped?_between]
  | backslash =>
    obtain ⟨rfl, -⟩ := List.cons.inj htext
    simp [StartsWithMark, escaped?_end]
  | tag inside =>
    obtain ⟨rfl, -⟩ := List.cons.inj htext
    simp [StartsWithMark, tag?_closed before inside]
  | @textSection rest =>
    obtain ⟨rfl, -⟩ := List.cons.inj htext
    have size : byteLength Slice.textSection.raw = 2 := rfl
    rw [past_eq before rfl size]
    simp [StartsWithMark, Slice.token?, Round.of, Slice.raw]
  | @run letter d text rest letters longest =>
    obtain ⟨rfl, -⟩ := List.cons.inj htext
    have mem := letters d List.mem_cons_self
    obtain ⟨quote, escape, bracket, semicolon⟩ := Letter.not_sign mem
    rw [List.cons_append, if_neg (Letter.not_startsWithMark mem _ _),
      if_neg (Letter.not_startsWithMark mem _ _), ← List.cons_append]
    simp only [quote, escape, bracket, semicolon, false_and, if_false,
      Letter.ofChar?_eq_some.2 mem, run?_between before letters longest]
  | @plain d rest noMark noQuote noEscape noTag noSection noLetter =>
    obtain ⟨rfl, -⟩ := List.cons.inj htext
    have noPrefix : ¬ (d = ';' ∧ [';', '@'].isPrefixOf (d :: rest)) := by
      rintro ⟨hd, pre⟩
      obtain ⟨others, hrest⟩ := List.isPrefixOf_iff_prefix.1 pre
      obtain ⟨-, rfl⟩ := List.cons.inj hrest
      exact noSection hd rfl
    rw [if_neg noMark.1, if_neg noMark.2]
    simp only [noQuote, noEscape, noPrefix, Letter.ofChar?_eq_none noLetter, if_false]
    by_cases hd : d = '['
    · subst hd
      rw [if_pos rfl, tag?_open before (noTag rfl)]
    · rw [if_neg hd, past_eq before rfl rfl]
      rfl

end Reader

end CellDisplay.DateCode
