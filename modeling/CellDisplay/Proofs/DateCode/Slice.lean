import Mathlib.Data.List.Basic
import Mathlib.Data.List.TakeWhile
import CellDisplay.DateCode.Reader

/-! A date code is cut into slices that follow one another without a gap: date letters in runs,
quoted and escaped texts, bracketed tags, meridiem marks, the mark of a text section, and single
characters. `Starts` says which slice a text starts with. No two kinds compete for a text except
that a single character stands only where no other slice starts. -/
namespace CellDisplay.DateCode

inductive Slice where
  /-- The mark of both halves of the day, in any case. -/
  | meridiem (text : List Char)
  /-- The mark with one letter for each half. -/
  | shortMeridiem (text : List Char)
  /-- A text behind a quote; the code may end before the closing quote. -/
  | quoted (body : List Char) (closed : Bool)
  /-- The character behind a backslash; the code may end before it. -/
  | escaped (c : Option Char)
  | tag (content : List Char)
  | textSection
  | run (letter : Letter) (text : List Char)
  | plain (c : Char)
  deriving DecidableEq, Repr

/-- The piece of the code that a slice covers. -/
def Slice.raw : Slice → List Char
  | meridiem text => text
  | shortMeridiem text => text
  | quoted body closed => '"' :: body ++ if closed then ['"'] else []
  | escaped c => '\\' :: c.toList
  | tag content => '[' :: content ++ [']']
  | textSection => [';', '@']
  | run _ text => text
  | plain c => [c]

def Letter.chars : Letter → List Char
  | year => ['y', 'Y']
  | month => ['m', 'M']
  | day => ['d', 'D']
  | clockHour => ['h']
  | fullHour => ['H']
  | second => ['s', 'S']

theorem Letter.ofChar?_eq_some {c : Char} {letter : Letter} :
    Letter.ofChar? c = some letter ↔ c ∈ letter.chars := by
  unfold Letter.ofChar?
  cases letter <;> grind [Letter.chars]

/-- Whether a text starts with a mark given in lower case, in any ASCII case. -/
def StartsWithMark (mark text : List Char) : Prop :=
  (text.take mark.length).map Char.toLower = mark

instance (mark text : List Char) : Decidable (StartsWithMark mark text) :=
  inferInstanceAs (Decidable (_ = _))

/-- A text, the slice it starts with, and what follows the slice. -/
inductive Starts : List Char → Slice → List Char → Prop where
  | meridiem {text rest : List Char} (mark : text.map Char.toLower = ['a', 'm', '/', 'p', 'm']) :
    Starts (text ++ rest) (.meridiem text) rest
  | shortMeridiem {text rest : List Char} (mark : text.map Char.toLower = ['a', '/', 'p']) :
    Starts (text ++ rest) (.shortMeridiem text) rest
  | quoted {body rest : List Char} (inside : '"' ∉ body) :
    Starts ('"' :: (body ++ '"' :: rest)) (.quoted body true) rest
  | unclosed {body : List Char} (inside : '"' ∉ body) :
    Starts ('"' :: body) (.quoted body false) []
  | escaped {c : Char} {rest : List Char} : Starts ('\\' :: c :: rest) (.escaped (some c)) rest
  | backslash : Starts ['\\'] (.escaped none) []
  | tag {content rest : List Char} (inside : ']' ∉ content) :
    Starts ('[' :: (content ++ ']' :: rest)) (.tag content) rest
  | textSection {rest : List Char} : Starts (';' :: '@' :: rest) .textSection rest
  | run {letter : Letter} {c : Char} {text rest : List Char}
      (letters : ∀ d ∈ c :: text, d ∈ letter.chars)
      (longest : ∀ d ∈ rest.head?, d ∉ letter.chars) :
    Starts (c :: text ++ rest) (.run letter (c :: text)) rest
  | plain {c : Char} {rest : List Char}
      (noMark : ¬ StartsWithMark ['a', 'm', '/', 'p', 'm'] (c :: rest) ∧
        ¬ StartsWithMark ['a', '/', 'p'] (c :: rest))
      (noQuote : c ≠ '"') (noEscape : c ≠ '\\') (noTag : c = '[' → ']' ∉ rest)
      (noSection : c = ';' → rest.head? ≠ some '@')
      (noLetter : ∀ letter : Letter, c ∉ letter.chars) :
    Starts (c :: rest) (.plain c) rest

theorem eq_of_toLower_eq_a {c : Char} (h : c.toLower = 'a') : c = 'A' ∨ c = 'a' := by
  unfold Char.toLower at h
  split at h
  · exact .inl (Char.ext (UInt32.eq_sub_iff_add_eq.2 (congrArg Char.val h)))
  · exact .inr h

theorem StartsWithMark.head {mark : List Char} {c : Char} {rest : List Char}
    (h : StartsWithMark ('a' :: mark) (c :: rest)) : c = 'A' ∨ c = 'a' :=
  eq_of_toLower_eq_a (List.cons.inj h).1

theorem startsWithMark_append {mark text rest : List Char} (h : text.map Char.toLower = mark) :
    StartsWithMark mark (text ++ rest) := by
  rw [StartsWithMark, ← h, List.length_map, List.take_left]

theorem not_startsWithMark_full {text rest : List Char}
    (short : text.map Char.toLower = ['a', '/', 'p']) :
    ¬ StartsWithMark ['a', 'm', '/', 'p', 'm'] (text ++ rest) := by
  have length : text.length = 3 := by simpa using congrArg List.length short
  obtain ⟨c, d, e, rfl⟩ := List.length_eq_three.1 length
  simp_all [StartsWithMark]

/-- What stands before the first place of a mark, and what stands behind it. -/
def upTo? (mark : Char) : List Char → Option (List Char × List Char)
  | [] => none
  | c :: rest =>
    if c = mark then some ([], rest)
    else (upTo? mark rest).map fun (before, behind) => (c :: before, behind)

/-- The slice that the text `c :: rest` starts with, and what follows it. -/
def firstSlice (c : Char) (rest : List Char) : Slice × List Char :=
  let text := c :: rest
  if StartsWithMark ['a', 'm', '/', 'p', 'm'] text then (.meridiem (text.take 5), text.drop 5)
  else if StartsWithMark ['a', '/', 'p'] text then (.shortMeridiem (text.take 3), text.drop 3)
  else if c = '"' then
    match upTo? '"' rest with
    | some (body, tail) => (.quoted body true, tail)
    | none => (.quoted rest false, [])
  else if c = '\\' then
    match rest with
    | [] => (.escaped none, [])
    | d :: tail => (.escaped (some d), tail)
  else if c = '[' then
    match upTo? ']' rest with
    | some (content, tail) => (.tag content, tail)
    | none => (.plain c, rest)
  else if c = ';' ∧ rest.head? = some '@' then (.textSection, rest.drop 1)
  else
    match Letter.ofChar? c with
    | some letter =>
      (.run letter (text.takeWhile (· ∈ letter.chars)), text.dropWhile (· ∈ letter.chars))
    | none => (.plain c, rest)

theorem upTo?_append {mark : Char} {before : List Char} (h : mark ∉ before) (behind : List Char) :
    upTo? mark (before ++ mark :: behind) = some (before, behind) := by
  induction before with
  | nil => simp [upTo?]
  | cons c before ih =>
    rw [List.mem_cons, not_or] at h
    simp [upTo?, Ne.symm h.1, ih h.2]

theorem upTo?_eq_none {mark : Char} {text : List Char} :
    upTo? mark text = none ↔ mark ∉ text := by
  induction text with
  | nil => simp [upTo?]
  | cons c text ih =>
    by_cases hc : c = mark
    · simp [upTo?, hc]
    · simp [upTo?, hc, ih, Ne.symm hc]

theorem upTo?_eq_some {mark : Char} {text before behind : List Char} :
    upTo? mark text = some (before, behind) ↔ mark ∉ before ∧ text = before ++ mark :: behind := by
  constructor
  · intro h
    by_cases mem : mark ∈ text
    · obtain ⟨a, b, rfl, inside⟩ := List.eq_append_cons_of_mem mem
      obtain ⟨rfl, rfl⟩ : a = before ∧ b = behind := by simpa [upTo?_append inside] using h
      exact ⟨inside, rfl⟩
    · rw [upTo?_eq_none.2 mem] at h
      contradiction
  · rintro ⟨inside, rfl⟩
    exact upTo?_append inside behind

/-! ### Each text starts with one slice -/

/-- A letter starts the longest run of itself. -/
theorem starts_run {c : Char} {letter : Letter} (h : c ∈ letter.chars) (rest : List Char) :
    Starts (c :: rest) (.run letter ((c :: rest).takeWhile (· ∈ letter.chars)))
      ((c :: rest).dropWhile (· ∈ letter.chars)) := by
  have whole : c :: rest = c :: rest.takeWhile (· ∈ letter.chars) ++
      rest.dropWhile (· ∈ letter.chars) := by
    rw [List.cons_append, List.takeWhile_append_dropWhile]
  simp only [List.takeWhile_cons, List.dropWhile_cons, h, decide_true, if_true]
  rw [whole]
  apply Starts.run
  · intro d hd
    rcases List.mem_cons.1 hd with rfl | hd
    · exact h
    · simpa using List.mem_takeWhile_imp hd
  · intro d hd
    have := List.head?_dropWhile_not (· ∈ letter.chars) rest
    rw [Option.mem_def.1 hd] at this
    simpa using this

theorem starts_firstSlice (c : Char) (rest : List Char) :
    Starts (c :: rest) (firstSlice c rest).1 (firstSlice c rest).2 := by
  simp only [firstSlice]
  split
  next full =>
    have := @Starts.meridiem ((c :: rest).take 5) ((c :: rest).drop 5) full
    rwa [List.take_append_drop] at this
  rename_i noFull
  split
  next short =>
    have := @Starts.shortMeridiem ((c :: rest).take 3) ((c :: rest).drop 3) short
    rwa [List.take_append_drop] at this
  rename_i noShort
  split
  next hc =>
    subst hc
    cases h : upTo? '"' rest with
    | none => exact .unclosed (upTo?_eq_none.1 h)
    | some parts =>
      obtain ⟨inside, rfl⟩ := upTo?_eq_some.1 h
      exact .quoted inside
  rename_i noQuote
  split
  next hc =>
    subst hc
    cases rest with
    | nil => exact .backslash
    | cons d tail => exact .escaped
  rename_i noEscape
  split
  next hc =>
    cases h : upTo? ']' rest with
    | none =>
      subst hc
      exact .plain ⟨noFull, noShort⟩ noQuote noEscape (fun _ => upTo?_eq_none.1 h)
        (fun h => absurd h (by decide)) (fun letter => by cases letter <;> decide)
    | some parts =>
      obtain ⟨inside, rfl⟩ := upTo?_eq_some.1 h
      exact hc ▸ .tag inside
  rename_i noTag
  split
  next hc =>
    obtain ⟨rfl, hrest⟩ := hc
    obtain ⟨tail, rfl⟩ := List.head?_eq_some_iff.1 hrest
    exact .textSection
  rename_i noSection
  cases hl : Letter.ofChar? c with
  | some letter => exact starts_run (Letter.ofChar?_eq_some.1 hl) rest
  | none =>
    refine .plain ⟨noFull, noShort⟩ noQuote noEscape (fun h => absurd h noTag)
      (fun h => fun head => noSection ⟨h, head⟩) fun letter mem => ?_
    rw [Letter.ofChar?_eq_some.2 mem] at hl
    contradiction

theorem Letter.not_sign {c : Char} {letter : Letter} (h : c ∈ letter.chars) :
    c ≠ '"' ∧ c ≠ '\\' ∧ c ≠ '[' ∧ c ≠ ';' := by
  cases letter <;> grind [Letter.chars]

theorem Letter.not_startsWithMark {c : Char} {letter : Letter} (h : c ∈ letter.chars)
    (mark rest : List Char) : ¬ StartsWithMark ('a' :: mark) (c :: rest) := by
  intro starts
  have := starts.head
  cases letter <;> grind [Letter.chars]

theorem Letter.ofChar?_eq_none {c : Char} (h : ∀ letter : Letter, c ∉ letter.chars) :
    Letter.ofChar? c = none :=
  Option.eq_none_iff_forall_ne_some.2 fun letter hl => h letter (Letter.ofChar?_eq_some.1 hl)

theorem takeWhile_run {letter : Letter} {text rest : List Char}
    (letters : ∀ d ∈ text, d ∈ letter.chars) (longest : ∀ d ∈ rest.head?, d ∉ letter.chars) :
    (text ++ rest).takeWhile (· ∈ letter.chars) = text ∧
      (text ++ rest).dropWhile (· ∈ letter.chars) = rest := by
  have inside : ∀ d ∈ text, decide (d ∈ letter.chars) = true := by simpa using letters
  rw [List.takeWhile_append_of_pos inside, List.dropWhile_append_of_pos inside]
  cases rest with
  | nil => simp
  | cons d rest => simp [longest d rfl]

theorem firstSlice_of_letter {c : Char} {letter : Letter} (h : c ∈ letter.chars)
    (rest : List Char) :
    firstSlice c rest = (.run letter ((c :: rest).takeWhile (· ∈ letter.chars)),
      (c :: rest).dropWhile (· ∈ letter.chars)) := by
  obtain ⟨quote, escape, bracket, semicolon⟩ := Letter.not_sign h
  simp only [firstSlice, Letter.not_startsWithMark h, quote, escape, bracket, semicolon, false_and,
    if_false, Letter.ofChar?_eq_some.2 h]

theorem Starts.eq_firstSlice {text rest : List Char} {slice : Slice} (h : Starts text slice rest) :
    ∃ c tail, text = c :: tail ∧ firstSlice c tail = (slice, rest) := by
  cases h with
  | @meridiem mark rest full =>
    have length : mark.length = 5 := by simpa using congrArg List.length full
    obtain ⟨c, tail, rfl⟩ := List.exists_cons_of_length_eq_add_one length
    refine ⟨c, tail ++ rest, rfl, ?_⟩
    simp only [firstSlice, ← List.cons_append, startsWithMark_append full, if_true,
      List.take_left' length, List.drop_left' length]
  | @shortMeridiem mark rest short =>
    have length : mark.length = 3 := by simpa using congrArg List.length short
    obtain ⟨c, tail, rfl⟩ := List.exists_cons_of_length_eq_add_one length
    refine ⟨c, tail ++ rest, rfl, ?_⟩
    simp only [firstSlice, ← List.cons_append, not_startsWithMark_full short,
      startsWithMark_append short, if_true, if_false, List.take_left' length,
      List.drop_left' length]
  | quoted inside => exact ⟨_, _, rfl, by simp [firstSlice, StartsWithMark, upTo?_append inside]⟩
  | unclosed inside =>
    exact ⟨_, _, rfl, by simp [firstSlice, StartsWithMark, upTo?_eq_none.2 inside]⟩
  | escaped => exact ⟨_, _, rfl, by simp [firstSlice, StartsWithMark]⟩
  | backslash => exact ⟨_, _, rfl, by simp [firstSlice, StartsWithMark]⟩
  | tag inside => exact ⟨_, _, rfl, by simp [firstSlice, StartsWithMark, upTo?_append inside]⟩
  | textSection => exact ⟨_, _, rfl, by simp [firstSlice, StartsWithMark]⟩
  | @run letter c text rest letters longest =>
    obtain ⟨taken, left⟩ := takeWhile_run letters longest
    refine ⟨c, text ++ rest, rfl, ?_⟩
    rw [firstSlice_of_letter (letters c List.mem_cons_self), ← List.cons_append, taken, left]
  | @plain c rest noMark noQuote noEscape noTag noSection noLetter =>
    have unmarked : ¬ (c = ';' ∧ rest.head? = some '@') := fun h => noSection h.1 h.2
    refine ⟨c, rest, rfl, ?_⟩
    simp only [firstSlice, noMark, noQuote, noEscape, unmarked, if_false,
      Letter.ofChar?_eq_none noLetter]
    split
    next hc => rw [upTo?_eq_none.2 (noTag hc)]
    · rfl

theorem Starts.raw_append {text rest : List Char} {slice : Slice} (h : Starts text slice rest) :
    slice.raw ++ rest = text := by
  cases h <;> simp [Slice.raw]

theorem Starts.raw_ne_nil {text rest : List Char} {slice : Slice} (h : Starts text slice rest) :
    slice.raw ≠ [] := by
  intro empty
  cases h with
  | @meridiem text _ mark =>
    obtain rfl : text = [] := empty
    contradiction
  | @shortMeridiem text _ mark =>
    obtain rfl : text = [] := empty
    contradiction
  | _ => simp [Slice.raw] at empty

theorem Starts.length_lt {text rest : List Char} {slice : Slice} (h : Starts text slice rest) :
    rest.length < text.length := by
  have := List.length_pos_iff.2 h.raw_ne_nil
  rw [← h.raw_append, List.length_append]
  omega

/-! ### The slices of a code -/

def cut : List Char → List Slice
  | [] => []
  | c :: rest => (firstSlice c rest).1 :: cut (firstSlice c rest).2
termination_by code => code.length
decreasing_by exact (starts_firstSlice c rest).length_lt

@[simp] theorem cut_nil : cut [] = [] := by rw [cut]

theorem cut_of_starts {text rest : List Char} {slice : Slice} (h : Starts text slice rest) :
    cut text = slice :: cut rest := by
  obtain ⟨c, tail, rfl, hs⟩ := h.eq_firstSlice
  rw [cut, hs]

/-- Slice after slice from the start of a text to its end. -/
inductive Cuts : List Char → List Slice → Prop where
  | nil : Cuts [] []
  | cons {text rest : List Char} {slice : Slice} {slices : List Slice}
      (first : Starts text slice rest) (others : Cuts rest slices) : Cuts text (slice :: slices)

theorem cuts_cut (code : List Char) : Cuts code (cut code) := by
  fun_induction cut code with
  | case1 => exact .nil
  | case2 c rest ih => exact .cons (starts_firstSlice c rest) ih

variable {code : List Char} {slices : List Slice}

theorem cuts_iff : Cuts code slices ↔ slices = cut code := by
  constructor
  · intro h
    induction h with
    | nil => exact cut_nil.symm
    | cons first _ ih => rw [cut_of_starts first, ih]
  · rintro rfl
    exact cuts_cut code

theorem Cuts.first {slice : Slice} (h : Cuts code (slice :: slices)) :
    ∃ rest, Starts code slice rest ∧ Cuts rest slices := by
  cases h with
  | cons first others => exact ⟨_, first, others⟩

theorem Cuts.flatMap_raw (h : Cuts code slices) : slices.flatMap Slice.raw = code := by
  induction h with
  | nil => rfl
  | cons first _ ih => rw [List.flatMap_cons, ih, first.raw_append]

theorem Cuts.raw_ne_nil (h : Cuts code slices) : ∀ slice ∈ slices, slice.raw ≠ [] := by
  induction h with
  | nil => simp
  | cons first _ ih => exact List.forall_mem_cons.2 ⟨first.raw_ne_nil, ih⟩

/-! ### Tokens -/

/-- What the run of a letter stands for, by its length. -/
def Letter.reading (afterColon : Bool) : Letter → Nat → Token
  | year, 1 => .year .short
  | year, 2 => .year .short
  | year, _ => .year .full
  | month, 1 => if afterColon then .minute .natural else .month (.number .natural)
  | month, 2 => if afterColon then .minute .padded else .month (.number .padded)
  | month, 3 => .month .abbreviated
  | month, 4 => .month .full
  | month, _ => .month .letter
  | day, 1 => .day (.number .natural)
  | day, 2 => .day (.number .padded)
  | day, 3 => .day .weekdayAbbreviated
  | day, _ => .day .weekdayFull
  | clockHour, 1 => .hour (.clock .natural)
  | clockHour, _ => .hour (.clock .padded)
  | fullHour, _ => .hour .twentyFour
  | second, 1 => .second .natural
  | second, _ => .second .padded

theorem Letter.token_eq_reading (letter : Letter) (afterColon : Bool) (count : Nat) :
    letter.token afterColon (count + 1) = letter.reading afterColon (count + 1) := by
  rcases count with _ | _ | _ | _ | count <;> cases letter <;>
    simp [token, reading, Width.ofCount]

/-- The token of a slice, which may stand right behind a colon. Most tags and the mark of a text
section have none. -/
def Slice.token? (afterColon : Bool) : Slice → Option Token
  | meridiem _ => some (.meridiem .full)
  | shortMeridiem text => some (.meridiem (if text.head? = some 'a' then .lower else .upper))
  | quoted body _ => some (.literal body)
  | escaped c => some (.literal c.toList)
  | tag content =>
    match content.map Char.toLower with
    | ['h'] => some (.elapsed .hours .natural)
    | ['h', 'h'] => some (.elapsed .hours .padded)
    | ['m'] => some (.elapsed .minutes .natural)
    | ['m', 'm'] => some (.elapsed .minutes .padded)
    | ['s'] => some (.elapsed .seconds .natural)
    | ['s', 's'] => some (.elapsed .seconds .padded)
    | _ => none
  | textSection => none
  | run letter text => some (letter.reading afterColon text.length)
  | plain c => some (.literal [c])

/-- The tokens of the slices that follow one another behind a part of the code. -/
def tokens (before : List Char) : List Slice → List Token
  | [] => []
  | slice :: rest =>
    (slice.token? (before.getLast? = some ':')).toList ++ tokens (before ++ slice.raw) rest

end CellDisplay.DateCode
