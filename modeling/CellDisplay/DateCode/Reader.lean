import CellDisplay.DateCode.Letter
import CellDisplay.DateCode.Utf8

/-! A date code read from left to right. A reader stands at a byte of the code and moves on by
bytes: over a mark of known size, behind the next closing sign, over a run of one letter. A round
either reads a token or drops a piece that stands for none; `next?` goes on to the next token, and
`lex` gathers the tokens up to the end. A step fails (`none`) at a byte inside a character. -/
namespace CellDisplay.DateCode

/-- Whether the first bytes of a text are a mark given in lower case, in any ASCII case. -/
def hasMark (mark text : List Char) : Bool :=
  match takeBytes? mark.length text with
  | some head => head.map Char.toLower = mark
  | none => false

/-- The mark of the halves of the day that a text starts with, and its size. -/
def meridiemMark? (text : List Char) : Option (MeridiemStyle × Nat) :=
  if hasMark ['a', 'm', '/', 'p', 'm'] text then some (.full, 5)
  else if hasMark ['a', '/', 'p'] text then
    some (if text.head? = some 'a' then .lower else .upper, 3)
  else none

/-- The unit that a tag counts since the epoch; other tags count none. -/
def elapsedUnit? (content : List Char) : Option ElapsedUnit :=
  let content := content.map Char.toLower
  if content = ['h'] ∨ content = ['h', 'h'] then some .hours
  else if content = ['m'] ∨ content = ['m', 'm'] then some .minutes
  else if content = ['s'] ∨ content = ['s', 's'] then some .seconds
  else none

structure Reader where
  code : List Char
  position : Nat
  deriving DecidableEq, Repr

namespace Reader

def start (code : List Char) : Reader := ⟨code, 0⟩

/-- The text in front of the reader. -/
def rest? (r : Reader) : Option (List Char) := dropBytes? r.position r.code

/-- Whether a colon stands right behind the reader. -/
def afterColon? (r : Reader) : Option Bool :=
  (takeBytes? r.position r.code).map fun before => before.getLast? = some ':'

def skip (r : Reader) (bytes : Nat) : Reader := { r with position := r.position + bytes }

/-- What a round comes to. -/
inductive Round where
  | finished
  | dropped (next : Reader)
  | read (token : Token) (next : Reader)
  deriving DecidableEq, Repr

/-- The round of a piece with a token or with none. -/
def Round.of (token? : Option Token) (next : Reader) : Round :=
  match token? with
  | some token => read token next
  | none => dropped next

/-- From a quote to the next one, or to the end of the code. -/
def quoted? (r : Reader) : Option Round :=
  (r.skip 1).rest?.bind fun rest =>
    match findByte? '"' rest with
    | some size =>
      (takeBytes? size rest).map fun text => .read (.literal text) (r.skip (1 + (size + 1)))
    | none => some (.read (.literal rest) { r with position := byteLength r.code })

/-- A backslash and the character behind it, if there is one. -/
def escaped? (r : Reader) : Option Round :=
  (r.skip 1).rest?.map fun
    | [] => .read (.literal []) (r.skip 1)
    | c :: _ => .read (.literal [c]) (r.skip (1 + c.utf8Size))

/-- From a bracket to the next closing one; the bracket alone if there is none. -/
def tag? (r : Reader) : Option Round :=
  (r.skip 1).rest?.bind fun rest =>
    match findByte? ']' rest with
    | some size =>
      (takeBytes? size rest).map fun content =>
        .of ((elapsedUnit? content).map fun unit => .elapsed unit (.ofCount (byteLength content)))
          (r.skip (byteLength content + 2))
    | none => some (.read (.literal ['[']) (r.skip 1))

/-- The run of a letter at the start of a text. -/
def run? (r : Reader) (letter : Letter) (text : List Char) : Option Round :=
  r.afterColon?.map fun afterColon =>
    let letters := text.takeWhile (Letter.ofChar? · = some letter)
    .read (letter.token afterColon letters.length) (r.skip (byteLength letters))

/-- The round at a text that starts with the character `c`. -/
def roundAt? (r : Reader) (c : Char) (text : List Char) : Option Round :=
  match if c = 'A' ∨ c = 'a' then meridiemMark? text else none with
  | some (style, size) => some (.read (.meridiem style) (r.skip size))
  | none =>
    if c = '"' then r.quoted?
    else if c = '\\' then r.escaped?
    else if c = '[' then r.tag?
    else if c = ';' ∧ [';', '@'].isPrefixOf text then some (.dropped (r.skip 2))
    else
      match Letter.ofChar? c with
      | some letter => r.run? letter text
      | none => some (.read (.literal [c]) (r.skip c.utf8Size))

def round? (r : Reader) : Option Round :=
  r.rest?.bind fun
    | [] => some .finished
    | c :: rest => r.roundAt? c (c :: rest)

/-! ### Every round moves on -/

/-- The bytes in front of the reader. -/
def unread (r : Reader) : Nat := byteLength r.code - r.position

/-- A reader further on in the same code. -/
def Before (r next : Reader) : Prop := next.code = r.code ∧ r.position < next.position

theorem before_skip (r : Reader) {bytes : Nat} (h : 0 < bytes) : r.Before (r.skip bytes) :=
  ⟨rfl, Nat.lt_add_of_pos_right h⟩

namespace Round

/-- The reader that a round leaves behind. -/
def next? : Round → Option Reader
  | finished => none
  | dropped next => some next
  | read _ next => some next

@[simp] theorem next?_of (token? : Option Token) (next : Reader) :
    (Round.of token? next).next? = some next := by
  cases token? <;> rfl

end Round

variable {r next : Reader} {round : Round}

theorem quoted?_before (h : r.quoted? = some round) (hn : round.next? = some next) :
    r.Before next := by
  obtain ⟨rest, hrest, h⟩ := Option.bind_eq_some_iff.1 h
  cases hf : findByte? '"' rest with
  | some size =>
    simp only [hf, Option.map_eq_some_iff] at h
    obtain ⟨text, _, rfl⟩ := h
    obtain rfl := Option.some.inj hn
    exact r.before_skip (by omega)
  | none =>
    simp only [hf, Option.some.injEq] at h
    subst h
    obtain rfl := Option.some.inj hn
    have : byteLength r.code = r.position + 1 + byteLength rest := byteLength_of_dropBytes? hrest
    exact ⟨rfl, by simp only; omega⟩

theorem escaped?_before (h : r.escaped? = some round) (hn : round.next? = some next) :
    r.Before next := by
  obtain ⟨rest, _, rfl⟩ := Option.map_eq_some_iff.1 h
  cases rest <;> obtain rfl := Option.some.inj hn <;> exact r.before_skip (by omega)

theorem tag?_before (h : r.tag? = some round) (hn : round.next? = some next) :
    r.Before next := by
  obtain ⟨rest, _, h⟩ := Option.bind_eq_some_iff.1 h
  cases hf : findByte? ']' rest with
  | some size =>
    simp only [hf, Option.map_eq_some_iff] at h
    obtain ⟨content, _, rfl⟩ := h
    obtain rfl := Option.some.inj ((Round.next?_of _ _).symm.trans hn)
    exact r.before_skip (by omega)
  | none =>
    simp only [hf, Option.some.injEq] at h
    subst h
    obtain rfl := Option.some.inj hn
    exact r.before_skip (by omega)

theorem run?_before {letter : Letter} {c : Char} {rest : List Char}
    (hc : Letter.ofChar? c = some letter) (h : r.run? letter (c :: rest) = some round)
    (hn : round.next? = some next) : r.Before next := by
  obtain ⟨_, _, rfl⟩ := Option.map_eq_some_iff.1 h
  obtain rfl := Option.some.inj hn
  exact r.before_skip (byteLength_pos (by simp [hc]))

theorem meridiemMark?_pos {text : List Char} {style : MeridiemStyle} {size : Nat}
    (h : meridiemMark? text = some (style, size)) : 0 < size := by
  grind [meridiemMark?]

theorem roundAt?_before {c : Char} {rest : List Char} (h : r.roundAt? c (c :: rest) = some round)
    (hn : round.next? = some next) : r.Before next := by
  unfold roundAt? at h
  split at h
  next style size hm =>
    have hmark : meridiemMark? (c :: rest) = some (style, size) := by
      split at hm
      · exact hm
      · contradiction
    obtain rfl := Option.some.inj h
    obtain rfl := Option.some.inj hn
    exact r.before_skip (meridiemMark?_pos hmark)
  split at h
  · exact quoted?_before h hn
  split at h
  · exact escaped?_before h hn
  split at h
  · exact tag?_before h hn
  split at h
  · obtain rfl := Option.some.inj h
    obtain rfl := Option.some.inj hn
    exact r.before_skip (by omega)
  split at h
  next hc => exact run?_before hc h hn
  · obtain rfl := Option.some.inj h
    obtain rfl := Option.some.inj hn
    exact r.before_skip c.utf8Size_pos

/-- No round goes back or stays, and none starts at the end of the code. -/
theorem round?_unread (h : r.round? = some round) (hn : round.next? = some next) :
    next.unread < r.unread := by
  obtain ⟨text, hrest, h⟩ := Option.bind_eq_some_iff.1 h
  cases text with
  | nil =>
    obtain rfl := Option.some.inj h
    contradiction
  | cons c rest =>
    obtain ⟨hcode, hposition⟩ := roundAt?_before h hn
    have : byteLength r.code = r.position + byteLength (c :: rest) := byteLength_of_dropBytes? hrest
    have : 0 < byteLength (c :: rest) := byteLength_pos (List.cons_ne_nil c rest)
    rw [unread, unread, hcode]
    omega

/-! ### The tokens -/

/-- The next token, if any is left, and the reader behind it. -/
def next? (r : Reader) : Option (Option Token × Reader) :=
  match _ : r.round? with
  | none => none
  | some .finished => some (none, r)
  | some (.dropped next) => next.next?
  | some (.read token next) => some (some token, next)
termination_by r.unread
decreasing_by exact round?_unread ‹_› rfl

theorem next?_unread {token : Token} (h : r.next? = some (some token, next)) :
    next.unread < r.unread := by
  fun_induction next? r with
  | case1 => contradiction
  | case2 => simp at h
  | case3 r dropped hr ih => exact Nat.lt_trans (ih h) (round?_unread hr rfl)
  | case4 r token' next' hr =>
    obtain ⟨rfl, rfl⟩ : token' = token ∧ next' = next := by simpa using h
    exact round?_unread hr rfl

/-- The tokens from a reader to the end of its code. -/
def tokens? (r : Reader) : Option (List Token) :=
  match _ : r.next? with
  | none => none
  | some (none, _) => some []
  | some (some token, next) => next.tokens?.map (token :: ·)
termination_by r.unread
decreasing_by exact next?_unread ‹_›

end Reader

/-- Every step from the start of a code is at the first byte of a character or at the end, so there
always are tokens. -/
def lex (code : List Char) : List Token := ((Reader.start code).tokens?).getD []

end CellDisplay.DateCode
