import Mathlib.Data.List.Chain
import CellDisplay.DateCode.Minutes

/-! Which numbers of months are minutes. The pass over the tokens carries one flag from token to
token and looks ahead, and it overwrites what it has passed; still it decides by the tokens as they
were, namely by the nearest of them on either side that does not stand aside. Merged literals stay
apart, and a second pass finds nothing left to turn. -/
namespace CellDisplay.DateCode

/-! ### Runs of literals -/

/-- Tokens, and the same tokens with every longest run of literals as one literal. -/
inductive Merges : List Token → List Token → Prop where
  | nil : Merges [] []
  | other {token : Token} {rest merged : List Token} (noLiteral : ¬ token.isLiteral)
      (others : Merges rest merged) : Merges (token :: rest) (token :: merged)
  | run {texts : List (List Char)} {rest merged : List Token} (nonempty : texts ≠ [])
      (longest : ∀ token ∈ rest.head?, ¬ token.isLiteral) (others : Merges rest merged) :
    Merges (texts.map .literal ++ rest) (.literal texts.flatten :: merged)

variable {token : Token} {text more : List Char} {tokens rest merged others : List Token}

theorem mergeLiterals_other (h : ¬ token.isLiteral) :
    mergeLiterals (token :: rest) = token :: mergeLiterals rest := by
  cases token with
  | literal _ => exact absurd rfl h
  | _ => rfl

theorem mergeLiterals_last (h : ∀ token ∈ rest.head?, ¬ token.isLiteral) :
    mergeLiterals (.literal text :: rest) = .literal text :: mergeLiterals rest := by
  cases rest with
  | nil => rfl
  | cons next rest =>
    have apart : ¬ next.isLiteral := h next rfl
    rw [mergeLiterals, mergeLiterals_other apart]
    cases next with
    | literal _ => exact absurd rfl apart
    | _ => rfl

theorem mergeLiterals_literal (h : mergeLiterals rest = .literal more :: others) :
    mergeLiterals (.literal text :: rest) = .literal (text ++ more) :: others := by
  rw [mergeLiterals, h]

theorem mergeLiterals_run {texts : List (List Char)} (nonempty : texts ≠ [])
    (longest : ∀ token ∈ rest.head?, ¬ token.isLiteral) :
    mergeLiterals (texts.map .literal ++ rest) = .literal texts.flatten :: mergeLiterals rest := by
  induction texts with
  | nil => contradiction
  | cons text texts ih =>
    cases texts with
    | nil => simpa using mergeLiterals_last longest
    | cons _ _ => exact mergeLiterals_literal (ih (List.cons_ne_nil _ _))

namespace Merges

theorem eq_mergeLiterals (h : Merges tokens merged) : merged = mergeLiterals tokens := by
  induction h with
  | nil => rfl
  | other noLiteral _ ih => rw [mergeLiterals_other noLiteral, ih]
  | run nonempty longest _ ih => rw [mergeLiterals_run nonempty longest, ih]

/-- One more literal joins the run that it stands before, or is a run of its own. -/
theorem exists_literal (h : Merges rest merged) (text : List Char) :
    ∃ merged, Merges (.literal text :: rest) merged := by
  have alone (longest : ∀ token ∈ rest.head?, ¬ token.isLiteral) :
      ∃ merged, Merges (.literal text :: rest) merged :=
    ⟨_, run (List.cons_ne_nil text []) longest h⟩
  cases h with
  | nil => exact alone (by simp)
  | other noLiteral _ => exact alone (by simpa using noLiteral)
  | @run texts rest _ _ longest others =>
    exact ⟨_, run (List.cons_ne_nil text texts) longest others⟩

theorem head_of_head (h : Merges tokens merged)
    (apart : ∀ token ∈ tokens.head?, ¬ token.isLiteral) :
    ∀ token ∈ merged.head?, ¬ token.isLiteral := by
  cases h with
  | nil => simp
  | other noLiteral _ => simpa using noLiteral
  | @run texts _ _ nonempty _ _ =>
    obtain ⟨text, texts, rfl⟩ := List.exists_cons_of_ne_nil nonempty
    exact absurd rfl (apart (.literal text) rfl)

/-- Merged literals do not touch. -/
theorem apart (h : Merges tokens merged) :
    merged.IsChain fun a b => ¬ (a.isLiteral ∧ b.isLiteral) := by
  induction h with
  | nil => exact .nil
  | other noLiteral _ ih =>
    exact List.isChain_cons.2 ⟨fun _ _ both => noLiteral both.1, ih⟩
  | run _ longest others ih =>
    exact List.isChain_cons.2 ⟨fun b hb both => others.head_of_head longest b hb both.2, ih⟩

end Merges

theorem merges_mergeLiterals (tokens : List Token) : Merges tokens (mergeLiterals tokens) := by
  have total : ∃ merged, Merges tokens merged := by
    induction tokens with
    | nil => exact ⟨_, .nil⟩
    | cons token rest ih =>
      obtain ⟨merged, h⟩ := ih
      cases token with
      | literal text => exact h.exists_literal text
      | _ => exact ⟨_, .other (by simp [Token.isLiteral]) h⟩
  obtain ⟨merged, h⟩ := total
  exact h.eq_mergeLiterals ▸ h

theorem merges_iff : Merges tokens merged ↔ merged = mergeLiterals tokens := by
  constructor
  · exact Merges.eq_mergeLiterals
  · rintro rfl
    exact merges_mergeLiterals tokens

/-! ### Hours before and seconds behind -/

def Token.countsHours : Token → Bool
  | hour _ => true
  | elapsed .hours _ => true
  | _ => false

def Token.countsSeconds : Token → Bool
  | second _ => true
  | elapsed .seconds _ => true
  | _ => false

/-- Whether the last token that is neither a literal nor a meridiem counts hours. -/
def endsInHour (tokens : List Token) : Bool :=
  (tokens.reverse.find? fun token => !token.isLiteral && !token.isMeridiem).any Token.countsHours

/-- Whether the first token that is not a literal counts seconds. -/
def startsWithSecond (tokens : List Token) : Bool :=
  (tokens.find? fun token => !token.isLiteral).any Token.countsSeconds

/-- Whether the number of a month at a place is a minute. -/
def isMinuteAt (tokens : List Token) (i : ℕ) : Bool :=
  endsInHour (tokens.take i) || startsWithSecond (tokens.drop (i + 1))

/-- The number of a month turned into a minute; other tokens stay. -/
def turned (minute : Bool) : Token → Token
  | .month (.number width) => if minute then .minute width else .month (.number width)
  | token => token

theorem secondFollows_eq (tokens : List Token) : secondFollows tokens = startsWithSecond tokens := by
  induction tokens with
  | nil => rfl
  | cons token rest ih =>
    cases token with
    | literal _ => exact ih
    | elapsed unit _ => cases unit <;> rfl
    | _ => rfl

/-- The flag behind a token. -/
def hourCarried (afterHour : Bool) (token : Token) : Bool :=
  if token.isLiteral || token.isMeridiem then afterHour else token.countsHours

theorem endsInHour_concat (before : List Token) (token : Token) :
    endsInHour (before ++ [token]) = hourCarried (endsInHour before) token := by
  unfold hourCarried endsInHour
  rw [List.reverse_concat, List.find?_cons]
  cases token <;> rfl

/-- What the pass does at one token. -/
theorem resolveMinutes_cons (afterHour : Bool) (token : Token) (rest : List Token) :
    resolveMinutes afterHour (token :: rest) =
      turned (afterHour || startsWithSecond rest) token ::
        resolveMinutes (hourCarried afterHour token) rest := by
  rw [← secondFollows_eq]
  cases token with
  | month style => cases style <;> rfl
  | elapsed unit _ => cases unit <;> rfl
  | _ => rfl

/-- The flag is what the tokens passed so far end in, so every decision is one on the list as it
was. -/
theorem resolveMinutes_behind (before rest : List Token) :
    resolveMinutes (endsInHour before) rest =
      rest.mapIdx fun i => turned (isMinuteAt (before ++ rest) (before.length + i)) := by
  induction rest generalizing before with
  | nil => rfl
  | cons token rest ih =>
    have here : isMinuteAt (before ++ token :: rest) before.length =
        (endsInHour before || startsWithSecond rest) := by
      rw [isMinuteAt, List.take_left, ← List.drop_drop, List.drop_left, List.drop_one,
        List.tail_cons]
    have later := ih (before ++ [token])
    rw [endsInHour_concat, List.append_assoc, List.singleton_append, List.length_append,
      List.length_singleton] at later
    rw [resolveMinutes_cons, List.mapIdx_cons, later]
    simp only [Nat.add_zero, here, Nat.add_assoc, Nat.add_comm 1]

theorem resolveMinutes_eq_mapIdx (tokens : List Token) :
    resolveMinutes false tokens = tokens.mapIdx fun i => turned (isMinuteAt tokens i) := by
  have whole := resolveMinutes_behind [] tokens
  simp only [List.nil_append, List.length_nil, Nat.zero_add] at whole
  exact whole

/-- A meridiem stands aside for the hour before it; a month that was turned does not. -/
example : resolveMinutes false [.month (.number .natural), .hour .twentyFour, .meridiem .full,
      .month (.number .natural), .month (.number .natural)] =
    [.month (.number .natural), .hour .twentyFour, .meridiem .full, .minute .natural,
      .month (.number .natural)] := rfl

/-! ### A second pass -/

/-- What does not tell a minute from the number of a month does not tell whether one was turned. -/
theorem apply_turned {α : Type} {f : Token → α}
    (same : ∀ width, f (.minute width) = f (.month (.number width))) (minute : Bool)
    (token : Token) : f (turned minute token) = f token := by
  cases token with
  | month style =>
    cases style with
    | number width =>
      cases minute with
      | true => exact same width
      | false => rfl
    | _ => rfl
  | _ => rfl

theorem isLiteral_turned (minute : Bool) (token : Token) :
    (turned minute token).isLiteral = token.isLiteral :=
  apply_turned (fun _ => rfl) minute token

theorem countsSeconds_turned (minute : Bool) (token : Token) :
    (turned minute token).countsSeconds = token.countsSeconds :=
  apply_turned (fun _ => rfl) minute token

theorem hourCarried_turned (minute afterHour : Bool) (token : Token) :
    hourCarried afterHour (turned minute token) = hourCarried afterHour token :=
  apply_turned (fun _ => rfl) minute token

theorem turned_turned (minute : Bool) (token : Token) :
    turned minute (turned minute token) = turned minute token := by
  cases token with
  | month style => cases style <;> cases minute <;> rfl
  | _ => rfl

theorem map_isLiteral_resolveMinutes (afterHour : Bool) (tokens : List Token) :
    (resolveMinutes afterHour tokens).map Token.isLiteral = tokens.map Token.isLiteral := by
  induction tokens generalizing afterHour with
  | nil => rfl
  | cons token rest ih =>
    rw [resolveMinutes_cons, List.map_cons, ih, isLiteral_turned, List.map_cons]

theorem startsWithSecond_resolveMinutes (afterHour : Bool) (tokens : List Token) :
    startsWithSecond (resolveMinutes afterHour tokens) = startsWithSecond tokens := by
  unfold startsWithSecond
  induction tokens generalizing afterHour with
  | nil => rfl
  | cons token rest ih =>
    rw [resolveMinutes_cons, List.find?_cons, List.find?_cons, isLiteral_turned]
    cases token.isLiteral with
    | true => exact ih _
    | false => exact countsSeconds_turned _ _

theorem resolveMinutes_resolveMinutes (afterHour : Bool) (tokens : List Token) :
    resolveMinutes afterHour (resolveMinutes afterHour tokens) =
      resolveMinutes afterHour tokens := by
  induction tokens generalizing afterHour with
  | nil => rfl
  | cons token rest ih =>
    rw [resolveMinutes_cons, resolveMinutes_cons, startsWithSecond_resolveMinutes,
      hourCarried_turned, ih, turned_turned]

/-- The tokens of a code are its single tokens with literals merged and with those numbers of months
turned into minutes that stand behind an hour or before a second. No two literals are left side by
side, and there is no more to turn. -/
theorem tokenize_eq_mapIdx (code : List Char) :
    ∃ merged, (∀ others, Merges (lex code) others ↔ others = merged) ∧
      tokenize code = merged.mapIdx (fun i => turned (isMinuteAt merged i)) ∧
      (tokenize code).IsChain (fun a b => ¬ (a.isLiteral ∧ b.isLiteral)) ∧
      resolveMinutes false (tokenize code) = tokenize code := by
  refine ⟨mergeLiterals (lex code), fun _ => merges_iff, resolveMinutes_eq_mapIdx _, ?_,
    resolveMinutes_resolveMinutes false _⟩
  have apart := (merges_mergeLiterals (lex code)).apart
  rw [← List.isChain_map (R := fun a b : Bool => ¬ (a ∧ b)) Token.isLiteral] at apart ⊢
  rwa [tokenize, map_isLiteral_resolveMinutes]

end CellDisplay.DateCode
