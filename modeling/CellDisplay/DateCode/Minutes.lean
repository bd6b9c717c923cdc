import CellDisplay.DateCode.Reader

/-! From single tokens to the tokens of a date code: literals that touch are one literal, and the
number of a month beside an hour or a second is a minute, whatever literals stand between. -/
namespace CellDisplay.DateCode

/-- Every run of literals as one literal. -/
def mergeLiterals : List Token → List Token
  | [] => []
  | .literal text :: rest =>
    match mergeLiterals rest with
    | .literal more :: others => .literal (text ++ more) :: others
    | others => .literal text :: others
  | token :: rest => token :: mergeLiterals rest

/-- Whether the first token that is no literal counts seconds. -/
def secondFollows : List Token → Bool
  | .literal _ :: rest => secondFollows rest
  | .second _ :: _ => true
  | .elapsed .seconds _ :: _ => true
  | _ => false

/-- Turns months into minutes, where `afterHour` says whether the last token that is neither a
literal nor a meridiem was an hour. -/
def resolveMinutes (afterHour : Bool) : List Token → List Token
  | [] => []
  | token :: rest =>
    match token with
    | .literal _ | .meridiem _ => token :: resolveMinutes afterHour rest
    | .hour _ | .elapsed .hours _ => token :: resolveMinutes true rest
    | .month (.number width) =>
      (if afterHour || secondFollows rest then .minute width else token) ::
        resolveMinutes false rest
    | _ => token :: resolveMinutes false rest

def tokenize (code : List Char) : List Token := resolveMinutes false (mergeLiterals (lex code))

end CellDisplay.DateCode
