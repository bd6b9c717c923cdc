import CellDisplay.TypeTag

/-! The format codes that spreadsheet files leave out because a number stands for them. -/
namespace CellDisplay.FormatCode

def builtin? (id : Nat) : Option String :=
  match id with
  | 0 => some "General"
  | 1 => some "0"
  | 2 => some "0.00"
  | 3 => some "#,##0"
  | 4 => some "#,##0.00"
  | 9 => some "0%"
  | 10 => some "0.00%"
  | 11 => some "0.00E+00"
  | 12 => some "# ?/?"
  | 13 => some "# ??/??"
  | 14 => some "m/d/yy"
  | 15 => some "d-mmm-yy"
  | 16 => some "d-mmm"
  | 17 => some "mmm-yy"
  | 18 => some "h:mm AM/PM"
  | 19 => some "h:mm:ss AM/PM"
  | 20 => some "h:mm"
  | 21 => some "h:mm:ss"
  | 22 => some "m/d/yy h:mm"
  | 37 => some "#,##0 ;(#,##0)"
  | 38 => some "#,##0 ;[Red](#,##0)"
  | 39 => some "#,##0.00;(#,##0.00)"
  | 40 => some "#,##0.00;[Red](#,##0.00)"
  | 45 => some "mm:ss"
  | 46 => some "[h]:mm:ss"
  | 47 => some "mmss.0"
  | 48 => some "##0.0E+0"
  | 49 => some "@"
  | _ => none

def isBuiltin (id : Nat) : Bool := (builtin? id).isSome

/-- The type of the cells that a built-in code is for: dates for 14 to 22 and 45 to 47. -/
def builtinTag? (id : Nat) : Option TypeTag :=
  if (14 ≤ id ∧ id ≤ 22) ∨ (45 ≤ id ∧ id ≤ 47) then some .date
  else if isBuiltin id then some .numeric
  else none

end CellDisplay.FormatCode
