/-! Where a pattern or a mark stands in a format code: the text after the first occurrence of a
pattern, and the texts on both sides of the last occurrence of a mark. -/
namespace CellDisplay.FormatCode

/-- What follows the first occurrence of a pattern. -/
def after? (pattern : List Char) : List Char → Option (List Char)
  | [] => if pattern.isEmpty then some [] else none
  | c :: rest =>
    if pattern.isPrefixOf (c :: rest) then some ((c :: rest).drop pattern.length)
    else after? pattern rest

def contains (pattern code : List Char) : Bool := (after? pattern code).isSome

/-- What precedes the last occurrence of a mark. -/
def beforeLast? (mark : Char) : List Char → Option (List Char)
  | [] => none
  | c :: rest =>
    match beforeLast? mark rest with
    | some head => some (c :: head)
    | none => if c = mark then some [] else none

/-- What follows the last occurrence of a mark. -/
def afterLast? (mark : Char) : List Char → Option (List Char)
  | [] => none
  | c :: rest =>
    match afterLast? mark rest with
    | some tail => some tail
    | none => if c = mark then some rest else none

theorem after?_isSome_iff {pattern code : List Char} :
    (after? pattern code).isSome ↔ pattern <:+: code := by
  induction code with
  | nil => simp [after?]
  | cons c rest ih =>
    rw [after?, List.infix_cons_iff, ← List.isPrefixOf_iff_prefix]
    split <;> simp_all

/-- The text after the first occurrence of a pattern: none begins further ahead. -/
theorem after?_eq_some_iff {pattern code rest : List Char} :
    after? pattern code = some rest ↔ ∃ head, code = head ++ (pattern ++ rest) ∧
      ∀ other tail, code = other ++ (pattern ++ tail) → head.length ≤ other.length := by
  induction code with
  | nil => cases pattern <;> simp [after?, eq_comm]
  | cons c code ih =>
    rw [after?]
    split
    next found =>
      obtain ⟨tail, same⟩ := List.isPrefixOf_iff_prefix.1 found
      rw [← same, List.drop_left, Option.some_inj]
      constructor
      · rintro rfl
        exact ⟨[], rfl, fun _ _ _ => Nat.zero_le _⟩
      · rintro ⟨head, split, first⟩
        obtain rfl := List.length_eq_zero_iff.1 (Nat.le_zero.1 (first [] tail rfl))
        exact List.append_cancel_left split
    next missing =>
      rw [List.isPrefixOf_iff_prefix] at missing
      rw [ih]
      constructor
      · rintro ⟨head, rfl, first⟩
        refine ⟨c :: head, rfl, fun other tail split => ?_⟩
        cases other with
        | nil => exact absurd ⟨tail, split.symm⟩ missing
        | cons _ other => exact Nat.succ_le_succ (first other tail (List.cons.inj split).2)
      · rintro ⟨head, split, first⟩
        cases head with
        | nil => exact absurd ⟨rest, split.symm⟩ missing
        | cons d head =>
          obtain ⟨rfl, rfl⟩ := List.cons.inj split
          exact ⟨head, rfl, fun other tail same =>
            Nat.le_of_succ_le_succ (first (c :: other) tail (congrArg (c :: ·) same))⟩

end CellDisplay.FormatCode
