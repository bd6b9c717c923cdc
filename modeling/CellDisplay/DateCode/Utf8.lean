/-! Texts measured in the bytes of UTF-8. A text can be taken apart only between two characters, so
to take or drop a number of bytes fails (`none`) where that number ends inside a character. -/
namespace CellDisplay.DateCode

/-- The bytes that a text takes. -/
def byteLength : List Char → Nat
  | [] => 0
  | c :: rest => c.utf8Size + byteLength rest

/-- What follows the first `n` bytes. -/
def dropBytes? : Nat → List Char → Option (List Char)
  | 0, text => some text
  | _ + 1, [] => none
  | n + 1, c :: rest => if c.utf8Size ≤ n + 1 then dropBytes? (n + 1 - c.utf8Size) rest else none

/-- The first `n` bytes as a text. -/
def takeBytes? : Nat → List Char → Option (List Char)
  | 0, _ => some []
  | _ + 1, [] => none
  | n + 1, c :: rest =>
    if c.utf8Size ≤ n + 1 then (takeBytes? (n + 1 - c.utf8Size) rest).map (c :: ·) else none

/-- The byte where a character first stands. -/
def findByte? (mark : Char) : List Char → Option Nat
  | [] => none
  | c :: rest => if c = mark then some 0 else (findByte? mark rest).map (c.utf8Size + ·)

@[simp] theorem byteLength_nil : byteLength [] = 0 := rfl

@[simp] theorem byteLength_cons (c : Char) (text : List Char) :
    byteLength (c :: text) = c.utf8Size + byteLength text := rfl

theorem byteLength_append (a b : List Char) :
    byteLength (a ++ b) = byteLength a + byteLength b := by
  induction a with
  | nil => simp
  | cons c a ih => simp only [List.cons_append, byteLength_cons, ih, Nat.add_assoc]

theorem byteLength_pos {text : List Char} (h : text ≠ []) : 0 < byteLength text := by
  cases text with
  | nil => contradiction
  | cons c rest => exact Nat.add_pos_left c.utf8Size_pos _

/-! ### Between two characters -/

theorem dropBytes?_cons (c : Char) (text : List Char) (n : Nat) :
    dropBytes? (c.utf8Size + n) (c :: text) = dropBytes? n text := by
  obtain ⟨k, hk⟩ := Nat.exists_eq_add_of_le' (Nat.add_pos_left c.utf8Size_pos n)
  rw [hk, dropBytes?, ← hk, if_pos (Nat.le_add_right _ _), Nat.add_sub_cancel_left]

theorem takeBytes?_cons (c : Char) (text : List Char) (n : Nat) :
    takeBytes? (c.utf8Size + n) (c :: text) = (takeBytes? n text).map (c :: ·) := by
  obtain ⟨k, hk⟩ := Nat.exists_eq_add_of_le' (Nat.add_pos_left c.utf8Size_pos n)
  rw [hk, takeBytes?, ← hk, if_pos (Nat.le_add_right _ _), Nat.add_sub_cancel_left]

theorem dropBytes?_byteLength (a b : List Char) : dropBytes? (byteLength a) (a ++ b) = some b := by
  induction a with
  | nil => rw [byteLength_nil, dropBytes?, List.nil_append]
  | cons c a ih => rw [List.cons_append, byteLength_cons, dropBytes?_cons, ih]

theorem takeBytes?_byteLength (a b : List Char) : takeBytes? (byteLength a) (a ++ b) = some a := by
  induction a with
  | nil => rw [byteLength_nil, takeBytes?]
  | cons c a ih => rw [List.cons_append, byteLength_cons, takeBytes?_cons, ih, Option.map_some]

theorem byteLength_of_dropBytes? {n : Nat} {text rest : List Char}
    (h : dropBytes? n text = some rest) : byteLength text = n + byteLength rest := by
  induction text generalizing n with
  | nil =>
    cases n with
    | zero => simp_all [dropBytes?]
    | succ n => simp [dropBytes?] at h
  | cons c text ih =>
    cases n with
    | zero => simp_all [dropBytes?]
    | succ n =>
      simp only [dropBytes?] at h
      split at h
      · have := ih h
        simp only [byteLength]
        omega
      · contradiction

/-! ### The first place of a character -/

theorem findByte?_append {mark : Char} {a : List Char} (h : mark ∉ a) (b : List Char) :
    findByte? mark (a ++ mark :: b) = some (byteLength a) := by
  induction a with
  | nil => simp [findByte?]
  | cons c a ih =>
    rw [List.mem_cons, not_or] at h
    rw [List.cons_append, findByte?, if_neg (Ne.symm h.1), ih h.2]
    rfl

theorem findByte?_eq_none {mark : Char} {text : List Char} (h : mark ∉ text) :
    findByte? mark text = none := by
  induction text with
  | nil => rfl
  | cons c text ih =>
    rw [List.mem_cons, not_or] at h
    rw [findByte?, if_neg (Ne.symm h.1), ih h.2]
    rfl

end CellDisplay.DateCode
