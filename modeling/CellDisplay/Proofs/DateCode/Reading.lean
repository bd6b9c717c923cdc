import Mathlib.Data.List.Induction
import CellDisplay.Proofs.DateCode.Round

/-! A date code is read slice by slice. A reader comes from the start of the code to the end of each
slice and to nowhere else, so every step is between two characters, and the tokens on its way are
those of the slices in order. -/
namespace CellDisplay.DateCode

namespace Reader

variable {r next : Reader} {token : Token}

theorem next?_of_finished (h : r.round? = some .finished) : r.next? = some (none, r) := by
  rw [next?]
  split <;> simp_all

theorem next?_of_dropped (h : r.round? = some (.dropped next)) : r.next? = next.next? := by
  rw [next?]
  split <;> simp_all

theorem next?_of_read (h : r.round? = some (.read token next)) :
    r.next? = some (some token, next) := by
  rw [next?]
  split <;> simp_all

theorem tokens?_eq (r : Reader) :
    r.tokens? = r.next?.bind fun
      | (none, _) => some []
      | (some token, next) => next.tokens?.map (token :: ·) := by
  rw [tokens?]
  split <;> simp_all

/-! ### The whole run -/

/-- A reader comes over the slices of a text one after the other, whatever stands before them. -/
theorem tokens?_between {text : List Char} {slices : List Slice} (h : Cuts text slices)
    (before : List Char) : (between before text).tokens? = some (tokens before slices) := by
  induction h generalizing before with
  | nil =>
    have finished : (between before []).round? = some .finished := by
      rw [round?, rest?_between, Option.bind_some]
    rw [tokens?_eq, next?_of_finished finished]
    rfl
  | @cons text rest slice slices first _ ih =>
    have round := round?_between before first
    rw [past] at round
    rw [tokens]
    cases ht : slice.token? (before.getLast? = some ':') with
    | none =>
      rw [ht] at round
      rw [tokens?_eq, next?_of_dropped round, ← tokens?_eq, ih]
      rfl
    | some token =>
      rw [ht] at round
      rw [tokens?_eq, next?_of_read round]
      simp [ih]

/-- The readers on the way from the start of a code. -/
inductive Reached (code : List Char) : Reader → Prop where
  | start : Reached code (start code)
  | step {r next : Reader} {round : Round} (earlier : Reached code r)
      (h : r.round? = some round) (hn : round.next? = some next) : Reached code next

/-- The reader behind some of the slices of a code. -/
def behind (taken left : List Slice) : Reader :=
  between (taken.flatMap Slice.raw) (left.flatMap Slice.raw)

variable {code : List Char} {taken left : List Slice} {slice : Slice}

theorem behind_nil (h : Cuts code left) : behind [] left = start code := by
  rw [behind, h.flatMap_raw]
  rfl

theorem cuts_left (h : Cuts code (taken ++ left)) : Cuts (left.flatMap Slice.raw) left := by
  induction taken generalizing code with
  | nil =>
    rw [List.nil_append] at h
    rwa [h.flatMap_raw]
  | cons first taken ih =>
    cases h with
    | cons _ others => exact ih others

theorem round?_behind_all (taken : List Slice) : (behind taken []).round? = some .finished := by
  rw [behind, List.flatMap_nil, round?, rest?_between, Option.bind_some]

theorem round?_behind (h : Cuts code (taken ++ slice :: left)) :
    (behind taken (slice :: left)).round? =
      some (.of (slice.token? ((taken.flatMap Slice.raw).getLast? = some ':'))
        (behind (taken ++ [slice]) left)) := by
  obtain ⟨rest, first, others⟩ := (cuts_left h).first
  rw [behind, round?_between _ first, past, ← others.flatMap_raw, behind, List.flatMap_append,
    List.flatMap_singleton]

theorem reached_behind (h : Cuts code (taken ++ left)) : Reached code (behind taken left) := by
  induction taken using List.reverseRecOn generalizing left with
  | nil =>
    rw [List.nil_append] at h
    exact behind_nil h ▸ .start
  | append_singleton taken slice ih =>
    rw [List.append_assoc, List.singleton_append] at h
    exact (ih h).step (round?_behind h) (Round.next?_of _ _)

/-- A round takes a reader from the end of one slice to the end of the next. -/
theorem Reached.exists_behind {slices : List Slice} {r : Reader} (h : Cuts code slices)
    (hr : Reached code r) : ∃ taken left, slices = taken ++ left ∧ r = behind taken left := by
  induction hr with
  | start => exact ⟨[], slices, rfl, (behind_nil h).symm⟩
  | step _ hround hn ih =>
    obtain ⟨taken, left, rfl, rfl⟩ := ih
    cases left with
    | nil =>
      rw [round?_behind_all] at hround
      obtain rfl := Option.some.inj hround
      contradiction
    | cons slice left =>
      rw [round?_behind h] at hround
      obtain rfl := Option.some.inj hround
      obtain rfl := Option.some.inj ((Round.next?_of _ _).symm.trans hn)
      exact ⟨taken ++ [slice], left, by simp, rfl⟩

theorem reached_iff {slices : List Slice} (h : Cuts code slices) {r : Reader} :
    Reached code r ↔ ∃ taken left, slices = taken ++ left ∧ r = behind taken left := by
  constructor
  · intro hr
    exact hr.exists_behind h
  · rintro ⟨taken, left, rfl, rfl⟩
    exact reached_behind h

/-- Every reader on the way stands between two parts of the code. -/
theorem Reached.boundary {r : Reader} (hr : Reached code r) :
    r.position ≤ byteLength code ∧
      ∃ before rest, code = before ++ rest ∧ r = ⟨code, byteLength before⟩ := by
  have h := cuts_cut code
  obtain ⟨taken, left, hcut, rfl⟩ := (reached_iff h).1 hr
  have whole : taken.flatMap Slice.raw ++ left.flatMap Slice.raw = code := by
    rw [← List.flatMap_append, ← hcut, h.flatMap_raw]
  constructor
  · rw [← whole, byteLength_append]
    exact Nat.le_add_right _ _
  · refine ⟨taken.flatMap Slice.raw, left.flatMap Slice.raw, whole.symm, ?_⟩
    rw [behind, between, whole]

theorem tokens?_start (code : List Char) : (start code).tokens? = some (tokens [] (cut code)) :=
  tokens?_between (cuts_cut code) []

theorem lex_eq (code : List Char) : lex code = tokens [] (cut code) := by
  rw [lex, tokens?_start, Option.getD_some]

/-- How a code is read: where its slices are, where a reader stands on its way and what it does
there, and the tokens that it gathers. -/
structure ReadAs (code : List Char) (slices : List Slice) : Prop where
  unique : ∀ others, Cuts code others ↔ others = slices
  nonempty : ∀ slice ∈ slices, slice.raw ≠ []
  whole : slices.flatMap Slice.raw = code
  reached : ∀ r, Reached code r ↔ ∃ taken left, slices = taken ++ left ∧ r = behind taken left
  boundary : ∀ r, Reached code r → r.position ≤ byteLength code ∧
    ∃ before rest, code = before ++ rest ∧ r = ⟨code, byteLength before⟩
  round : ∀ taken slice left, slices = taken ++ slice :: left →
    (behind taken (slice :: left)).round? =
      some (.of (slice.token? ((taken.flatMap Slice.raw).getLast? = some ':'))
        (behind (taken ++ [slice]) left))
  finished : (behind slices []).round? = some .finished
  gathered : (start code).tokens? = some (tokens [] slices)
  lexed : lex code = tokens [] slices

/-- A code is read as its slices, of which there is one list. -/
theorem readAs_cut (code : List Char) : ReadAs code (cut code) where
  unique _ := cuts_iff
  nonempty := (cuts_cut code).raw_ne_nil
  whole := (cuts_cut code).flatMap_raw
  reached _ := reached_iff (cuts_cut code)
  boundary _ hr := hr.boundary
  round _ _ _ hcut := round?_behind (hcut ▸ cuts_cut code)
  finished := round?_behind_all (cut code)
  gathered := tokens?_start code
  lexed := lex_eq code

end Reader

end CellDisplay.DateCode
