/-
Module: Bprd.Lib.LineReader
Layer: Lib
Purpose: Reading a stream line by line into a buffer. A line ends with its separator, or with the stream;
  a read takes at most n elements and stops behind a separator. Reading until the stream is empty cuts
  every line into pieces of n elements, independently of the other lines; a piece is known by its elements
  and by what is left of the stream behind it.
Imports: Mathlib.Data.List.Basic
Trusted boundary: none
Main exports: LineReader.lines, LineReader.readChunk, LineReader.reads, LineReader.pieces,
  LineReader.mem_pieces, LineReader.rest_shorter, LineReader.lines_flatten, LineReader.reads_eq
-/
import Mathlib.Data.List.Basic

namespace LineReader

section Pieces

variable {α : Type} {n : Nat} {line rest : List α}

/-- The pieces of n + 1 elements of a line, of which the last may be shorter, each with what is left of the
    stream behind it; the line is followed by `rest`. -/
def pieces (n : Nat) (rest : List α) : List α → List (List α × List α)
  | [] => []
  | c :: line => ((c :: line).take (n + 1), line.drop n ++ rest) :: pieces n rest (line.drop n)
termination_by line => line.length
decreasing_by
  rw [List.length_drop, List.length_cons]
  omega

theorem pieces_short (nonempty : line ≠ []) (fits : line.length ≤ n + 1) :
    pieces n rest line = [(line, rest)] := by
  cases line with
  | nil => exact absurd rfl nonempty
  | cons c line =>
      have none_ : line.drop n = [] := List.drop_eq_nil_of_le (Nat.le_of_succ_le_succ fits)
      rw [pieces, none_, pieces, List.take_of_length_le fits, List.nil_append]

theorem pieces_long (longer : ¬line.length ≤ n + 1) :
    pieces n rest line =
      (line.take (n + 1), line.drop (n + 1) ++ rest) :: pieces n rest (line.drop (n + 1)) := by
  cases line with
  | nil => exact absurd (Nat.zero_le _) longer
  | cons c line => rw [pieces, List.drop_succ_cons]

/-- The pieces of a line start at the multiples of n + 1. -/
theorem mem_pieces (n : Nat) (rest : List α) (piece : List α × List α) (line : List α) :
    piece ∈ pieces n rest line ↔ ∃ k, (n + 1) * k < line.length ∧
      piece = ((line.drop ((n + 1) * k)).take (n + 1), line.drop ((n + 1) * k + (n + 1)) ++ rest) := by
  by_cases fits : line.length ≤ n + 1
  · by_cases empty : line = []
    · rw [empty, pieces]
      refine iff_of_false List.not_mem_nil ?_
      rintro ⟨k, below, _⟩
      exact Nat.not_lt_zero _ below
    · have whole : ((line.drop ((n + 1) * 0)).take (n + 1), line.drop ((n + 1) * 0 + (n + 1)) ++ rest) =
          (line, rest) := by
        rw [Nat.mul_zero, List.drop_zero, List.take_of_length_le fits, Nat.zero_add,
          List.drop_eq_nil_of_le fits, List.nil_append]
      rw [pieces_short empty fits, List.mem_singleton]
      constructor
      · rintro rfl
        exact ⟨0, List.length_pos_iff.mpr empty, whole.symm⟩
      · rintro ⟨k, below, rfl⟩
        have first : k = 0 := by
          by_contra later
          have large : n + 1 ≤ (n + 1) * k := Nat.le_mul_of_pos_right _ (Nat.pos_of_ne_zero later)
          omega
        rw [first, whole]
  · rw [pieces_long fits, List.mem_cons, mem_pieces n rest piece (line.drop (n + 1))]
    constructor
    · rintro (rfl | ⟨k, below, rfl⟩)
      · refine ⟨0, by omega, ?_⟩
        rw [Nat.mul_zero, List.drop_zero, Nat.zero_add]
      · rw [List.length_drop] at below
        refine ⟨k + 1, by rw [Nat.mul_succ]; omega, ?_⟩
        rw [List.drop_drop, List.drop_drop, Nat.mul_succ, Nat.add_comm (n + 1) ((n + 1) * k),
          Nat.add_comm (n + 1) ((n + 1) * k + (n + 1))]
    · rintro ⟨k, below, rfl⟩
      cases k with
      | zero =>
          left
          rw [Nat.mul_zero, List.drop_zero, Nat.zero_add]
      | succ k =>
          rw [Nat.mul_succ] at below ⊢
          refine .inr ⟨k, by rw [List.length_drop]; omega, ?_⟩
          rw [List.drop_drop, List.drop_drop, Nat.add_comm (n + 1) ((n + 1) * k),
            Nat.add_comm (n + 1) ((n + 1) * k + (n + 1))]
termination_by line.length
decreasing_by
  rw [List.length_drop]
  omega

/-- Every piece starts before the end of the line. -/
theorem rest_shorter {piece : List α × List α} (member : piece ∈ pieces n rest line) :
    rest.length < piece.1.length + piece.2.length := by
  obtain ⟨k, below, rfl⟩ := (mem_pieces n rest piece line).mp member
  rw [List.length_take, List.length_drop, List.length_append, List.length_drop]
  omega

end Pieces

section Stream

variable {α : Type} [DecidableEq α] {sep : α}

/-- The lines of a stream, each with its separator. -/
def lines (sep : α) : List α → List (List α)
  | [] => []
  | c :: s =>
      if c = sep then [c] :: lines sep s
      else
        match lines sep s with
        | [] => [[c]]
        | line :: rest => (c :: line) :: rest

/-- One read of at most n elements, and the rest of the stream. -/
def readChunk (sep : α) : Nat → List α → List α × List α
  | 0, s => ([], s)
  | _ + 1, [] => ([], [])
  | n + 1, c :: s =>
      if c = sep then ([c], s)
      else (c :: (readChunk sep n s).1, (readChunk sep n s).2)

theorem readChunk_append (sep : α) : ∀ (n : Nat) (s : List α),
    (readChunk sep n s).1 ++ (readChunk sep n s).2 = s
  | 0, s => rfl
  | n + 1, [] => rfl
  | n + 1, c :: s => by
      rw [readChunk]
      split
      · rfl
      · exact congrArg (c :: ·) (readChunk_append sep n s)

/-- A read of a stream that is not at its end makes progress. -/
theorem readChunk_shorter (sep : α) (n : Nat) (c : α) (s : List α) :
    (readChunk sep (n + 1) (c :: s)).2.length < (c :: s).length := by
  have whole := congrArg List.length (readChunk_append sep n s)
  rw [List.length_append] at whole
  rw [readChunk]
  split
  · exact Nat.lt_succ_self _
  · rw [List.length_cons]
    dsimp only
    omega

/-- All reads of a stream, each with what is left of it. -/
def reads (sep : α) (n : Nat) : List α → List (List α × List α)
  | [] => []
  | c :: s => readChunk sep (n + 1) (c :: s) :: reads sep n (readChunk sep (n + 1) (c :: s)).2
termination_by s => s.length
decreasing_by exact readChunk_shorter sep n c s

theorem lines_eq_nil : ∀ {s : List α}, lines sep s = [] → s = []
  | [], _ => rfl
  | c :: s, empty => by
      rw [lines] at empty
      split at empty
      · cases empty
      · split at empty <;> cases empty

/-- The first line: its first element, and what the rest of the stream adds to it. -/
theorem lines_cons (sep c : α) (s : List α) :
    (c = sep ∧ lines sep (c :: s) = [c] :: lines sep s) ∨
      c ≠ sep ∧ ((s = [] ∧ lines sep (c :: s) = [[c]]) ∨
        ∃ line rest, lines sep s = line :: rest ∧ lines sep (c :: s) = (c :: line) :: rest) := by
  rw [lines]
  by_cases ends : c = sep
  · exact .inl ⟨ends, if_pos ends⟩
  · refine .inr ⟨ends, ?_⟩
    rw [if_neg ends]
    cases split : lines sep s with
    | nil => exact .inl ⟨lines_eq_nil split, rfl⟩
    | cons line rest => exact .inr ⟨line, rest, rfl, rfl⟩

theorem ne_nil_of_mem_lines : ∀ {s line : List α}, line ∈ lines sep s → line ≠ []
  | [], line, member => absurd member List.not_mem_nil
  | c :: s, line, member => by
      rcases lines_cons sep c s with ⟨_, whole⟩ | ⟨_, ⟨_, whole⟩ | ⟨line₁, rest, split, whole⟩⟩
      · rw [whole] at member
        rcases List.mem_cons.mp member with rfl | later
        · exact List.cons_ne_nil _ _
        · exact ne_nil_of_mem_lines later
      · rw [whole] at member
        rw [List.mem_singleton.mp member]
        exact List.cons_ne_nil _ _
      · rw [whole] at member
        rcases List.mem_cons.mp member with rfl | later
        · exact List.cons_ne_nil _ _
        · exact ne_nil_of_mem_lines (split ▸ List.mem_cons_of_mem _ later)

/-- A read takes the first n elements of the first line, and leaves the rest of it and the other lines. -/
theorem readChunk_lines : ∀ {n : Nat} {s line : List α} {rest : List (List α)},
    lines sep s = line :: rest →
      (readChunk sep n s).1 = line.take n ∧
        lines sep (readChunk sep n s).2 = if line.length ≤ n then rest else line.drop n :: rest
  | _, [], line, rest, split => by cases split
  | 0, c :: s, line, rest, split => by
      have nonempty : line ≠ [] := ne_nil_of_mem_lines (split ▸ List.mem_cons_self ..)
      rw [if_neg (Nat.not_le_of_lt (List.length_pos_iff.mpr nonempty))]
      exact ⟨rfl, split⟩
  | n + 1, c :: s, line, rest, split => by
      rw [readChunk]
      rcases lines_cons sep c s with ⟨ends, whole⟩ | ⟨inside, ⟨rfl, whole⟩ | ⟨line₁, rest₁, split₁, whole⟩⟩
      · rw [split] at whole
        cases whole
        have fits : [c].length ≤ n + 1 := Nat.succ_le_succ (Nat.zero_le n)
        rw [if_pos ends, if_pos fits, List.take_of_length_le fits]
        exact ⟨rfl, rfl⟩
      · rw [split] at whole
        cases whole
        have fits : [c].length ≤ n + 1 := Nat.succ_le_succ (Nat.zero_le n)
        rw [if_neg inside, if_pos fits]
        cases n with
        | zero => exact ⟨rfl, rfl⟩
        | succ n => exact ⟨rfl, rfl⟩
      · rw [split] at whole
        cases whole
        obtain ⟨taken, left⟩ := @readChunk_lines n s line₁ rest split₁
        rw [if_neg inside]
        refine ⟨congrArg (c :: ·) taken, left.trans ?_⟩
        rw [List.length_cons, List.drop_succ_cons]
        by_cases fits : line₁.length ≤ n
        · rw [if_pos fits, if_pos (Nat.succ_le_succ fits)]
        · rw [if_neg fits, if_neg fun longer => fits (Nat.le_of_succ_le_succ longer)]

theorem lines_flatten : ∀ s : List α, (lines sep s).flatten = s
  | [] => rfl
  | c :: s => by
      have later := lines_flatten s
      rcases lines_cons sep c s with ⟨_, whole⟩ | ⟨_, ⟨rfl, whole⟩ | ⟨line, rest, split, whole⟩⟩
      · rw [whole, List.flatten_cons, later]
        rfl
      · rw [whole]
        rfl
      · rw [split] at later
        rw [whole, List.flatten_cons, List.cons_append, ← List.flatten_cons, later]

/-- The pieces of some lines, each with what is left behind it. -/
def cutLines (n : Nat) : List (List α) → List (List α × List α)
  | [] => []
  | line :: later => pieces n later.flatten line ++ cutLines n later

/-- Reading a stream cuts each of its lines into pieces. -/
theorem reads_eq (sep : α) (n : Nat) : ∀ s : List α, reads sep n s = cutLines n (lines sep s)
  | [] => by rw [reads, lines, cutLines]
  | c :: s => by
      cases split : lines sep (c :: s) with
      | nil => exact absurd (lines_eq_nil split) (List.cons_ne_nil c s)
      | cons line rest =>
          obtain ⟨taken, left⟩ := @readChunk_lines _ _ sep (n + 1) _ line rest split
          have after := @lines_flatten _ _ sep (readChunk sep (n + 1) (c :: s)).2
          rw [reads, reads_eq sep n, left, cutLines]
          by_cases fits : line.length ≤ n + 1
          · have nonempty : line ≠ [] := ne_nil_of_mem_lines (split ▸ List.mem_cons_self ..)
            rw [left, if_pos fits] at after
            have read : readChunk sep (n + 1) (c :: s) = (line, rest.flatten) :=
              Prod.ext (taken.trans (List.take_of_length_le fits)) after.symm
            rw [if_pos fits, pieces_short nonempty fits, read]
            rfl
          · rw [left, if_neg fits, List.flatten_cons] at after
            have read : readChunk sep (n + 1) (c :: s) =
                (line.take (n + 1), line.drop (n + 1) ++ rest.flatten) := Prod.ext taken after.symm
            rw [if_neg fits, pieces_long fits, cutLines, read]
            rfl
termination_by s => s.length
decreasing_by exact readChunk_shorter sep n c s

end Stream

end LineReader
