/-
Module: Bprd.Proofs.ConfigLines
Layer: Proofs
Purpose: When the configuration file is read line by line. `fgets` cuts every line into pieces of 254
  characters, the test for over-long lines cannot hold, and the test for comments is made on every piece.
  So a line is taken as a whole exactly when it fits the buffer, or is a comment all of whose pieces look
  like comments; what stands behind a line that makes `create_commodity` exit is never read.
Imports: Bprd.Model.Config, Bprd.Lib.Fallible
Trusted boundary: none
Main exports: confileCalls, lineCalls, ReadsByLine, LineFits, ReachedFit, confileLoop_calls,
  confileCalls_eq_iff, reads_by_line_iff, long_comment_called
-/
import Bprd.Model.Config
import Bprd.Lib.Fallible

namespace Bprd

open LineReader (lines readChunk reads pieces cutLines)

/-- The line does not begin with `#`. -/
def notComment (line : List Char) : Bool := line.head? != some '#'

/-- The read is taken for a commodity. -/
def isCalled (read : List Char × List Char) : Bool := notComment read.1

section

variable {σ : Type} (create : σ → List Char → Except Fault σ)

/-- The calls that the loop of `confile_read` makes, each with what is left of the file behind its string.
    A call that fails is the last one. -/
def confileCalls (s : σ) (stream : List Char) : List (List Char × List Char) :=
  match _read : fgets 255 stream with
  | none => []
  | some (buf, rest) =>
      if (cString buf).length = 255 then []
      else if buf.head? = some '#' then confileCalls s rest
      else
        (cString buf, rest) ::
          match create s (cString buf) with
          | .error _ => []
          | .ok s' => confileCalls s' rest
termination_by stream.length
decreasing_by
  · exact fgets_shorter _read
  · exact fgets_shorter _read

/-- One call for each line that is no comment, with the whole line, until a call fails. -/
def lineCalls : σ → List (List Char) → List (List Char × List Char)
  | _, [] => []
  | s, line :: later =>
      if notComment line then
        (line, later.flatten) ::
          match create s line with
          | .error _ => []
          | .ok s' => lineCalls s' later
      else lineCalls s later

end

/-- The file is read line by line into the commodity list `clist`: the calls of `create_commodity`, by
    their strings and their places in the file, are one for each line that is no comment, in order and with
    the whole line, until one of them exits; or a line is too long and the file is rejected for it. -/
def ReadsByLine (clist : List Commodity) (content : List Char) : Prop :=
  confileCalls createCommodity clist content = lineCalls createCommodity clist (lines '\n' content) ∨
  (∃ line ∈ lines '\n' content, 254 < line.length) ∧
    confileLoop createCommodity clist content = .error (.logErr "Line in config file too long!")

/-- A line that is no comment has at most 254 characters, with its newline; a comment has a `#` at every
    multiple of 254. -/
def LineFits (text : List Char) : Prop :=
  if text.head? = some '#' then ∀ k, 254 * k < text.length → text[254 * k]? = some '#'
  else text.length ≤ 254

/-- A line within the buffer fits. -/
theorem lineFits_short {line : List Char} (short : line.length ≤ 254) : LineFits line := by
  rw [LineFits]
  split
  · rename_i comment
    intro k below
    have first : k = 0 := by omega
    rw [first, Nat.mul_zero, ← List.head?_eq_getElem?]
    exact comment
  · exact short

/-! ### The loop -/

theorem readChunk_length_le : ∀ (n : Nat) (s : List Char), (readChunk '\n' n s).1.length ≤ n
  | 0, _ => Nat.le_refl 0
  | _ + 1, [] => Nat.zero_le _
  | n + 1, c :: s => by
      rw [readChunk]
      split
      · exact Nat.succ_le_succ (Nat.zero_le n)
      · exact Nat.succ_le_succ (readChunk_length_le n s)

theorem cString_eq {buf : List Char} (noNul : '\x00' ∉ buf) : cString buf = buf := by
  rw [cString, List.takeWhile_eq_self_iff]
  intro c member
  rw [bne_iff_ne]
  rintro rfl
  exact noNul member

section

variable {σ : Type} {create : σ → List Char → Except Fault σ}

/-- The calls on some strings, until one fails. -/
def callsUntil (create : σ → List Char → Except Fault σ) :
    σ → List (List Char × List Char) → List (List Char × List Char)
  | _, [] => []
  | s, call :: calls =>
      call ::
        match create s call.1 with
        | .error _ => []
        | .ok s' => callsUntil create s' calls

/-- One round of the loop, for what it returns and for the calls it makes. -/
theorem confile_read {content buf rest : List Char} (s : σ) (noNul : '\x00' ∉ content)
    (read : fgets 255 content = some (buf, rest)) :
    confileLoop create s content =
        (if buf.head? = some '#' then confileLoop create s rest
        else
          match create s buf with
          | .error fault => .error fault
          | .ok s' => confileLoop create s' rest) ∧
      confileCalls create s content =
        if buf.head? = some '#' then confileCalls create s rest
        else
          (buf, rest) ::
            match create s buf with
            | .error _ => []
            | .ok s' => confileCalls create s' rest := by
  have taken : readChunk '\n' 254 content = (buf, rest) := by
    unfold fgets at read
    split at read
    · cases read
    · exact Option.some.inj read
  have whole := LineReader.readChunk_append '\n' 254 content
  have short := readChunk_length_le 254 content
  rw [taken] at whole short
  dsimp only at whole short
  have noNulBuf : '\x00' ∉ buf := fun inside => noNul (whole ▸ List.mem_append_left rest inside)
  have bounded : ¬buf.length = 255 := by omega
  constructor
  · rw [confileLoop]
    split
    · rename_i ended
      rw [read] at ended
      cases ended
    · rename_i same
      rw [read] at same
      cases same
      rw [cString_eq noNulBuf]
      exact if_neg bounded
  · rw [confileCalls]
    split
    · rename_i ended
      rw [read] at ended
      cases ended
    · rename_i same
      rw [read] at same
      cases same
      rw [cString_eq noNulBuf]
      exact if_neg bounded

/-- The loop never finds a line too long: its calls are those on the reads that do not begin with `#`, and
    its result is what they return. -/
theorem confileLoop_calls : ∀ {content : List Char} (s : σ), '\x00' ∉ content →
    confileCalls create s content =
        callsUntil create s ((reads '\n' 253 content).filter isCalled) ∧
      confileLoop create s content = ((confileCalls create s content).map Prod.fst).foldlM create s
  | [], s, _ => by
      rw [confileLoop, confileCalls, reads]
      exact ⟨rfl, rfl⟩
  | c :: content, s, noNul => by
      obtain ⟨buf, rest, taken⟩ : ∃ buf rest, readChunk '\n' (253 + 1) (c :: content) = (buf, rest) :=
        ⟨_, _, rfl⟩
      have whole := LineReader.readChunk_append '\n' (253 + 1) (c :: content)
      have shorter : rest.length < (c :: content).length := by
        have progress := LineReader.readChunk_shorter '\n' 253 c content
        rw [taken] at progress
        exact progress
      rw [taken] at whole
      have noNulRest : '\x00' ∉ rest := fun inside => noNul (whole ▸ List.mem_append_right buf inside)
      have read : fgets 255 (c :: content) = some (buf, rest) := by
        rw [← taken, fgets, if_neg (List.cons_ne_nil c content)]
      obtain ⟨returned, called⟩ := @confile_read σ create _ _ _ s noNul read
      rw [returned, called, reads, taken]
      by_cases comment : buf.head? = some '#'
      · have skipped : ¬isCalled (buf, rest) = true := by
          rw [isCalled, notComment, comment]
          exact Bool.false_ne_true
        rw [if_pos comment, if_pos comment, List.filter_cons_of_neg skipped]
        exact confileLoop_calls s noNulRest
      · have taken : isCalled (buf, rest) = true := bne_iff_ne.mpr comment
        rw [if_neg comment, if_neg comment, List.filter_cons_of_pos taken, callsUntil, List.map_cons,
          List.foldlM_cons]
        dsimp only
        cases create s buf with
        | error fault => exact ⟨rfl, rfl⟩
        | ok s' =>
            obtain ⟨calls, result⟩ := confileLoop_calls s' noNulRest
            exact ⟨congrArg _ calls, result⟩
termination_by content => content.length
decreasing_by
  · exact shorter
  · exact shorter

end

/-! ### One line -/

section

variable {line rest : List Char}

theorem notComment_iff : notComment line = true ↔ ¬line.head? = some '#' := bne_iff_ne

/-- A piece begins with the character of the line at its position. -/
theorem head?_piece (text : List Char) (k : Nat) : ((text.drop k).take (253 + 1)).head? = text[k]? := by
  rw [List.head?_take, if_neg (Nat.succ_ne_zero 253), List.head?_drop]

/-- The first piece of a line begins as the line does. -/
theorem notComment_take (line : List Char) : notComment (line.take 254) = notComment line := by
  cases line with
  | nil => rfl
  | cons c line => rfl

/-- The pieces of a line that are taken for commodities. -/
def calledPieces (rest line : List Char) : List (List Char × List Char) :=
  (pieces 253 rest line).filter isCalled

/-- A line that fits is called as it should be. -/
theorem calledPieces_fits (nonempty : line ≠ []) (fits : LineFits line) :
    calledPieces rest line = if notComment line then [(line, rest)] else [] := by
  by_cases comment : line.head? = some '#'
  · have skipped : ¬notComment line = true := by
      rw [notComment, comment]
      exact Bool.false_ne_true
    rw [LineFits, if_pos comment] at fits
    rw [if_neg skipped, calledPieces, List.filter_eq_nil_iff]
    intro piece isPiece
    obtain ⟨k, below, rfl⟩ := (LineReader.mem_pieces 253 rest piece line).mp isPiece
    rw [isCalled, notComment_iff, head?_piece, not_not]
    exact fits k below
  · have called : notComment line = true := bne_iff_ne.mpr comment
    rw [LineFits, if_neg comment] at fits
    rw [if_pos called, calledPieces, LineReader.pieces_short nonempty fits,
      List.filter_cons_of_pos (p := isCalled) (a := (line, rest)) called]
    rfl

/-- A line that does not fit has a piece that is taken for a commodity but is not the whole line. -/
theorem calledPieces_long (long : ¬LineFits line) : ∃ piece later, calledPieces rest line = piece :: later ∧
    rest.length < piece.1.length + piece.2.length ∧ (notComment line = true → piece.1 ≠ line) := by
  have member : ∀ {piece later}, calledPieces rest line = piece :: later → piece ∈ pieces 253 rest line := by
    intro piece later shape
    have called : piece ∈ (pieces 253 rest line).filter isCalled := by
      rw [← calledPieces, shape]
      exact List.mem_cons_self ..
    exact (List.mem_filter.mp called).1
  by_cases comment : line.head? = some '#'
  · have skipped : ¬notComment line = true := by
      rw [notComment, comment]
      exact Bool.false_ne_true
    rw [LineFits, if_pos comment] at long
    cases shape : calledPieces rest line with
    | nil =>
        refine absurd ?_ long
        intro k below
        have isPiece := (LineReader.mem_pieces 253 rest _ line).mpr ⟨k, below, rfl⟩
        have marked := List.filter_eq_nil_iff.mp shape _ isPiece
        rw [isCalled, notComment_iff, head?_piece, not_not] at marked
        exact marked
    | cons piece later =>
        exact ⟨piece, later, rfl, LineReader.rest_shorter (member shape), fun called => absurd called skipped⟩
  · have called : notComment line = true := bne_iff_ne.mpr comment
    rw [LineFits, if_neg comment] at long
    have shape : calledPieces rest line = (line.take 254, line.drop 254 ++ rest) ::
        calledPieces rest (line.drop 254) := by
      rw [calledPieces, LineReader.pieces_long long,
        List.filter_cons_of_pos (p := isCalled) (a := (line.take 254, _)) ((notComment_take line).trans called)]
      rfl
    refine ⟨_, _, shape, LineReader.rest_shorter (member shape), fun _ same => ?_⟩
    have lengths := congrArg List.length same
    rw [List.length_take] at lengths
    omega

end

/-! ### The file -/

section

variable {σ : Type} {create : σ → List Char → Except Fault σ}

/-- Every line fits that is reached: the calls for the lines before it do not fail. -/
def ReachedFit (create : σ → List Char → Except Fault σ) (s : σ) (ls : List (List Char)) : Prop :=
  ∀ before line after, ls = before ++ line :: after →
    (∃ s', (before.filter notComment).foldlM create s = .ok s') → LineFits line

/-- The first line fits, and if its call does not fail, so do the reached ones behind it. -/
theorem reachedFit_cons {s : σ} {line : List Char} {later : List (List Char)} :
    ReachedFit create s (line :: later) ↔ LineFits line ∧
      if notComment line then ∀ s', create s line = .ok s' → ReachedFit create s' later
      else ReachedFit create s later := by
  have rest : ∀ {before s'}, ((line :: before).filter notComment).foldlM create s = .ok s' ↔
      if notComment line then ∃ s₁, create s line = .ok s₁ ∧ (before.filter notComment).foldlM create s₁ = .ok s'
      else (before.filter notComment).foldlM create s = .ok s' := by
    intro before s'
    cases called : notComment line with
    | false =>
        rw [List.filter_cons_of_neg (by rw [called]; exact Bool.false_ne_true), if_neg Bool.false_ne_true]
    | true =>
        rw [List.filter_cons_of_pos called, List.foldlM_cons, if_pos rfl]
        exact Fallible.bind_eq_ok_iff
  constructor
  · intro fit
    refine ⟨fit [] line later rfl ⟨s, rfl⟩, ?_⟩
    split
    · rename_i called
      rintro s₁ created before l after rfl ⟨s', ran⟩
      refine fit (line :: before) l after rfl ⟨s', rest.mpr ?_⟩
      rw [if_pos called]
      exact ⟨s₁, created, ran⟩
    · rename_i comment
      rintro before l after rfl ⟨s', ran⟩
      refine fit (line :: before) l after rfl ⟨s', rest.mpr ?_⟩
      rw [if_neg comment]
      exact ran
  · rintro ⟨first, fit⟩ before l after split ⟨s', ran⟩
    cases before with
    | nil =>
        cases split
        exact first
    | cons line' before =>
        cases split
        have reached := rest.mp ran
        split at fit
        · rename_i called
          rw [if_pos called] at reached
          obtain ⟨s₁, created, ran'⟩ := reached
          exact fit s₁ created before l after rfl ⟨s', ran'⟩
        · rename_i comment
          rw [if_neg comment] at reached
          exact fit before l after rfl ⟨s', reached⟩

/-- The calls for some lines lie within them. -/
theorem lineCalls_within : ∀ {ls : List (List Char)} {s : σ} {call : List Char × List Char}
    {calls : List (List Char × List Char)}, lineCalls create s ls = call :: calls →
      call.1.length + call.2.length ≤ ls.flatten.length
  | [], _, _, _, shape => by cases shape
  | line :: later, s, call, calls, shape => by
      rw [List.flatten_cons, List.length_append]
      rw [lineCalls] at shape
      split at shape
      · cases shape
        exact Nat.le_refl _
      · have inside := lineCalls_within shape
        omega

theorem callsUntil_cons (s : σ) (call : List Char × List Char) (calls : List (List Char × List Char)) :
    callsUntil create s (call :: calls) = call ::
      match create s call.1 with
      | .error _ => []
      | .ok s' => callsUntil create s' calls := rfl

/-- The calls on the pieces of some lines are the calls for the lines if and only if every line fits that is
    reached. -/
theorem callsUntil_eq_iff : ∀ {ls : List (List Char)} (s : σ), (∀ line ∈ ls, line ≠ []) →
    (callsUntil create s ((cutLines 253 ls).filter isCalled) =
      lineCalls create s ls ↔ ReachedFit create s ls)
  | [], s, _ => by
      refine iff_of_true rfl ?_
      intro before line after split
      cases before <;> cases split
  | line :: later, s, nonempty => by
      have here := nonempty line (List.mem_cons_self ..)
      have after : ∀ l ∈ later, l ≠ [] := fun l member => nonempty l (List.mem_cons_of_mem _ member)
      rw [cutLines, List.filter_append, ← calledPieces, reachedFit_cons, lineCalls]
      by_cases fits : LineFits line
      · rw [calledPieces_fits here fits, and_iff_right fits]
        by_cases called : notComment line = true
        · simp only [if_pos called, List.singleton_append, callsUntil_cons, List.cons.injEq, true_and]
          cases created : create s line with
          | error fault => simp
          | ok s' => simp only [callsUntil_eq_iff s' after, Except.ok.injEq, forall_eq']
        · simp only [if_neg called, List.nil_append, callsUntil_eq_iff s after]
      · refine iff_of_false ?_ fun both => fits both.1
        obtain ⟨piece, pieces', shape, early, cut⟩ := @calledPieces_long line later.flatten fits
        rw [shape, List.cons_append, callsUntil_cons]
        intro same
        by_cases called : notComment line = true
        · rw [if_pos called] at same
          exact cut called (congrArg Prod.fst (List.cons.inj same).1)
        · rw [if_neg called] at same
          have late := lineCalls_within same.symm
          omega

theorem confileCalls_eq_iff {content : List Char} (s : σ) (noNul : '\x00' ∉ content) :
    confileCalls create s content = lineCalls create s (lines '\n' content) ↔
      ReachedFit create s (lines '\n' content) := by
  rw [(confileLoop_calls s noNul).1, LineReader.reads_eq]
  exact callsUntil_eq_iff s fun line member => LineReader.ne_nil_of_mem_lines member

end

/-- The messages of `create_commodity`. -/
theorem createCommodity_message {clist : List Commodity} {buf : List Char} {message : String}
    (failed : createCommodity clist buf = .error (.logErr message)) :
    message ∈ ["Error parsing commodity string", "Unable to convert string to address",
      "Duplicate commodity detected"] := by
  unfold createCommodity at failed
  cases read : commodityOf buf with
  | ok c =>
      rw [read, Fallible.ok_bind] at failed
      split at failed <;> cases failed
      decide
  | error fault =>
      rw [read] at failed
      cases failed
      unfold commodityOf at read
      cases scanned : scanCommodity buf with
      | ok taken =>
          rw [scanned, Fallible.ok_bind] at read
          dsimp only at read
          split at read <;> cases read
          decide
      | error fault =>
          rw [scanned] at read
          cases read
          unfold scanCommodity at scanned
          dsimp only at scanned
          split at scanned
          · cases scanned
          · split at scanned
            · cases scanned
              decide
            · split at scanned <;> cases scanned
              decide

/-- The loop fails only in a call. -/
theorem confileLoop_error {content : List Char} {clist : List Commodity} (noNul : '\x00' ∉ content)
    {message : String} (failed : confileLoop createCommodity clist content = .error (.logErr message)) :
    message ≠ "Line in config file too long!" := by
  rw [(confileLoop_calls clist noNul).2] at failed
  generalize (confileCalls createCommodity clist content).map Prod.fst = strings at failed
  induction strings generalizing clist with
  | nil => cases failed
  | cons s strings ih =>
      rw [List.foldlM_cons] at failed
      cases created : createCommodity clist s with
      | ok clist' =>
          rw [created, Fallible.ok_bind] at failed
          exact ih failed
      | error fault =>
          rw [created] at failed
          cases failed
          rintro rfl
          exact absurd (createCommodity_message created) (by decide)

/-- A file without NUL bytes is read line by line if and only if every line fits that is reached: until
    `create_commodity` exits. -/
theorem reads_by_line_iff (clist : List Commodity) (content : List Char) (noNul : '\x00' ∉ content) :
    ReadsByLine clist content ↔ ReachedFit createCommodity clist (lines '\n' content) := by
  rw [ReadsByLine, confileCalls_eq_iff clist noNul, or_iff_left]
  rintro ⟨_, rejected⟩
  exact confileLoop_error noNul rejected rfl

theorem reads_by_line_two : ReadsByLine [] "# hosts\n10.0.0.9,1".toList := by
  refine (reads_by_line_iff [] "# hosts\n10.0.0.9,1".toList (by decide)).mpr ?_
  intro before line after split _
  have short : ∀ l ∈ lines '\n' "# hosts\n10.0.0.9,1".toList, l.length ≤ 254 := by decide
  rw [split] at short
  exact lineFits_short (short line (List.mem_append_right _ (List.mem_cons_self ..)))

/-- A comment of 254 characters and a newline. -/
def longComment : List Char := List.replicate 254 '#' ++ ['\n']

/-- The newline behind it is taken for a commodity. -/
theorem long_comment_called : ¬ReadsByLine [] longComment := by
  have one : lines '\n' longComment = [longComment] := by decide +kernel
  rw [ReadsByLine, confileCalls_eq_iff [] (by decide +kernel), not_or]
  constructor
  · intro fit
    have newline := fit [] longComment [] one ⟨[], rfl⟩
    rw [LineFits, if_pos (by decide +kernel)] at newline
    exact absurd (newline 1 (by decide +kernel)) (by decide +kernel)
  · rintro ⟨_, rejected⟩
    exact confileLoop_error (by decide +kernel) rejected rfl

end Bprd
