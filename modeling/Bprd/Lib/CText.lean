/-
Module: Bprd.Lib.CText
Layer: Lib
Purpose: Text as the C library reads it. A string is the list of its characters, one for each byte and
  without the terminating NUL. White space and digits are those of the C locale; a number is read as
  `strtoul` reads it in base 10, with blanks and a sign in front of the digits.
Imports: Bprd.Lib.Fallible, Mathlib.Algebra.Order.BigOperators.Group.List,
  Mathlib.Algebra.Order.Ring.Nat, Mathlib.Data.List.Induction, Mathlib.Data.List.TakeWhile,
  Mathlib.Data.UInt
Trusted boundary: human-reviewed spec
Main exports: CText.isspace, CText.decimal, CText.strtoul, CText.inetPton4, CText.inetPton6,
  CText.strtoul_digits, CText.takeWhile_append_stop, CText.inetPton4_text, CText.inetPton6_text
-/
import Bprd.Lib.Fallible
import Mathlib.Algebra.Order.BigOperators.Group.List
import Mathlib.Algebra.Order.Ring.Nat
import Mathlib.Data.List.Induction
import Mathlib.Data.List.TakeWhile
import Mathlib.Data.UInt

namespace CText

/-- `isspace` in the C locale. -/
def isspace (c : Char) : Bool :=
  c = ' ' || c = '\t' || c = '\n' || c = '\x0b' || c = '\x0c' || c = '\r'

/-- The value of a string of decimal digits. -/
def decimal (digits : List Char) : Nat :=
  digits.foldl (fun value c => 10 * value + (c.toNat - '0'.toNat)) 0

/-- The sign in front of a number, and what follows it. -/
def splitSign : List Char → Bool × List Char
  | '-' :: s => (true, s)
  | '+' :: s => (false, s)
  | s => (false, s)

/-- The result of `strtoul` for the digits after the sign: `ULONG_MAX` when they are too large, else the
    value, negated modulo 2^64 after a minus sign. -/
def strtoulValue (negative : Bool) (digits : List Char) : UInt64 :=
  if 2 ^ 64 ≤ decimal digits then 0xffffffffffffffff
  else if negative then 0 - UInt64.ofNat (decimal digits)
  else UInt64.ofNat (decimal digits)

/-- `strtoul` in base 10: the number and the text behind it, if there is a number. -/
def strtoul (s : List Char) : Option (UInt64 × List Char) :=
  let signed := splitSign (s.dropWhile isspace)
  let digits := signed.2.takeWhile Char.isDigit
  if digits = [] then none
  else some (strtoulValue signed.1 digits, signed.2.dropWhile Char.isDigit)

/-- One number of a dotted-decimal address: at most three digits, without leading zeros, below 256. -/
def octet (s : List Char) : Option UInt8 :=
  if s ≠ [] ∧ s.length ≤ 3 ∧ s.all Char.isDigit ∧ (s.length = 1 ∨ s.head? ≠ some '0') ∧ decimal s < 256
  then some (UInt8.ofNat (decimal s))
  else none

/-- `inet_pton(AF_INET, …)`. -/
def inetPton4 (s : List Char) : Option (List UInt8) :=
  let parts := s.splitOn '.'
  if parts.length = 4 then parts.mapM octet else none

/-- The value of a hexadecimal digit. -/
def hexDigit (c : Char) : Option Nat :=
  if '0' ≤ c ∧ c ≤ '9' then some (c.toNat - '0'.toNat)
  else if 'a' ≤ c ∧ c ≤ 'f' then some (c.toNat - 'a'.toNat + 10)
  else if 'A' ≤ c ∧ c ≤ 'F' then some (c.toNat - 'A'.toNat + 10)
  else none

/-- One group of an IPv6 address: one to four hexadecimal digits, giving two bytes. -/
def hexGroup (s : List Char) : Option (List UInt8) :=
  if s ≠ [] ∧ s.length ≤ 4 then
    (s.mapM hexDigit).map fun digits =>
      let value := digits.foldl (fun value digit => 16 * value + digit) 0
      [UInt8.ofNat (value / 256), UInt8.ofNat value]
  else none

/-- Groups between colons. The last one may be a dotted-decimal address. -/
def hexGroups : List (List Char) → Option (List UInt8)
  | [] => some []
  | [last] => hexGroup last <|> inetPton4 last
  | s :: rest =>
      match hexGroup s, hexGroups rest with
      | some bytes, some later => some (bytes ++ later)
      | _, _ => none

/-- The text before and after the first double colon. -/
def splitDoubleColon : List Char → Option (List Char × List Char)
  | [] => none
  | c :: s =>
      match c, s with
      | ':', ':' :: after => some ([], after)
      | _, _ => (splitDoubleColon s).map fun halves => (c :: halves.1, halves.2)

/-- The groups of one side of a double colon, which may be empty. -/
def hexSide (s : List Char) : Option (List UInt8) := if s = [] then some [] else hexGroups (s.splitOn ':')

/-- `inet_pton(AF_INET6, …)`: eight groups, or fewer around a double colon that stands for at least one
    group of zeros. -/
def inetPton6 (s : List Char) : Option (List UInt8) :=
  match splitDoubleColon s with
  | none =>
      match hexGroups (s.splitOn ':') with
      | some bytes => if bytes.length = 16 then some bytes else none
      | none => none
  | some (before, after) =>
      if '.' ∈ before then none
      else
        match hexSide before, hexSide after with
        | some front, some back =>
            if front.length + back.length ≤ 14 then
              some (front ++ List.replicate (16 - front.length - back.length) 0 ++ back)
            else none
        | _, _ => none

/-! ### Numbers -/

theorem isspace_of_isDigit {c : Char} (digit : c.isDigit = true) : isspace c = false := by
  rw [Bool.eq_false_iff]
  intro space
  simp only [isspace, Bool.or_eq_true, decide_eq_true_eq] at space
  rcases space with ((((rfl | rfl) | rfl) | rfl) | rfl) | rfl
  all_goals exact absurd digit (by decide)

theorem splitSign_digit {c : Char} {s : List Char} (digit : c.isDigit = true) :
    splitSign (c :: s) = (false, c :: s) := by
  unfold splitSign
  split
  · rename_i same
    cases same
    exact absurd digit (by decide)
  · rename_i same
    cases same
    exact absurd digit (by decide)
  · rfl

theorem decimal_append (ds : List Char) (c : Char) :
    decimal (ds ++ [c]) = 10 * decimal ds + (c.toNat - '0'.toNat) := by
  rw [decimal, List.foldl_append]
  rfl

theorem decimal_lt {ds : List Char} (digits : ∀ c ∈ ds, c.isDigit = true) : decimal ds < 10 ^ ds.length := by
  induction ds using List.reverseRecOn with
  | nil => decide
  | append_singleton ds c ih =>
      have front := ih fun d inside => digits d (List.mem_append_left _ inside)
      have last : c.isDigit = true := digits c (List.mem_append_right _ (List.mem_singleton.mpr rfl))
      have range : 48 ≤ c.toNat ∧ c.toNat ≤ 57 := by
        simp only [Char.isDigit, Bool.and_eq_true, decide_eq_true_eq, ge_iff_le,
          UInt32.le_iff_toNat_le] at last
        exact last
      have zero : '0'.toNat = 48 := rfl
      rw [decimal_append, List.length_append, List.length_singleton, Nat.pow_succ, zero]
      omega

/-- A run of characters stops where the text goes on with something else. -/
theorem takeWhile_append_stop {p : Char → Bool} {run rest : List Char} (inside : ∀ c ∈ run, p c = true)
    (stop : ∀ c ∈ rest.head?, p c = false) :
    (run ++ rest).takeWhile p = run ∧ (run ++ rest).dropWhile p = rest := by
  rw [List.takeWhile_append_of_pos inside, List.dropWhile_append_of_pos inside]
  cases rest with
  | nil => exact ⟨List.append_nil run, rfl⟩
  | cons c rest =>
      have other : ¬p c = true := Bool.eq_false_iff.mp (stop c rfl)
      rw [List.takeWhile_cons_of_neg other, List.dropWhile_cons_of_neg other, List.append_nil]
      exact ⟨rfl, rfl⟩

/-- A number that is written with digits only is read as its value. -/
theorem strtoul_digits {ds rest : List Char} (nonempty : ds ≠ []) (digits : ∀ c ∈ ds, c.isDigit = true)
    (stop : ∀ c ∈ rest.head?, c.isDigit = false) (small : decimal ds < 2 ^ 64) :
    strtoul (ds ++ rest) = some (UInt64.ofNat (decimal ds), rest) := by
  cases ds with
  | nil => exact absurd rfl nonempty
  | cons c ds =>
      have digit : c.isDigit = true := digits c (List.mem_cons_self ..)
      have noBlank : ¬isspace c = true := Bool.eq_false_iff.mp (isspace_of_isDigit digit)
      obtain ⟨taken, left⟩ := takeWhile_append_stop digits stop
      rw [List.cons_append] at taken left ⊢
      unfold strtoul
      rw [List.dropWhile_cons_of_neg noBlank, splitSign_digit digit]
      dsimp only
      rw [taken, left, if_neg nonempty, strtoulValue, if_neg (Nat.not_le_of_lt small),
        if_neg Bool.false_ne_true]

/-! ### Addresses -/

/-- The characters of addresses. -/
def addressChar (c : Char) : Bool := (hexDigit c).isSome || c = '.' || c = ':'

theorem addressChar_not_space {c : Char} (char : addressChar c = true) : isspace c = false := by
  rw [Bool.eq_false_iff]
  intro space
  simp only [isspace, Bool.or_eq_true, decide_eq_true_eq] at space
  rcases space with ((((rfl | rfl) | rfl) | rfl) | rfl) | rfl
  all_goals exact absurd char (by decide)

theorem addressChar_of_isDigit {c : Char} (digit : c.isDigit = true) : addressChar c = true := by
  have range : '0' ≤ c ∧ c ≤ '9' := by
    simpa [Char.isDigit, Char.le_def] using digit
  rw [addressChar, hexDigit, if_pos range]
  rfl

section Joined

variable {α : Type} {sep : α}

theorem mem_intercalate {c : α} : ∀ {parts : List (List α)}, c ∈ [sep].intercalate parts →
    c = sep ∨ ∃ part ∈ parts, c ∈ part
  | [], inside => absurd inside List.not_mem_nil
  | [part], inside => by
      rw [List.intercalate_singleton] at inside
      exact .inr ⟨part, List.mem_cons_self .., inside⟩
  | part :: next :: parts, inside => by
      rw [List.intercalate_cons_cons, List.mem_append, List.mem_append, List.mem_singleton] at inside
      rcases inside with (here | isSep) | later
      · exact .inr ⟨part, List.mem_cons_self .., here⟩
      · exact .inl isSep
      · exact (mem_intercalate later).imp_right fun ⟨p, member, inside⟩ =>
          ⟨p, List.mem_cons_of_mem _ member, inside⟩

/-- Every part of a joined text counts with one more for its separator. -/
theorem length_intercalate : ∀ {parts : List (List α)}, parts ≠ [] →
    ([sep].intercalate parts).length + 1 = (parts.map fun part => part.length + 1).sum
  | [], nonempty => absurd rfl nonempty
  | [part], _ => by
      rw [List.intercalate_singleton]
      rfl
  | part :: next :: parts, _ => by
      have later := @length_intercalate (next :: parts) (List.cons_ne_nil _ _)
      rw [List.intercalate_cons_cons, List.map_cons, List.sum_cons, ← later, List.length_append,
        List.length_append, List.length_singleton, Nat.add_assoc]

end Joined

/-- Parts of a text, as they come from a split: the characters and the length of the text. -/
theorem split_text {sep : Char} {s : List Char} {size : Nat} (isChar : addressChar sep = true)
    (chars : ∀ part ∈ s.splitOn sep, ∀ c ∈ part, addressChar c = true)
    (bound : ((s.splitOn sep).map fun part => part.length + 1).sum ≤ size + 1) :
    (∀ c ∈ s, addressChar c = true) ∧ s.length ≤ size := by
  have joined : [sep].intercalate (s.splitOn sep) = s := List.intercalate_splitOn sep
  constructor
  · intro c inside
    rw [← joined] at inside
    rcases mem_intercalate inside with rfl | ⟨part, member, here⟩
    · exact isChar
    · exact chars part member c here
  · have total := @length_intercalate _ sep (s.splitOn sep) (List.splitOn_ne_nil sep s)
    rw [joined] at total
    omega

theorem octet_text {s : List Char} {byte : UInt8} (parsed : octet s = some byte) :
    (∀ c ∈ s, addressChar c = true) ∧ s.length ≤ 3 := by
  unfold octet at parsed
  split at parsed
  · rename_i valid
    obtain ⟨_, short, digits, _⟩ := valid
    exact ⟨fun c inside => addressChar_of_isDigit (List.all_eq_true.mp digits c inside), short⟩
  · cases parsed

theorem inetPton4_length {s : List Char} {bytes : List UInt8} (parsed : inetPton4 s = some bytes) :
    bytes.length = 4 := by
  unfold inetPton4 at parsed
  dsimp only at parsed
  split at parsed
  · rename_i four
    rw [← four]
    exact (Fallible.mapM_eq_some_iff.mp parsed).length_eq.symm
  · cases parsed

/-- A dotted-decimal address has at most 15 characters. -/
theorem inetPton4_text {s : List Char} {bytes : List UInt8} (parsed : inetPton4 s = some bytes) :
    (∀ c ∈ s, addressChar c = true) ∧ s.length ≤ 15 := by
  unfold inetPton4 at parsed
  dsimp only at parsed
  split at parsed
  · rename_i four
    have octets : ∀ part ∈ s.splitOn '.', (∀ c ∈ part, addressChar c = true) ∧ part.length ≤ 3 := by
      intro part member
      obtain ⟨_, _, isOctet⟩ := Fallible.related_mem_left (Fallible.mapM_eq_some_iff.mp parsed) member
      exact octet_text isOctet
    apply split_text (by decide) fun part member => (octets part member).1
    have bound := List.sum_le_card_nsmul ((s.splitOn '.').map fun part => part.length + 1) 4 (by
      intro size member
      obtain ⟨part, isPart, rfl⟩ := List.mem_map.mp member
      exact Nat.succ_le_succ (octets part isPart).2)
    rw [List.length_map, four] at bound
    exact bound
  · cases parsed

theorem hexGroup_text {s : List Char} {bytes : List UInt8} (parsed : hexGroup s = some bytes) :
    (∀ c ∈ s, addressChar c = true) ∧ s.length ≤ 4 ∧ bytes.length = 2 := by
  unfold hexGroup at parsed
  split at parsed
  · rename_i valid
    obtain ⟨digits, read, rfl⟩ := Option.map_eq_some_iff.mp parsed
    refine ⟨?_, valid.2, rfl⟩
    intro c inside
    obtain ⟨_, _, isDigit⟩ := Fallible.related_mem_left (Fallible.mapM_eq_some_iff.mp read) inside
    rw [addressChar, isDigit]
    rfl
  · cases parsed

/-- Twice the size of the groups, counted with a separator each, against the bytes they give: a group of
    four digits gives two bytes, and a dotted-decimal address four. -/
theorem hexGroups_text : ∀ {parts : List (List Char)} {bytes : List UInt8},
    hexGroups parts = some bytes →
      (∀ part ∈ parts, ∀ c ∈ part, addressChar c = true) ∧
        2 * (parts.map fun part => part.length + 1).sum ≤ 5 * bytes.length + 12
  | [], bytes, _ => ⟨fun part member => absurd member List.not_mem_nil, Nat.zero_le _⟩
  | [last], bytes, parsed => by
      have single : (([last] : List (List Char)).map fun part => part.length + 1).sum =
          last.length + 1 := rfl
      rw [hexGroups, Option.orElse_eq_some] at parsed
      rw [single]
      rcases parsed with group | ⟨_, quad⟩
      · obtain ⟨chars, short, two⟩ := hexGroup_text group
        exact ⟨fun part member => List.mem_singleton.mp member ▸ chars, by omega⟩
      · obtain ⟨chars, short⟩ := inetPton4_text quad
        have four := inetPton4_length quad
        exact ⟨fun part member => List.mem_singleton.mp member ▸ chars, by omega⟩
  | s :: next :: parts, bytes, parsed => by
      rw [hexGroups] at parsed
      · split at parsed
        · rename_i front later group rest
          cases parsed
          obtain ⟨chars, short, two⟩ := hexGroup_text group
          obtain ⟨charsLater, bound⟩ := hexGroups_text rest
          refine ⟨List.forall_mem_cons.mpr ⟨chars, charsLater⟩, ?_⟩
          rw [List.map_cons, List.sum_cons, List.length_append]
          omega
        · cases parsed
      · exact List.cons_ne_nil _ _

theorem hexSide_text {s : List Char} {bytes : List UInt8} (parsed : hexSide s = some bytes) :
    (∀ c ∈ s, addressChar c = true) ∧ 2 * (s.length + 1) ≤ 5 * bytes.length + 12 := by
  unfold hexSide at parsed
  split at parsed
  · rename_i empty
    rw [empty]
    exact ⟨fun c inside => absurd inside List.not_mem_nil, by simp⟩
  · obtain ⟨chars, bound⟩ := hexGroups_text parsed
    have sizes := @split_text ':' s ((5 * bytes.length + 10) / 2) (by decide) chars (by omega)
    exact ⟨sizes.1, by omega⟩

theorem splitDoubleColon_eq : ∀ {s before after : List Char}, splitDoubleColon s = some (before, after) →
    s = before ++ ':' :: ':' :: after
  | [], before, after, split => by cases split
  | c :: s, before, after, split => by
      unfold splitDoubleColon at split
      split at split
      · cases split
        rfl
      · obtain ⟨⟨front, back⟩, later, same⟩ := Option.map_eq_some_iff.mp split
        cases same
        rw [splitDoubleColon_eq later]
        rfl

/-- An IPv6 address has no other characters, and its length is bounded. -/
theorem inetPton6_text {s : List Char} {bytes : List UInt8} (parsed : inetPton6 s = some bytes) :
    (∀ c ∈ s, addressChar c = true) ∧ s.length ≤ 47 := by
  unfold inetPton6 at parsed
  cases halves : splitDoubleColon s with
  | none =>
      rw [halves] at parsed
      dsimp only at parsed
      split at parsed
      · rename_i all groups
        split at parsed
        · rename_i sixteen
          obtain ⟨chars, bound⟩ := hexGroups_text groups
          exact split_text (by decide) chars (by omega)
        · cases parsed
      · cases parsed
  | some pair =>
      obtain ⟨before, after⟩ := pair
      rw [halves] at parsed
      dsimp only at parsed
      have whole := splitDoubleColon_eq halves
      split at parsed
      · cases parsed
      · split at parsed
        · rename_i front back frontParsed backParsed
          split at parsed
          · rename_i zeros
            obtain ⟨charsFront, boundFront⟩ := hexSide_text frontParsed
            obtain ⟨charsBack, boundBack⟩ := hexSide_text backParsed
            rw [whole]
            constructor
            · intro c inside
              rcases List.mem_append.mp inside with inFront | behind
              · exact charsFront c inFront
              · rcases List.mem_cons.mp behind with rfl | behind
                · decide
                · rcases List.mem_cons.mp behind with rfl | inBack
                  · decide
                  · exact charsBack c inBack
            · rw [List.length_append, List.length_cons, List.length_cons]
              omega
          · cases parsed
        · cases parsed

theorem inetPton6_length {s : List Char} {bytes : List UInt8} (parsed : inetPton6 s = some bytes) :
    bytes.length = 16 := by
  unfold inetPton6 at parsed
  cases halves : splitDoubleColon s with
  | none =>
      rw [halves] at parsed
      dsimp only at parsed
      split at parsed
      · split at parsed
        · rename_i sixteen
          cases parsed
          exact sixteen
        · cases parsed
      · cases parsed
  | some pair =>
      rw [halves] at parsed
      dsimp only at parsed
      split at parsed
      · cases parsed
      · split at parsed
        · split at parsed
          · cases parsed
            rw [List.length_append, List.length_append, List.length_replicate]
            omega
          · cases parsed
        · cases parsed

end CText
