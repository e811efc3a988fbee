/-
Module: Bprd.Lib.CPrint
Layer: Lib
Purpose: Text as the C library writes it. Numbers have no leading zeros. An IPv4 address is four numbers
  between dots. An IPv6 address is its groups between colons, where the first of the longest runs of at
  least two zero groups becomes a double colon, and the last two groups of a mapped or compatible IPv4
  address are written as that address. Every text is read back as the bytes it was written for.
Imports: Bprd.Lib.CText
Trusted boundary: human-reviewed spec
Main exports: CText.decimalText, CText.hexText, CText.inetNtop4, CText.inetNtop6, CText.decimal_decimalText,
  CText.inetPton4_inetNtop4, CText.inetPton6_inetNtop6, CText.splitDoubleColon_groups,
  CText.count_intercalate
-/
import Bprd.Lib.CText

namespace CText

/-- `%d`, for a number that is not negative. -/
def decimalText (n : Nat) : List Char := Nat.toDigits 10 n

/-- `%x`. -/
def hexText (n : Nat) : List Char := Nat.toDigits 16 n

/-- `inet_ntop(AF_INET, …)`. -/
def inetNtop4 (bytes : List UInt8) : List Char :=
  ['.'].intercalate (bytes.map fun byte => decimalText byte.toNat)

/-- The groups of an IPv6 address. -/
def groupsOf : List UInt8 → List Nat
  | high :: low :: bytes => (256 * high.toNat + low.toNat) :: groupsOf bytes
  | _ => []

/-- The number of zero groups from a position on. -/
def zerosAt (groups : List Nat) (base : Nat) : Nat := ((groups.drop base).takeWhile (· == 0)).length

/-- The longer run of zero groups: the best so far, given by its position and its length, or the one at
    `base`. -/
def longerZeros (groups : List Nat) (best : Nat × Nat) (base : Nat) : Nat × Nat :=
  if best.2 < zerosAt groups base then (base, zerosAt groups base) else best

/-- The first of the longest runs of zero groups, if it has at least two groups. -/
def longestZeros (groups : List Nat) : Option (Nat × Nat) :=
  let best := (List.range groups.length).foldl (longerZeros groups) (0, 0)
  if best.2 < 2 then none else some best

/-- What is written behind the double colon that stands for `len` groups from `base` on. -/
def behindZeros (bytes : List UInt8) (base len : Nat) : List (List Char) :=
  let groups := groupsOf bytes
  if base = 0 ∧ (len = 6 ∨ len = 5 ∧ groups[5]? = some 0xffff) then
    ((groups.take 6).drop len).map hexText ++ [inetNtop4 (bytes.drop 12)]
  else (groups.drop (base + len)).map hexText

/-- `inet_ntop(AF_INET6, …)`. -/
def inetNtop6 (bytes : List UInt8) : List Char :=
  match longestZeros (groupsOf bytes) with
  | none => [':'].intercalate ((groupsOf bytes).map hexText)
  | some (base, len) =>
      [':'].intercalate (((groupsOf bytes).take base).map hexText) ++
        ':' :: ':' :: [':'].intercalate (behindZeros bytes base len)

/-! ### Numbers -/

theorem decimal_decimalText (n : Nat) : decimal (decimalText n) = n := Nat.ofDigitChars_ten_toDigits

theorem decimalText_ne_nil (n : Nat) : decimalText n ≠ [] := Nat.toDigits_ne_nil

theorem decimalText_digits (n : Nat) : ∀ c ∈ decimalText n, c.isDigit = true :=
  fun _ inside => Nat.isDigit_of_mem_toDigits (by decide) (by decide) inside

theorem decimalText_length {n k : Nat} (small : n < 10 ^ k) (positive : 0 < k) :
    (decimalText n).length ≤ k :=
  (Nat.length_toDigits_le_iff (by decide) positive).mpr small

theorem strtoul_decimalText {n : Nat} (small : n < 2 ^ 64) :
    strtoul (decimalText n) = some (UInt64.ofNat n, []) := by
  have read := @strtoul_digits (decimalText n) [] (decimalText_ne_nil n) (decimalText_digits n)
    (fun _ none_ => absurd none_ (Option.not_mem_none _)) (by rw [decimal_decimalText]; exact small)
  rw [List.append_nil, decimal_decimalText] at read
  exact read

/-- Only zero starts with a zero. -/
theorem decimalText_head {n : Nat} (positive : 0 < n) : (decimalText n).head? ≠ some '0' := by
  unfold decimalText
  induction n using Nat.base_induction 10 (by decide) with
  | single n small =>
      rw [Nat.toDigits_of_lt_base small, List.head?_cons]
      intro zero
      rw [Option.some.injEq, Nat.digitChar_eq_zero] at zero
      omega
  | digit n d small higher ih =>
      rw [← Nat.toDigits_append_toDigits (by decide) higher small,
        List.head?_append_of_ne_nil _ Nat.toDigits_ne_nil]
      exact ih higher

theorem octet_decimalText (byte : UInt8) : octet (decimalText byte.toNat) = some byte := by
  have small : byte.toNat < 256 := byte.toNat_lt
  have noZero : (decimalText byte.toNat).length = 1 ∨ (decimalText byte.toNat).head? ≠ some '0' := by
    rcases Nat.eq_zero_or_pos byte.toNat with zero | positive
    · left
      rw [zero]
      rfl
    · exact .inr (decimalText_head positive)
  unfold octet
  rw [decimal_decimalText, if_pos, UInt8.ofNat_toNat]
  refine ⟨decimalText_ne_nil _, decimalText_length (by omega) (by decide), ?_, noZero, small⟩
  exact List.all_eq_true.mpr (decimalText_digits _)

theorem hexDigit_digitChar : ∀ digit < 16, hexDigit digit.digitChar = some digit := by decide

/-- The digits of a hexadecimal number, and the number they make. -/
theorem hexText_digits (n : Nat) : ∃ digits, (hexText n).mapM hexDigit = some digits ∧
    digits.foldl (fun value digit => 16 * value + digit) 0 = n := by
  unfold hexText
  induction n using Nat.base_induction 16 (by decide) with
  | single n small =>
      refine ⟨[n], ?_, Nat.zero_add n⟩
      rw [Nat.toDigits_of_lt_base small, List.mapM_cons, hexDigit_digitChar n small]
      rfl
  | digit n d small higher ih =>
      obtain ⟨digits, read, value⟩ := ih
      refine ⟨digits ++ [d], ?_, ?_⟩
      · rw [← Nat.toDigits_append_toDigits (by decide) higher small, List.mapM_append, read,
          Nat.toDigits_of_lt_base small, List.mapM_cons, hexDigit_digitChar d small]
        rfl
      · rw [List.foldl_append, value]
        rfl

theorem hexText_ne_nil (n : Nat) : hexText n ≠ [] := Nat.toDigits_ne_nil

theorem hexText_hexDigit {n : Nat} {c : Char} (inside : c ∈ hexText n) : (hexDigit c).isSome = true := by
  obtain ⟨digits, read, _⟩ := hexText_digits n
  obtain ⟨_, _, isDigit⟩ := Fallible.related_mem_left (Fallible.mapM_eq_some_iff.mp read) inside
  rw [isDigit]
  rfl

theorem not_mem_hexText {n : Nat} {c : Char} (other : hexDigit c = none) : c ∉ hexText n := by
  intro inside
  have digit := hexText_hexDigit inside
  rw [other] at digit
  cases digit

theorem hexGroup_hexText (high low : UInt8) :
    hexGroup (hexText (256 * high.toNat + low.toNat)) = some [high, low] := by
  have highSmall : high.toNat < 256 := high.toNat_lt
  have lowSmall : low.toNat < 256 := low.toNat_lt
  obtain ⟨digits, read, value⟩ := hexText_digits (256 * high.toNat + low.toNat)
  have short : (hexText (256 * high.toNat + low.toNat)).length ≤ 4 :=
    (Nat.length_toDigits_le_iff (by decide) (by decide)).mpr (by omega)
  have front : (256 * high.toNat + low.toNat) / 256 = high.toNat := by omega
  have back : UInt8.ofNat (256 * high.toNat + low.toNat) = low := by
    apply UInt8.toNat_inj.mp
    rw [UInt8.toNat_ofNat']
    omega
  rw [hexGroup, if_pos ⟨hexText_ne_nil _, short⟩, read, Option.map_some]
  dsimp only
  rw [value, front, back, UInt8.ofNat_toNat]

/-! ### Joined texts -/

/-- A separator that is in no part occurs between the parts only. -/
theorem count_intercalate {α : Type} [DecidableEq α] {sep : α} : ∀ {parts : List (List α)}, parts ≠ [] →
    (∀ part ∈ parts, sep ∉ part) → ([sep].intercalate parts).count sep + 1 = parts.length
  | [], nonempty, _ => absurd rfl nonempty
  | [part], _, absent => by
      rw [List.intercalate_singleton, List.count_eq_zero.mpr (absent part (List.mem_cons_self ..))]
      rfl
  | part :: next :: parts, _, absent => by
      have later := @count_intercalate α _ sep (next :: parts) (List.cons_ne_nil _ _)
        fun p member => absent p (List.mem_cons_of_mem _ member)
      rw [List.intercalate_cons_cons, List.count_append, List.count_append, List.count_singleton_self,
        List.count_eq_zero.mpr (absent part (List.mem_cons_self ..)), List.length_cons, ← later]
      omega

theorem intercalate_ne_nil {sep : Char} {parts : List (List Char)} (some_ : parts ≠ [])
    (nonempty : ∀ part ∈ parts, part ≠ []) : [sep].intercalate parts ≠ [] := by
  cases parts with
  | nil => exact absurd rfl some_
  | cons part parts =>
      intro empty
      have size := @length_intercalate _ sep (part :: parts) (List.cons_ne_nil _ _)
      have first := List.length_pos_of_ne_nil (nonempty part (List.mem_cons_self ..))
      rw [empty, List.length_nil, List.map_cons, List.sum_cons] at size
      omega

/-! ### IPv4 -/

theorem decimalText_not_mem {n : Nat} {c : Char} (other : c.isDigit = false) : c ∉ decimalText n := by
  intro inside
  rw [decimalText_digits n c inside] at other
  cases other

theorem inetNtop4_parts {bytes : List UInt8} :
    ∀ part ∈ bytes.map fun byte => decimalText byte.toNat, '.' ∉ part := by
  intro part member
  obtain ⟨byte, _, rfl⟩ := List.mem_map.mp member
  exact decimalText_not_mem (by decide)

theorem inetPton4_inetNtop4 {bytes : List UInt8} (four : bytes.length = 4) :
    inetPton4 (inetNtop4 bytes) = some bytes := by
  have some_ : (bytes.map fun byte => decimalText byte.toNat) ≠ [] := by
    apply List.ne_nil_of_length_pos
    rw [List.length_map]
    omega
  have parts : (inetNtop4 bytes).splitOn '.' = bytes.map fun byte => decimalText byte.toNat :=
    List.splitOn_intercalate '.' inetNtop4_parts some_
  unfold inetPton4
  rw [parts]
  dsimp only
  rw [if_pos (by rw [List.length_map, four]), Fallible.mapM_eq_some_iff, List.forall₂_map_left_iff,
    List.forall₂_same]
  exact fun byte _ => octet_decimalText byte

theorem inetNtop4_chars {bytes : List UInt8} {c : Char} (inside : c ∈ inetNtop4 bytes) :
    c = '.' ∨ c.isDigit = true := by
  rcases mem_intercalate inside with same | ⟨part, isPart, inPart⟩
  · exact .inl same
  · obtain ⟨byte, _, rfl⟩ := List.mem_map.mp isPart
    exact .inr (decimalText_digits _ c inPart)

/-- It is too long to be read as a group of an IPv6 address. -/
theorem hexGroup_inetNtop4 {bytes : List UInt8} (four : bytes.length = 4) :
    hexGroup (inetNtop4 bytes) = none := by
  have long : 4 < (inetNtop4 bytes).length := by
    obtain ⟨a, b, c, d, rfl⟩ : ∃ a b c d, bytes = [a, b, c, d] := by
      match bytes, four with
      | [a, b, c, d], _ => exact ⟨a, b, c, d, rfl⟩
    have total := @length_intercalate _ '.' ([a, b, c, d].map fun byte => decimalText byte.toNat)
      (List.cons_ne_nil _ _)
    have size : ∀ byte : UInt8, 0 < (decimalText byte.toNat).length :=
      fun byte => List.length_pos_of_ne_nil (decimalText_ne_nil _)
    have := size a
    have := size b
    have := size c
    have := size d
    simp only [List.map_cons, List.map_nil, List.sum_cons, List.sum_nil] at total
    rw [inetNtop4]
    simp only [List.map_cons, List.map_nil]
    omega
  rw [hexGroup, if_neg fun valid => by omega]

/-! ### The double colon -/

theorem splitDoubleColon_run : ∀ {run s : List Char}, ':' ∉ run →
    splitDoubleColon (run ++ s) = (splitDoubleColon s).map fun halves => (run ++ halves.1, halves.2)
  | [], s, _ => by
      rw [List.nil_append]
      cases splitDoubleColon s <;> rfl
  | c :: run, s, absent => by
      have other : c ≠ ':' := fun same => absent (same ▸ List.mem_cons_self ..)
      have later : ':' ∉ run := fun inside => absent (List.mem_cons_of_mem _ inside)
      rw [List.cons_append, splitDoubleColon, splitDoubleColon_run later, Option.map_map]
      · rfl
      · intro after same
        exact absurd same other

/-- A colon that another character follows is no double colon. -/
theorem splitDoubleColon_colon {c : Char} {s : List Char} (other : c ≠ ':') :
    splitDoubleColon (':' :: c :: s) =
      (splitDoubleColon (c :: s)).map fun halves => (':' :: halves.1, halves.2) := by
  rw [splitDoubleColon]
  intro after _ same
  exact other (List.cons.inj same).1

/-- Joined groups are passed on the way to a double colon. -/
theorem splitDoubleColon_groups {s : List Char} : ∀ {parts : List (List Char)},
    (∀ part ∈ parts, part ≠ [] ∧ ':' ∉ part) →
      splitDoubleColon ([':'].intercalate parts ++ s) =
        (splitDoubleColon s).map fun halves => ([':'].intercalate parts ++ halves.1, halves.2)
  | [], _ => by
      rw [List.intercalate_nil, List.nil_append]
      cases splitDoubleColon s <;> rfl
  | [part], plain => by
      rw [List.intercalate_singleton]
      exact splitDoubleColon_run (plain part (List.mem_cons_self ..)).2
  | part :: [] :: parts, plain => by
      exact absurd rfl (plain [] (List.mem_cons_of_mem _ (List.mem_cons_self ..))).1
  | part :: (c :: next) :: parts, plain => by
      have later := @splitDoubleColon_groups s ((c :: next) :: parts)
        fun p member => plain p (List.mem_cons_of_mem _ member)
      have other : c ≠ ':' := fun same =>
        (plain (c :: next) (List.mem_cons_of_mem _ (List.mem_cons_self ..))).2 (same ▸ List.mem_cons_self ..)
      obtain ⟨text, start⟩ : ∃ text, [':'].intercalate ((c :: next) :: parts) = c :: text := by
        cases parts with
        | nil => exact ⟨next, List.intercalate_singleton⟩
        | cons => exact ⟨_, List.intercalate_cons_cons⟩
      rw [start] at later
      rw [List.intercalate_cons_cons, start, List.append_assoc, List.append_assoc,
        splitDoubleColon_run (plain part (List.mem_cons_self ..)).2, List.singleton_append,
        List.cons_append, splitDoubleColon_colon other, ← List.cons_append, later, Option.map_map,
        Option.map_map]
      congr 1
      funext halves
      rw [Function.comp_apply, Function.comp_apply, List.append_assoc, List.append_assoc]
      rfl

/-! ### Groups -/

theorem hexGroups_cons {s : List Char} {rest : List (List Char)} {bytes later : List UInt8}
    (group : hexGroup s = some bytes) (groups : hexGroups rest = some later) :
    hexGroups (s :: rest) = some (bytes ++ later) := by
  cases rest with
  | nil =>
      cases groups
      rw [hexGroups, group, List.append_nil]
      rfl
  | cons next rest =>
      rw [hexGroups, group, groups]
      exact List.cons_ne_nil _ _

/-- Written groups are read back, in front of whatever else is read. -/
theorem hexGroups_groupsOf {tail : List (List Char)} {back : List UInt8}
    (later : hexGroups tail = some back) : ∀ {bytes : List UInt8}, bytes.length % 2 = 0 →
      hexGroups ((groupsOf bytes).map hexText ++ tail) = some (bytes ++ back)
  | [], _ => later
  | [_], odd => absurd (show 1 % 2 = 0 from odd) (by decide)
  | high :: low :: bytes, even => by
      have evenRest : bytes.length % 2 = 0 := by
        rw [List.length_cons, List.length_cons] at even
        omega
      have groups := hexGroups_cons (hexGroup_hexText high low) (hexGroups_groupsOf later evenRest)
      exact groups

theorem hexGroups_whole {bytes : List UInt8} (even : bytes.length % 2 = 0) :
    hexGroups ((groupsOf bytes).map hexText) = some bytes := by
  have read := hexGroups_groupsOf (show hexGroups [] = some [] from rfl) even
  rw [List.append_nil, List.append_nil] at read
  exact read

theorem groupsOf_length : ∀ bytes : List UInt8, (groupsOf bytes).length = bytes.length / 2
  | [] => rfl
  | [_] => show 0 = 1 / 2 by decide
  | high :: low :: bytes => by
      rw [groupsOf, List.length_cons, groupsOf_length bytes, List.length_cons, List.length_cons]
      omega

theorem groupsOf_take : ∀ (n : Nat) (bytes : List UInt8),
    groupsOf (bytes.take (2 * n)) = (groupsOf bytes).take n
  | 0, _ => rfl
  | _ + 1, [] => rfl
  | _ + 1, [_] => rfl
  | n + 1, _ :: _ :: bytes => congrArg (_ :: ·) (groupsOf_take n bytes)

theorem groupsOf_drop : ∀ (n : Nat) (bytes : List UInt8),
    groupsOf (bytes.drop (2 * n)) = (groupsOf bytes).drop n
  | 0, _ => rfl
  | _ + 1, [] => rfl
  | n + 1, [_] => by
      rw [List.drop_of_length_le (show 1 ≤ 2 * (n + 1) by omega)]
      rfl
  | n + 1, _ :: _ :: bytes => groupsOf_drop n bytes

theorem groupsOf_zeros : ∀ {bytes : List UInt8}, bytes.length % 2 = 0 →
    (∀ group ∈ groupsOf bytes, group = 0) → bytes = List.replicate bytes.length 0
  | [], _, _ => rfl
  | [_], odd, _ => absurd (show 1 % 2 = 0 from odd) (by decide)
  | high :: low :: bytes, even, zeros => by
      have evenRest : bytes.length % 2 = 0 := by
        rw [List.length_cons, List.length_cons] at even
        omega
      have here := zeros (256 * high.toNat + low.toNat) (List.mem_cons_self ..)
      have highZero : high = 0 := UInt8.toNat_inj.mp (show high.toNat = 0 by omega)
      have lowZero : low = 0 := UInt8.toNat_inj.mp (show low.toNat = 0 by omega)
      have later := groupsOf_zeros evenRest fun group member => zeros group (List.mem_cons_of_mem _ member)
      rw [highZero, lowZero, List.length_cons, List.length_cons, List.replicate_succ, List.replicate_succ,
        ← later]

theorem groupText_plain {groups : List Nat} :
    ∀ part ∈ groups.map hexText, part ≠ [] ∧ ':' ∉ part := by
  intro part member
  obtain ⟨group, _, rfl⟩ := List.mem_map.mp member
  exact ⟨hexText_ne_nil group, not_mem_hexText (by decide)⟩

theorem hexSide_intercalate {parts : List (List Char)} (plain : ∀ part ∈ parts, part ≠ [] ∧ ':' ∉ part) :
    hexSide ([':'].intercalate parts) = hexGroups parts := by
  by_cases empty : parts = []
  · rw [empty]
    rfl
  · have nonempty := @intercalate_ne_nil ':' parts empty fun part member => (plain part member).1
    rw [hexSide, if_neg nonempty,
      List.splitOn_intercalate ':' (fun part member => (plain part member).2) empty]

/-! ### Runs of zeros -/

/-- The search returns a run that it has met, with its length. -/
theorem longerZeros_run {groups : List Nat} : ∀ (bases : List Nat) {best : Nat × Nat},
    best = (0, 0) ∨ best.2 = zerosAt groups best.1 →
      bases.foldl (longerZeros groups) best = (0, 0) ∨
        (bases.foldl (longerZeros groups) best).2 =
          zerosAt groups (bases.foldl (longerZeros groups) best).1
  | [], _, start => start
  | base :: bases, best, start => by
      have step : longerZeros groups best base = (0, 0) ∨
          (longerZeros groups best base).2 = zerosAt groups (longerZeros groups best base).1 := by
        unfold longerZeros
        split
        · exact .inr rfl
        · exact start
      exact longerZeros_run bases step

theorem longestZeros_run {groups : List Nat} {base len : Nat}
    (longest : longestZeros groups = some (base, len)) : 2 ≤ len ∧ len = zerosAt groups base := by
  have run := @longerZeros_run groups (List.range groups.length) (0, 0) (.inl rfl)
  unfold longestZeros at longest
  dsimp only at longest
  split at longest
  · cases longest
  · rename_i two
    rw [Option.some.inj longest] at run two
    rcases run with none_ | run
    · rw [none_] at two
      exact absurd (by decide) two
    · exact ⟨Nat.le_of_not_lt two, run⟩

theorem zerosAt_zero {groups : List Nat} {base : Nat} :
    ∀ group ∈ (groups.drop base).take (zerosAt groups base), group = 0 := by
  intro group member
  have run := List.prefix_iff_eq_take.mp (@List.takeWhile_prefix _ (groups.drop base) (· == 0))
  rw [zerosAt, ← run] at member
  exact beq_iff_eq.mp (@List.mem_takeWhile_imp _ (· == 0) _ _ member)

theorem zerosAt_le {groups : List Nat} {base : Nat} : zerosAt groups base ≤ groups.length - base := by
  rw [← List.length_drop]
  exact List.Sublist.length_le (List.takeWhile_sublist _)

/-! ### IPv6 -/

section

variable {bytes : List UInt8} {base len : Nat}

/-- The double colon stands for zero bytes within the address. -/
theorem longestZeros_bytes (sixteen : bytes.length = 16)
    (longest : longestZeros (groupsOf bytes) = some (base, len)) :
    2 ≤ len ∧ base + len ≤ 8 ∧
      bytes = bytes.take (2 * base) ++ (List.replicate (2 * len) 0 ++ bytes.drop (2 * (base + len))) := by
  obtain ⟨two, run⟩ := longestZeros_run longest
  have within := @zerosAt_le (groupsOf bytes) base
  rw [groupsOf_length, sixteen, ← run] at within
  have zeros : (bytes.drop (2 * base)).take (2 * len) = List.replicate (2 * len) 0 := by
    have size : ((bytes.drop (2 * base)).take (2 * len)).length = 2 * len := by
      rw [List.length_take, List.length_drop, sixteen]
      omega
    have all := @groupsOf_zeros ((bytes.drop (2 * base)).take (2 * len)) (by omega) (by
      rw [groupsOf_take, groupsOf_drop, run]
      exact zerosAt_zero)
    rw [size] at all
    exact all
  refine ⟨two, by omega, ?_⟩
  rw [← zeros, Nat.mul_add, ← List.drop_drop, List.take_append_drop, List.take_append_drop]

theorem behindZeros_plain (four : (bytes.drop 12).length = 4) :
    ∀ part ∈ behindZeros bytes base len, part ≠ [] ∧ ':' ∉ part := by
  intro part member
  unfold behindZeros at member
  dsimp only at member
  split at member
  · rcases List.mem_append.mp member with group | quad
    · exact groupText_plain part group
    · rw [List.mem_singleton.mp quad]
      have read := inetPton4_inetNtop4 four
      constructor
      · intro empty
        rw [empty] at read
        cases read
      · intro colon
        exact absurd (inetNtop4_chars colon) (by decide)
  · exact groupText_plain part member

/-- What is written behind the double colon is read back as the last bytes. -/
theorem hexGroups_behindZeros (sixteen : bytes.length = 16) (within : base + len ≤ 8) :
    hexGroups (behindZeros bytes base len) = some (bytes.drop (2 * (base + len))) := by
  unfold behindZeros
  dsimp only
  split
  · rename_i tail
    obtain ⟨rfl, length⟩ := tail
    have six : len ≤ 6 := by
      rcases length with six | ⟨five, _⟩
      · omega
      · omega
    have four : (bytes.drop 12).length = 4 := by
      rw [List.length_drop, sixteen]
    have quad : hexGroups [inetNtop4 (bytes.drop 12)] = some (bytes.drop 12) := by
      rw [hexGroups, hexGroup_inetNtop4 four, inetPton4_inetNtop4 four]
      rfl
    have even : ((bytes.take (2 * 6)).drop (2 * len)).length % 2 = 0 := by
      rw [List.length_drop, List.length_take, sixteen]
      omega
    have whole : (bytes.take (2 * 6)).drop (2 * len) ++ bytes.drop 12 = bytes.drop (2 * len) := by
      rw [← List.drop_append_of_le_length (by rw [List.length_take, sixteen]; omega),
        List.take_append_drop]
    rw [← groupsOf_take, ← groupsOf_drop, hexGroups_groupsOf quad even, whole, Nat.zero_add]
  · have even : (bytes.drop (2 * (base + len))).length % 2 = 0 := by
      rw [List.length_drop, sixteen]
      omega
    rw [← groupsOf_drop, hexGroups_whole even]

/-- A text of groups has no dot. -/
theorem groupTexts_not_dot {groups : List Nat} : '.' ∉ [':'].intercalate (groups.map hexText) := by
  intro dot
  rcases mem_intercalate dot with same | ⟨part, isPart, inside⟩
  · exact absurd same (by decide)
  · obtain ⟨group, _, rfl⟩ := List.mem_map.mp isPart
    exact not_mem_hexText (by decide) inside

/-- How an address without a double colon is read. -/
theorem inetPton6_of_groups {s : List Char} (split : splitDoubleColon s = none)
    (read : hexGroups (s.splitOn ':') = some bytes) (sixteen : bytes.length = 16) :
    inetPton6 s = some bytes := by
  rw [inetPton6, split]
  dsimp only
  rw [read]
  dsimp only
  rw [if_pos sixteen]

/-- How an address with a double colon is read. -/
theorem inetPton6_of_sides {s before after : List Char} {front back : List UInt8}
    (split : splitDoubleColon s = some (before, after)) (noDot : '.' ∉ before)
    (readFront : hexSide before = some front) (readBack : hexSide after = some back)
    (short : front.length + back.length ≤ 14) :
    inetPton6 s = some (front ++ List.replicate (16 - front.length - back.length) 0 ++ back) := by
  rw [inetPton6, split]
  dsimp only
  rw [if_neg noDot, readFront, readBack]
  dsimp only
  rw [if_pos short]

theorem groupTexts_ne_nil (sixteen : bytes.length = 16) : (groupsOf bytes).map hexText ≠ [] := by
  apply List.ne_nil_of_length_pos
  rw [List.length_map, groupsOf_length, sixteen]
  decide

/-- Without a run of zeros there is no double colon. -/
theorem inetNtop6_groups (noRun : longestZeros (groupsOf bytes) = none) :
    inetNtop6 bytes = [':'].intercalate ((groupsOf bytes).map hexText) ∧
      splitDoubleColon (inetNtop6 bytes) = none := by
  have shape : inetNtop6 bytes = [':'].intercalate ((groupsOf bytes).map hexText) := by
    rw [inetNtop6, noRun]
  have split := @splitDoubleColon_groups [] _ (@groupText_plain (groupsOf bytes))
  rw [List.append_nil, ← shape] at split
  exact ⟨shape, split⟩

/-- The double colon stands where the run of zeros is. -/
theorem inetNtop6_sides (longest : longestZeros (groupsOf bytes) = some (base, len)) :
    splitDoubleColon (inetNtop6 bytes) =
      some ([':'].intercalate (((groupsOf bytes).take base).map hexText),
        [':'].intercalate (behindZeros bytes base len)) := by
  rw [inetNtop6, longest]
  dsimp only
  rw [splitDoubleColon_groups groupText_plain, splitDoubleColon, Option.map_some, List.append_nil]

/-- There is a double colon, or all colons are there. -/
theorem inetNtop6_colons (sixteen : bytes.length = 16) :
    (splitDoubleColon (inetNtop6 bytes)).isSome = true ∨ (inetNtop6 bytes).count ':' = 7 := by
  cases longest : longestZeros (groupsOf bytes) with
  | none =>
      have total := count_intercalate (groupTexts_ne_nil sixteen)
        fun part member => (groupText_plain part member).2
      rw [← (inetNtop6_groups longest).1, List.length_map, groupsOf_length, sixteen] at total
      exact .inr (Nat.succ.inj total)
  | some run =>
      left
      rw [inetNtop6_sides longest]
      rfl

theorem inetPton6_inetNtop6 (sixteen : bytes.length = 16) :
    inetPton6 (inetNtop6 bytes) = some bytes := by
  cases longest : longestZeros (groupsOf bytes) with
  | none =>
      obtain ⟨shape, split⟩ := inetNtop6_groups longest
      apply inetPton6_of_groups split _ sixteen
      rw [shape, List.splitOn_intercalate ':' (fun part member => (groupText_plain part member).2)
        (groupTexts_ne_nil sixteen)]
      exact hexGroups_whole (by rw [sixteen])
  | some run =>
      obtain ⟨base, len⟩ := run
      obtain ⟨two, within, whole⟩ := longestZeros_bytes sixteen longest
      have sizes : (bytes.take (2 * base)).length = 2 * base ∧
          (bytes.drop (2 * (base + len))).length = 16 - 2 * (base + len) := by
        rw [List.length_take, List.length_drop, sixteen]
        omega
      have readFront : hexSide ([':'].intercalate (((groupsOf bytes).take base).map hexText)) =
          some (bytes.take (2 * base)) := by
        have even : (bytes.take (2 * base)).length % 2 = 0 := by omega
        rw [hexSide_intercalate groupText_plain, ← groupsOf_take, hexGroups_whole even]
      have readBack : hexSide ([':'].intercalate (behindZeros bytes base len)) =
          some (bytes.drop (2 * (base + len))) := by
        rw [hexSide_intercalate (behindZeros_plain (by rw [List.length_drop, sixteen])),
          hexGroups_behindZeros sixteen within]
      have read := inetPton6_of_sides (inetNtop6_sides longest) groupTexts_not_dot readFront readBack
        (by omega)
      have zeros : 16 - (bytes.take (2 * base)).length - (bytes.drop (2 * (base + len))).length =
          2 * len := by
        omega
      rw [zeros, List.append_assoc, ← whole] at read
      exact read

example : inetNtop6 [0x20, 0x01, 0x0d, 0xb8, 0, 0, 0, 0, 0, 1, 0, 0, 0, 0, 0, 0x1f] =
    "2001:db8::1:0:0:1f".toList := by decide

end

end CText
