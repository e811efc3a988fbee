/-
Module: Bprd.Proofs.NetaddrRoundTrip
Layer: Proofs
Purpose: Addresses through their texts. The punctuation of a written address leads `netaddr_from_string` to
  its family, the address is read back byte for byte, and the prefix length with it. The addresses that can
  be read from a text are the valid ones, so reading a text and writing the address gives a text for the
  same address.
Imports: Bprd.Proofs.ConfigTaken
Trusted boundary: none
Main exports: ValidNetaddr, textChar, scanAddress_finds, hostFromString_hostToString,
  netaddrFromString_valid, ValidNetaddr.roundtrip, netaddr_text_roundtrip
-/
import Bprd.Proofs.ConfigTaken

namespace Bprd

open CText (isspace hexDigit addressChar splitDoubleColon inetPton4 inetPton6 inetNtop4 inetNtop6
  decimalText)

/-! ### The scan of the punctuation -/

section

variable (scan : AddressScan) (c : Char)

@[simp] theorem scanCharacter_colonCount :
    (scanCharacter scan c).colonCount = scan.colonCount + if c = ':' then 1 else 0 := by
  unfold scanCharacter
  split_ifs <;> rfl

@[simp] theorem scanCharacter_minusCount :
    (scanCharacter scan c).minusCount = scan.minusCount + if c = '-' then 1 else 0 := by
  unfold scanCharacter
  split_ifs with colon dot minus <;> simp_all

@[simp] theorem scanCharacter_hasPoint :
    (scanCharacter scan c).hasPoint = (scan.hasPoint || decide (c = '.')) := by
  unfold scanCharacter
  split_ifs with colon dot minus <;> simp_all

@[simp] theorem scanCharacter_hasColoncolon : (scanCharacter scan c).hasColoncolon =
    (scan.hasColoncolon || (decide (c = ':') && scan.lastWasColon)) := by
  unfold scanCharacter
  split_ifs with colon dot minus <;> simp_all

@[simp] theorem scanCharacter_lastWasColon :
    (scanCharacter scan c).lastWasColon = decide (c = ':') := rfl

end

/-- A counter of the scan counts its character. -/
theorem scan_count {counter : AddressScan → Nat} {char : Char} (counts : ∀ scan c,
    counter (scanCharacter scan c) = counter scan + if c = char then 1 else 0)
    (text : List Char) (scan : AddressScan) :
    counter (text.foldl scanCharacter scan) = counter scan + text.count char := by
  induction text generalizing scan with
  | nil => rfl
  | cons c text ih =>
      rw [List.foldl_cons, ih, counts, List.count_cons, Nat.add_assoc, Nat.add_comm (List.count _ _)]
      simp only [beq_iff_eq]

theorem scan_hasPoint (text : List Char) (scan : AddressScan) :
    (text.foldl scanCharacter scan).hasPoint = (scan.hasPoint || decide ('.' ∈ text)) := by
  induction text generalizing scan with
  | nil => simp
  | cons c text ih =>
      rw [List.foldl_cons, ih, scanCharacter_hasPoint, Bool.or_assoc]
      simp [List.mem_cons, eq_comm]

/-- A double colon has its first colon in the text or right before it. -/
theorem scan_hasColoncolon (text : List Char) (scan : AddressScan) :
    (text.foldl scanCharacter scan).hasColoncolon = (scan.hasColoncolon ||
      (scan.lastWasColon && decide (text.head? = some ':')) || (splitDoubleColon text).isSome) := by
  induction text generalizing scan with
  | nil => simp [splitDoubleColon]
  | cons c text ih =>
      have step : (splitDoubleColon (c :: text)).isSome =
          ((decide (c = ':') && decide (text.head? = some ':')) || (splitDoubleColon text).isSome) := by
        by_cases colon : c = ':'
        · subst colon
          cases text with
          | nil => rfl
          | cons d text =>
              by_cases next : d = ':'
              · subst next
                rfl
              · rw [CText.splitDoubleColon_colon next, Option.isSome_map]
                simp [next]
        · rw [splitDoubleColon, Option.isSome_map]
          · simp [colon]
          · intro after same
            exact absurd same colon
      rw [List.foldl_cons, ih, step, scanCharacter_hasColoncolon, scanCharacter_lastWasColon]
      simp [Bool.or_assoc, Bool.and_comm]

/-- What the scanning loop finds in an address. -/
theorem scanAddress_finds (text : List Char) :
    (scanAddress text).colonCount = text.count ':' ∧ (scanAddress text).minusCount = text.count '-' ∧
      (scanAddress text).hasPoint = decide ('.' ∈ text) ∧
      (scanAddress text).hasColoncolon = (splitDoubleColon text).isSome := by
  refine ⟨?_, ?_, ?_, ?_⟩
  · rw [scanAddress, scan_count scanCharacter_colonCount, Nat.zero_add]
  · rw [scanAddress, scan_count scanCharacter_minusCount, Nat.zero_add]
  · rw [scanAddress, scan_hasPoint, Bool.false_or]
  · rw [scanAddress, scan_hasColoncolon, Bool.false_and, Bool.false_or, Bool.false_or]

/-! ### Hardware addresses -/

/-- The two digits of an octet. -/
def octetText (byte : UInt8) : List Char := [hexChar (byte >>> 4), hexChar (byte &&& 15)]

theorem hexDigit_hexChar {digit : UInt8} (small : digit.toNat < 16) :
    hexDigit (hexChar digit) = some digit.toNat := by
  have each : ∀ n < 16, hexDigit ("0123456789abcdef".toList.getD n '0') = some n := by decide
  exact each digit.toNat small

theorem octet_digits (byte : UInt8) : (byte >>> 4).toNat < 16 ∧ (byte &&& 15).toNat < 16 ∧
    UInt8.ofNat ((byte >>> 4).toNat * 16 + (byte &&& 15).toNat) = byte := by
  have small : byte.toNat < 256 := byte.toNat_lt
  have high : (byte >>> 4).toNat = byte.toNat / 16 := by
    rw [UInt8.toNat_shiftRight, Nat.shiftRight_eq_div_pow]
    rfl
  have low : (byte &&& 15).toNat = byte.toNat % 16 := by
    rw [UInt8.toNat_and]
    exact Nat.and_two_pow_sub_one_eq_mod byte.toNat 4
  rw [high, low, Nat.div_add_mod', UInt8.ofNat_toNat]
  exact ⟨by omega, Nat.mod_lt _ (by decide), rfl⟩

theorem hexDigit_octetText {byte : UInt8} {c : Char} (inside : c ∈ octetText byte) :
    (hexDigit c).isSome = true := by
  obtain ⟨high, low, _⟩ := octet_digits byte
  rcases List.mem_cons.mp inside with rfl | inside
  · rw [hexDigit_hexChar high]
    rfl
  · rw [List.mem_singleton.mp inside, hexDigit_hexChar low]
    rfl

/-- The octets are written between separators. -/
theorem macLoop_dropLast {separator : Char} : ∀ {bin : List UInt8} {dstSize : Nat},
    3 * bin.length ≤ dstSize →
      (macLoop separator dstSize bin).dropLast = [separator].intercalate (bin.map octetText)
  | [], _, _ => rfl
  | [byte], dstSize, room => by
      rw [macLoop, if_pos (show 3 ≤ dstSize from room)]
      rfl
  | byte :: next :: bin, dstSize, room => by
      rw [List.length_cons] at room
      have more : 3 ≤ dstSize - 3 := by
        rw [List.length_cons] at room
        omega
      have later := @macLoop_dropLast separator (next :: bin) (dstSize - 3) (by omega)
      rw [macLoop, if_pos (show 3 ≤ dstSize by omega), List.map_cons, List.map_cons,
        List.intercalate_cons_cons, ← List.map_cons, ← later]
      rw [macLoop, if_pos more]
      rfl

/-- They are read back. -/
theorem macFromString_octets {separator : Char} : ∀ {bin : List UInt8}, bin ≠ [] →
      macFromString separator bin.length ([separator].intercalate (bin.map octetText)) = some bin
  | [], nonempty => absurd rfl nonempty
  | [byte], _ => by
      obtain ⟨high, low, whole⟩ := octet_digits byte
      rw [List.map_singleton, List.intercalate_singleton]
      simp only [List.length_singleton, octetText, macFromString, readHexdigit, List.tail_cons,
        hexDigit_hexChar high, hexDigit_hexChar low, whole, if_true]
  | byte :: next :: bin, _ => by
      obtain ⟨high, low, whole⟩ := octet_digits byte
      have later := @macFromString_octets separator (next :: bin) (List.cons_ne_nil _ _)
      rw [List.map_cons, List.map_cons, List.intercalate_cons_cons, ← List.map_cons, List.length_cons]
      simp only [octetText, List.cons_append, List.nil_append, macFromString, readHexdigit, List.tail_cons,
        hexDigit_hexChar high, hexDigit_hexChar low, whole, if_true, later, Option.map_some]

theorem octets_chars {separator c : Char} {bin : List UInt8}
    (inside : c ∈ [separator].intercalate (bin.map octetText)) :
    c = separator ∨ (hexDigit c).isSome = true := by
  rcases CText.mem_intercalate inside with same | ⟨part, isPart, inPart⟩
  · exact .inl same
  · obtain ⟨byte, _, rfl⟩ := List.mem_map.mp isPart
    exact .inr (hexDigit_octetText inPart)

theorem octets_count {separator : Char} (noDigit : hexDigit separator = none) {bin : List UInt8}
    (nonempty : bin ≠ []) :
    ([separator].intercalate (bin.map octetText)).count separator + 1 = bin.length := by
  have total := @CText.count_intercalate _ _ separator (bin.map octetText)
    (by rw [ne_eq, List.map_eq_nil_iff]; exact nonempty) (by
      intro part isPart inPart
      obtain ⟨byte, _, rfl⟩ := List.mem_map.mp isPart
      have digit := hexDigit_octetText inPart
      rw [noDigit] at digit
      cases digit)
  rw [List.length_map] at total
  exact total

/-! ### Each family is recognized by its punctuation -/

section

variable {bytes : List UInt8}

theorem hostFromString_inetNtop4 (four : bytes.length = 4) :
    hostFromString (inetNtop4 bytes) = some (afInet, 32, bytes) := by
  obtain ⟨colons, minuses, point, _⟩ := scanAddress_finds (inetNtop4 bytes)
  have noColon : (inetNtop4 bytes).count ':' = 0 :=
    List.count_eq_zero.mpr fun colon => absurd (CText.inetNtop4_chars colon) (by decide)
  have noMinus : (inetNtop4 bytes).count '-' = 0 :=
    List.count_eq_zero.mpr fun minus => absurd (CText.inetNtop4_chars minus) (by decide)
  have dots : '.' ∈ inetNtop4 bytes := by
    have total := @CText.count_intercalate _ _ '.' (bytes.map fun byte => decimalText byte.toNat)
      (by rw [ne_eq, List.map_eq_nil_iff]; rintro rfl; cases four) CText.inetNtop4_parts
    rw [List.length_map, four, ← inetNtop4] at total
    exact List.count_pos_iff.mp (by omega)
  have pointed : (scanAddress (inetNtop4 bytes)).hasPoint = true := by
    rw [point, decide_eq_true dots]
  rw [noColon] at colons
  rw [noMinus] at minuses
  unfold hostFromString
  dsimp only
  rw [colons, minuses, pointed, CText.inetPton4_inetNtop4 four]
  rfl

theorem hostFromString_inetNtop6 (sixteen : bytes.length = 16) :
    hostFromString (inetNtop6 bytes) = some (afInet6, 128, bytes) := by
  obtain ⟨colons, minuses, _, doubled⟩ := scanAddress_finds (inetNtop6 bytes)
  have read := CText.inetPton6_inetNtop6 sixteen
  have noMinus : (inetNtop6 bytes).count '-' = 0 :=
    List.count_eq_zero.mpr fun minus =>
      absurd ((CText.inetPton6_text read).1 '-' minus) (by decide)
  have punctuation : (scanAddress (inetNtop6 bytes)).hasColoncolon = true ∧
        (scanAddress (inetNtop6 bytes)).colonCount ≠ 0 ∨
      (scanAddress (inetNtop6 bytes)).colonCount = 7 := by
    rw [colons, doubled]
    rcases CText.inetNtop6_colons sixteen with double | seven
    · left
      obtain ⟨halves, split⟩ := Option.isSome_iff_exists.mp double
      refine ⟨double, Nat.ne_of_gt (List.count_pos_iff.mpr ?_)⟩
      rw [CText.splitDoubleColon_eq split]
      exact List.mem_append_right _ (List.mem_cons_self ..)
    · exact .inr seven
  rw [noMinus] at minuses
  unfold hostFromString
  dsimp only
  rw [minuses, read]
  rcases punctuation with ⟨double, some_⟩ | seven
  · simp [double, some_]
  · simp [seven]

theorem hostFromString_mac48 (six : bytes.length = 6) :
    hostFromString ([':'].intercalate (bytes.map octetText)) = some (afMac48, 48, bytes) := by
  have nonempty : bytes ≠ [] := by
    rintro rfl
    cases six
  obtain ⟨colons, minuses, point, doubled⟩ := scanAddress_finds ([':'].intercalate (bytes.map octetText))
  have five := octets_count (show hexDigit ':' = none by decide) nonempty
  have noMinus : ([':'].intercalate (bytes.map octetText)).count '-' = 0 :=
    List.count_eq_zero.mpr fun minus => absurd (octets_chars minus) (by decide)
  have noDot : '.' ∉ [':'].intercalate (bytes.map octetText) :=
    fun dot => absurd (octets_chars dot) (by decide)
  have notDoubled : splitDoubleColon ([':'].intercalate (bytes.map octetText)) = none := by
    have split := @CText.splitDoubleColon_groups [] (bytes.map octetText) (by
      intro part isPart
      obtain ⟨byte, _, rfl⟩ := List.mem_map.mp isPart
      exact ⟨List.cons_ne_nil _ _, fun colon => absurd (hexDigit_octetText colon) (by decide)⟩)
    rw [List.append_nil] at split
    exact split
  have read := @macFromString_octets ':' bytes nonempty
  rw [six] at five read
  rw [show ([':'].intercalate (bytes.map octetText)).count ':' = 5 by omega] at colons
  rw [noMinus] at minuses
  rw [decide_eq_false noDot] at point
  rw [notDoubled] at doubled
  unfold hostFromString
  dsimp only
  rw [colons, minuses, point, doubled]
  simp [read]

theorem hostFromString_eui64 (eight : bytes.length = 8) :
    hostFromString (['-'].intercalate (bytes.map octetText)) = some (afEui64, 64, bytes) := by
  have nonempty : bytes ≠ [] := by
    rintro rfl
    cases eight
  obtain ⟨colons, minuses, point, _⟩ := scanAddress_finds (['-'].intercalate (bytes.map octetText))
  have seven := octets_count (show hexDigit '-' = none by decide) nonempty
  have noColon : (['-'].intercalate (bytes.map octetText)).count ':' = 0 :=
    List.count_eq_zero.mpr fun colon => absurd (octets_chars colon) (by decide)
  have noDot : '.' ∉ ['-'].intercalate (bytes.map octetText) :=
    fun dot => absurd (octets_chars dot) (by decide)
  have read := @macFromString_octets '-' bytes nonempty
  rw [eight] at seven read
  rw [show (['-'].intercalate (bytes.map octetText)).count '-' = 7 by omega] at minuses
  rw [noColon] at colons
  rw [decide_eq_false noDot] at point
  unfold hostFromString
  dsimp only
  rw [colons, minuses, point]
  simp [read]

end

/-! ### Valid addresses -/

/-- The number of address bytes of a family. -/
def familyBytes (a : Netaddr) : Nat := (netaddrGetMaxPrefix a).toNat / 8

/-- An address of a known family: its bytes with zeros behind them, and a prefix length within its bound. -/
structure ValidNetaddr (a : Netaddr) : Prop where
  known : netaddrGetMaxPrefix a ≠ 0
  within : a.prefixLen.toNat ≤ (netaddrGetMaxPrefix a).toNat
  filled : ∃ bytes, bytes.length = familyBytes a ∧ a.addr = padAddr bytes

section

variable {text : List Char} {type : UInt8} {maxPrefix : Nat} {bytes : List UInt8} {a : Netaddr}

theorem macFromString_length {separator : Char} : ∀ {size : Nat} {text : List Char} {bytes : List UInt8},
    macFromString separator size text = some bytes → bytes.length = size
  | 0, _, _, parsed => by cases parsed
  | size + 1, text, bytes, parsed => by
      unfold macFromString at parsed
      split at parsed
      · cases parsed
      · dsimp only at parsed
        split at parsed
        · split at parsed
          · rename_i last
            cases parsed
            rw [last]
            rfl
          · cases parsed
        · split at parsed
          · obtain ⟨later, read, rfl⟩ := Option.map_eq_some_iff.mp parsed
            rw [List.length_cons, macFromString_length read]
          · cases parsed

/-- What the branches on the punctuation yield belongs to a family. -/
theorem hostFromString_family (read : hostFromString text = some (type, maxPrefix, bytes))
    (prefixLen : UInt8) :
    (netaddrGetMaxPrefix ⟨padAddr bytes, type, prefixLen⟩).toNat = maxPrefix ∧ maxPrefix ≠ 0 ∧
      maxPrefix < 256 ∧ bytes.length = maxPrefix / 8 := by
  unfold hostFromString at read
  dsimp only at read
  split at read
  · obtain ⟨octets, parsed, same⟩ := Option.map_eq_some_iff.mp read
    cases same
    rw [macFromString_length parsed]
    exact ⟨rfl, by decide, by decide, rfl⟩
  · split at read
    · obtain ⟨octets, parsed, same⟩ := Option.map_eq_some_iff.mp read
      cases same
      rw [macFromString_length parsed]
      exact ⟨rfl, by decide, by decide, rfl⟩
    · split at read
      · obtain ⟨octets, parsed, same⟩ := Option.map_eq_some_iff.mp read
        cases same
        rw [CText.inetPton4_length parsed]
        exact ⟨rfl, by decide, by decide, rfl⟩
      · split at read
        · obtain ⟨octets, parsed, same⟩ := Option.map_eq_some_iff.mp read
          cases same
          rw [CText.inetPton6_length parsed]
          exact ⟨rfl, by decide, by decide, rfl⟩
        · cases read

/-- Only valid addresses are read. -/
theorem netaddrFromString_valid {src : List Char} (read : netaddrFromString src = some a) :
    ValidNetaddr a := by
  obtain ⟨_, type, maxPrefix, bytes, host, lower, upper, rfl⟩ := netaddrFromString_ok read
  obtain ⟨family, nonzero, small, size⟩ := hostFromString_family host (UInt8.ofNat
    (prefixOf type maxPrefix (splitPrefix (strTrim (strscpy src sizeofNetaddrStr))).2).toNat)
  refine ⟨?_, ?_, bytes, ?_, rfl⟩
  · intro unknown
    rw [unknown] at family
    exact nonzero family.symm
  · rw [family, UInt8.toNat_ofNat']
    omega
  · rw [familyBytes, family, size]

/-! ### Written addresses are read back -/

/-- The characters of written addresses. -/
def textChar (c : Char) : Bool := addressChar c || c = '-'

theorem textChar_not_end {c : Char} (char : textChar c = true) : endsAddress c = false := by
  rw [textChar, Bool.or_eq_true, decide_eq_true_eq] at char
  rcases char with char | rfl
  · exact addressChar_not_end char
  · decide

theorem textChar_not_space {c : Char} (char : textChar c = true) : isspace c = false := by
  have run := textChar_not_end char
  rw [endsAddress, Bool.or_eq_false_iff] at run
  exact run.1

theorem textChar_of_addressChar {c : Char} (char : addressChar c = true) : textChar c = true := by
  rw [textChar, char, Bool.true_or]

theorem run_stops {host rest : List Char} (chars : ∀ c ∈ host, textChar c = true)
    (stop : ∀ c ∈ rest.head?, endsAddress c = true) :
    ((host ++ rest).takeWhile fun c => !endsAddress c) = host ∧
      ((host ++ rest).dropWhile fun c => !endsAddress c) = rest := by
  apply CText.takeWhile_append_stop
  · intro c inside
    rw [textChar_not_end (chars c inside)]
    rfl
  · intro c first
    rw [stop c first]
    rfl

/-- How a host that is written without a prefix length is read. -/
theorem netaddrFromString_host (chars : ∀ c ∈ text, textChar c = true) (short : text.length ≤ 61)
    (read : hostFromString text = some (type, maxPrefix, bytes)) :
    netaddrFromString text = some ⟨padAddr bytes, type, UInt8.ofNat maxPrefix⟩ := by
  have unspaced : ∀ c ∈ text, isspace c = false := fun c inside => textChar_not_space (chars c inside)
  have copied : strscpy text sizeofNetaddrStr = text := List.take_of_length_le short
  have split : splitPrefix text = (text, none) := by
    obtain ⟨taken, left⟩ := @run_stops text [] chars fun _ none_ => absurd none_ (Option.not_mem_none _)
    rw [List.append_nil] at taken left
    unfold splitPrefix
    dsimp only
    rw [taken, left, if_pos rfl]
  unfold netaddrFromString
  rw [copied, strTrim_unspaced unspaced, split]
  dsimp only
  rw [if_neg (Option.some_ne_none _).symm, read]

/-- How a host with a prefix length of at most three digits is read. -/
theorem netaddrFromString_network {digits : List Char} (chars : ∀ c ∈ text, textChar c = true)
    (short : text.length ≤ 57) (read : hostFromString text = some (type, maxPrefix, bytes))
    (nonempty : digits ≠ []) (few : digits.length ≤ 3) (decimals : ∀ c ∈ digits, c.isDigit = true)
    (within : CText.decimal digits ≤ maxPrefix) :
    netaddrFromString (text ++ '/' :: digits) =
      some ⟨padAddr bytes, type, UInt8.ofNat (CText.decimal digits)⟩ := by
  have noBlank : ∀ c ∈ digits, isspace c = false :=
    fun c inside => CText.isspace_of_isDigit (decimals c inside)
  have unspaced : ∀ c ∈ text ++ '/' :: digits, isspace c = false := by
    intro c inside
    rcases List.mem_append.mp inside with inHost | behind
    · exact textChar_not_space (chars c inHost)
    · rcases List.mem_cons.mp behind with rfl | inDigits
      · decide
      · exact noBlank c inDigits
  have copied : strscpy (text ++ '/' :: digits) sizeofNetaddrStr = text ++ '/' :: digits := by
    apply List.take_of_length_le
    rw [List.length_append, List.length_cons]
    show text.length + (digits.length + 1) ≤ 61
    omega
  have split : splitPrefix (text ++ '/' :: digits) = (text, some digits) := by
    obtain ⟨taken, left⟩ := @run_stops text ('/' :: digits) chars (by rintro c ⟨⟩; decide)
    have skipped : skipSeparator ('/' :: digits) = digits := dropWhile_isspace noBlank
    unfold splitPrefix
    dsimp only
    rw [taken, left, if_neg (List.cons_ne_nil _ _), skipped]
  unfold netaddrFromString
  rw [copied, strTrim_unspaced unspaced, split]
  dsimp only
  rw [if_neg fun missing => nonempty (Option.some.inj missing), read]
  dsimp only
  rw [prefixFromString_digits nonempty few decimals, if_neg (by omega), Int.toNat_natCast]

theorem macToString_eq {separator : Char} {bin : List UInt8} (room : bin.length ≤ 8) :
    macToString sizeofNetaddrStr bin separator = some ([separator].intercalate (bin.map octetText)) := by
  rw [macToString, if_neg (by decide), macLoop_dropLast]
  show 3 * bin.length ≤ 62
  omega

theorem octets_text {separator : Char} (isChar : textChar separator = true) {bin : List UInt8}
    (nonempty : bin ≠ []) (few : bin.length ≤ 8) :
    (∀ c ∈ [separator].intercalate (bin.map octetText), textChar c = true) ∧
      ([separator].intercalate (bin.map octetText)).length ≤ 47 := by
  constructor
  · intro c inside
    rcases octets_chars inside with rfl | digit
    · exact isChar
    · rw [textChar, addressChar, digit]
      rfl
  · have total := @CText.length_intercalate _ separator (bin.map octetText)
      (by rw [ne_eq, List.map_eq_nil_iff]; exact nonempty)
    have three : ((bin.map octetText).map fun part => part.length + 1) = List.replicate bin.length 3 := by
      rw [List.map_map, List.eq_replicate_iff, List.length_map]
      refine ⟨rfl, fun size member => ?_⟩
      obtain ⟨byte, _, rfl⟩ := List.mem_map.mp member
      rfl
    rw [three, List.sum_replicate_nat] at total
    omega

/-- The written host is read back, for every known family. -/
theorem hostFromString_hostToString (known : netaddrGetMaxPrefix a ≠ 0) :
    ∃ text, hostToString a = some (text, (netaddrGetMaxPrefix a).toNat) ∧
      (∀ c ∈ text, textChar c = true) ∧ text.length ≤ 47 ∧
      hostFromString text =
        some (a.type, (netaddrGetMaxPrefix a).toNat, a.addr.toList.take (familyBytes a)) := by
  have size : ∀ n ≤ 16, (a.addr.toList.take n).length = n := by
    intro n within
    rw [List.length_take, List.Vector.toList_length, Nat.min_eq_left within]
  unfold familyBytes hostToString
  unfold netaddrGetMaxPrefix at known ⊢
  split_ifs at known ⊢ with inet inet6 mac48 eui64
  · have read := hostFromString_inetNtop4 (size 4 (by decide))
    obtain ⟨chars, short⟩ := CText.inetPton4_text (CText.inetPton4_inetNtop4 (size 4 (by decide)))
    rw [inet]
    exact ⟨_, rfl, fun c inside => textChar_of_addressChar (chars c inside), by omega, read⟩
  · have sixteen := a.addr.toList_length
    have read := hostFromString_inetNtop6 sixteen
    obtain ⟨chars, short⟩ := CText.inetPton6_text (CText.inetPton6_inetNtop6 sixteen)
    rw [inet6]
    have whole : a.addr.toList.take 16 = a.addr.toList := List.take_of_length_le (Nat.le_of_eq sixteen)
    refine ⟨_, rfl, fun c inside => textChar_of_addressChar (chars c inside), short, ?_⟩
    show _ = some (afInet6, 128, a.addr.toList.take 16)
    rw [read, whole]
  · have nonempty := List.ne_nil_of_length_eq_add_one (size 6 (by decide))
    have few : (a.addr.toList.take 6).length ≤ 8 := by
      rw [size 6 (by decide)]
      decide
    obtain ⟨chars, short⟩ := octets_text (show textChar ':' = true by decide) nonempty few
    rw [mac48, macToString_eq few]
    exact ⟨_, rfl, chars, short, hostFromString_mac48 (size 6 (by decide))⟩
  · have nonempty := List.ne_nil_of_length_eq_add_one (size 8 (by decide))
    have few : (a.addr.toList.take 8).length ≤ 8 := Nat.le_of_eq (size 8 (by decide))
    obtain ⟨chars, short⟩ := octets_text (show textChar '-' = true by decide) nonempty few
    rw [eui64, macToString_eq few]
    exact ⟨_, rfl, chars, short, hostFromString_eui64 (size 8 (by decide))⟩
  · exact absurd rfl known

/-- The bytes of a valid address, with zeros behind them. -/
theorem ValidNetaddr.padAddr_take (valid : ValidNetaddr a) :
    padAddr (a.addr.toList.take (familyBytes a)) = a.addr := by
  obtain ⟨bytes, size, filled⟩ := valid.filled
  have within : bytes.length ≤ 16 := by
    rw [size, familyBytes]
    unfold netaddrGetMaxPrefix
    split_ifs <;> decide
  rw [filled, ← size]
  have front : (padAddr bytes).toList.take bytes.length = bytes := by
    show ((bytes ++ List.replicate 16 0).take 16).take bytes.length = bytes
    rw [List.take_take, Nat.min_eq_left within, List.take_left']
    rfl
  rw [front]

/-- A valid address is written as a text that fits its buffer and is read back as the address. -/
theorem ValidNetaddr.roundtrip (valid : ValidNetaddr a) (forcePrefix : Bool) :
    ∃ text, netaddrToPrefixstring a forcePrefix = some text ∧ text.length < sizeofNetaddrStr ∧
      (∀ c ∈ text, textChar c = true ∨ c = '/') ∧ netaddrFromString text = some a := by
  obtain ⟨host, written, chars, short, read⟩ := hostFromString_hostToString valid.known
  unfold netaddrToPrefixstring
  rw [written]
  dsimp only
  split
  · have few : (decimalText a.prefixLen.toNat).length ≤ 3 :=
      CText.decimalText_length (by have := a.prefixLen.toNat_lt; omega) (by decide)
    have whole : ('/' :: decimalText a.prefixLen.toNat).take 4 = '/' :: decimalText a.prefixLen.toNat :=
      List.take_of_length_le (Nat.succ_le_succ few)
    have decimals := CText.decimalText_digits a.prefixLen.toNat
    have back := netaddrFromString_network chars (by omega) read (CText.decimalText_ne_nil _) few decimals
      (by rw [CText.decimal_decimalText]; exact valid.within)
    rw [CText.decimal_decimalText, valid.padAddr_take, UInt8.ofNat_toNat] at back
    rw [whole]
    refine ⟨_, rfl, ?_, ?_, back⟩
    · rw [List.length_append, List.length_cons]
      show host.length + ((decimalText a.prefixLen.toNat).length + 1) < 62
      omega
    · intro c inside
      rcases List.mem_append.mp inside with inHost | behind
      · exact .inl (chars c inHost)
      · rcases List.mem_cons.mp behind with slash | inDigits
        · exact .inr slash
        · exact .inl (textChar_of_addressChar (CText.addressChar_of_isDigit (decimals c inDigits)))
  · rename_i full
    have same : a.prefixLen = netaddrGetMaxPrefix a := by
      have within := valid.within
      apply UInt8.toNat_inj.mp
      omega
    have back := netaddrFromString_host chars (by omega) read
    rw [valid.padAddr_take, UInt8.ofNat_toNat, ← same] at back
    refine ⟨host, rfl, ?_, fun c inside => .inl (chars c inside), back⟩
    show host.length < 62
    omega

end

/-- For an address it is the same to be valid, to be read from some text, and to be written, with its prefix
    length or without, as a text that fits its buffer and is read back as this address. -/
theorem netaddr_text_roundtrip (a : Netaddr) (forcePrefix : Bool) :
    List.TFAE [ValidNetaddr a, ∃ src, netaddrFromString src = some a,
      ∃ text, netaddrToPrefixstring a forcePrefix = some text ∧ text.length < sizeofNetaddrStr ∧
        netaddrFromString text = some a] := by
  tfae_have 1 → 3 := by
    intro valid
    obtain ⟨text, written, short, _, back⟩ := valid.roundtrip forcePrefix
    exact ⟨text, written, short, back⟩
  tfae_have 3 → 2 := fun ⟨text, _, _, back⟩ => ⟨text, back⟩
  tfae_have 2 → 1 := fun ⟨_, read⟩ => netaddrFromString_valid read
  tfae_finish

end Bprd
