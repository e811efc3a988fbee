/-
Module: Bprd.Proofs.ConfigTaken
Layer: Proofs
Purpose: When the commodities are taken as they are written. A string is written as an address, a comma,
  a decimal queue number and blanks. The scan of the number also takes signs and any text behind it and
  keeps 16 bits, the address parser trims and cuts its input, and queue numbers may repeat; a start of the
  daemon that uses none of this, or is refused, takes its configuration as written, and no other does.
Imports: Bprd.Proofs.CommodityText
Trusted boundary: none
Main exports: AddressText, WrittenAs, TakenAsWritten, PlainString, writtenId, writtenAs_plain,
  plain_writtenAs, taken_as_written_iff, wrapped_ids_collide
-/
import Bprd.Proofs.CommodityText

namespace Bprd

open CText (isspace decimal inetPton4 inetPton6 addressChar)

/-! ### What is written -/

/-- A host in the notation of its family. -/
def hostBytes (ipver : UInt8) (text : List Char) : Option (List UInt8) :=
  if ipver = afInet then inetPton4 text else inetPton6 text

/-- The largest prefix length of a family. -/
def addressBits (ipver : UInt8) : Nat := if ipver = afInet then 32 else 128

/-- A text that is an address of the family. -/
inductive AddressText (ipver : UInt8) : List Char → Netaddr → Prop where
  /-- A host. -/
  | host {text : List Char} {bytes : List UInt8} (parsed : hostBytes ipver text = some bytes) :
      AddressText ipver text ⟨padAddr bytes, ipver, UInt8.ofNat (addressBits ipver)⟩
  /-- A host and a prefix length of one to three digits. -/
  | network {text digits : List Char} {bytes : List UInt8} (parsed : hostBytes ipver text = some bytes)
      (nonempty : digits ≠ []) (short : digits.length ≤ 3) (decimals : ∀ c ∈ digits, c.isDigit = true)
      (within : decimal digits ≤ addressBits ipver) :
      AddressText ipver (text ++ '/' :: digits) ⟨padAddr bytes, ipver, UInt8.ofNat (decimal digits)⟩

/-- The string has the form `ADDR,ID`, with blanks at its end, for this address and this queue number. -/
def WrittenAs (ipver : UInt8) (s : List Char) (entry : Netaddr × UInt16) : Prop :=
  ∃ address id blanks, s = address ++ ',' :: (id ++ blanks) ∧ AddressText ipver address entry.1 ∧
    id ≠ [] ∧ (∀ c ∈ id, c.isDigit = true) ∧ decimal id = entry.2.toNat ∧
    ∀ c ∈ blanks, isspace c = true

/-- The strings are refused with a message, or the daemon has exactly the commodities that they say, in
    reverse order, with different destinations and different queue numbers. -/
def TakenAsWritten (ipver : UInt8) (strings : List (List Char)) : Prop :=
  match initCommodities ipver strings with
  | .ok clist => ∃ entries, List.Forall₂ (WrittenAs ipver) strings entries ∧
      clist = (entries.map newCommodity).reverse ∧ (entries.map Prod.fst).Nodup ∧
      (entries.map Prod.snd).Nodup
  | .error (.logErr _) => True
  | .error _ => False

/-! ### What the scans leave alone -/

/-- The digits at the front of the text behind the comma. -/
def writtenId (s : List Char) : Nat := decimal ((numberText s).takeWhile Char.isDigit)

/-- A string in which nothing is cut off, skipped, negated or narrowed. -/
structure PlainString (s : List Char) : Prop where
  /-- The address fits the buffer of the address parser. -/
  shortAddress : (addressText s).length ≤ 61
  unspaced : ∀ c ∈ addressText s, isspace c = false
  /-- A prefix length is one to three digits; in particular it is no subnet mask. -/
  plainPrefix : ∀ text, (splitPrefix (addressText s)).2 = some text →
    text.length ≤ 3 ∧ ∀ c ∈ text, c.isDigit = true
  /-- The number follows the comma without blanks or a sign. -/
  unsigned : ∃ c ∈ (numberText s).head?, c.isDigit = true
  small : writtenId s < 2 ^ 16
  blankRest : ∀ c ∈ (numberText s).dropWhile Char.isDigit, isspace c = true

/-! ### Written strings are plain -/

section

variable {ipver : UInt8} {s address : List Char} {addr : Netaddr} {entry : Netaddr × UInt16}

theorem hostBytes_text {text : List Char} {bytes : List UInt8}
    (parsed : hostBytes ipver text = some bytes) :
    (∀ c ∈ text, addressChar c = true) ∧ text.length ≤ 47 := by
  unfold hostBytes at parsed
  split at parsed
  · obtain ⟨chars, short⟩ := CText.inetPton4_text parsed
    exact ⟨chars, by omega⟩
  · exact CText.inetPton6_text parsed

theorem addressChar_not_end {c : Char} (char : addressChar c = true) : endsAddress c = false := by
  rw [endsAddress, CText.addressChar_not_space char, Bool.false_or, decide_eq_false_iff_not]
  rintro rfl
  exact absurd char (by decide)

theorem addressChars_run {text : List Char} (chars : ∀ c ∈ text, addressChar c = true) :
    ∀ c ∈ text, (fun c => !endsAddress c) c = true := by
  intro c inside
  dsimp only
  rw [addressChar_not_end (chars c inside)]
  rfl

/-- A text of address characters has no prefix length. -/
theorem splitPrefix_host {text : List Char} (chars : ∀ c ∈ text, addressChar c = true) :
    splitPrefix text = (text, none) := by
  obtain ⟨taken, left⟩ := @CText.takeWhile_append_stop _ text [] (addressChars_run chars)
    fun _ none_ => absurd none_ (Option.not_mem_none _)
  rw [List.append_nil] at taken left
  unfold splitPrefix
  dsimp only
  rw [taken, left, if_pos rfl]

theorem dropWhile_isspace {text : List Char} (unspaced : ∀ c ∈ text, isspace c = false) :
    text.dropWhile isspace = text := by
  cases text with
  | nil => rfl
  | cons c text =>
      exact List.dropWhile_cons_of_neg (Bool.eq_false_iff.mp (unspaced c (List.mem_cons_self ..)))

/-- Behind a slash the rest is the text of the prefix length. -/
theorem splitPrefix_network {text rest : List Char} (chars : ∀ c ∈ text, addressChar c = true)
    (unspaced : ∀ c ∈ rest, isspace c = false) :
    splitPrefix (text ++ '/' :: rest) = (text, some rest) := by
  obtain ⟨taken, left⟩ := @CText.takeWhile_append_stop _ text ('/' :: rest) (addressChars_run chars)
    (by rintro c ⟨⟩; decide)
  have skipped : skipSeparator ('/' :: rest) = rest := dropWhile_isspace unspaced
  unfold splitPrefix
  dsimp only
  rw [taken, left, if_neg (List.cons_ne_nil _ _), skipped]

/-- The characters, the length and the prefix length of an address. -/
theorem AddressText.plain (isAddress : AddressText ipver address addr) :
    (∀ c ∈ address, c ≠ ',' ∧ isspace c = false) ∧ address.length ≤ 61 ∧
      ∀ text, (splitPrefix address).2 = some text → text.length ≤ 3 ∧ ∀ c ∈ text, c.isDigit = true := by
  have noComma : ∀ {c : Char}, addressChar c = true → c ≠ ',' := by
    rintro c char rfl
    exact absurd char (by decide)
  cases isAddress with
  | host parsed =>
      obtain ⟨chars, short⟩ := hostBytes_text parsed
      refine ⟨fun c inside => ?_, by omega, ?_⟩
      · exact ⟨noComma (chars c inside), CText.addressChar_not_space (chars c inside)⟩
      · intro text split
        rw [splitPrefix_host chars] at split
        cases split
  | @network host digits bytes parsed nonempty few decimals within =>
      obtain ⟨chars, short⟩ := hostBytes_text parsed
      refine ⟨?_, ?_, ?_⟩
      · intro c inside
        rcases List.mem_append.mp inside with inHost | behind
        · exact ⟨noComma (chars c inHost), CText.addressChar_not_space (chars c inHost)⟩
        · rcases List.mem_cons.mp behind with rfl | inDigits
          · decide
          · have char := CText.addressChar_of_isDigit (decimals c inDigits)
            exact ⟨noComma char, CText.addressChar_not_space char⟩
      · rw [List.length_append, List.length_cons]
        omega
      · intro text split
        rw [splitPrefix_network chars fun c inside => CText.isspace_of_isDigit (decimals c inside)] at split
        cases split
        exact ⟨few, decimals⟩

theorem isDigit_of_isspace {c : Char} (space : isspace c = true) : c.isDigit = false := by
  rw [Bool.eq_false_iff]
  intro digit
  rw [CText.isspace_of_isDigit digit] at space
  cases space

/-- A written string is plain, and its number is the queue number. -/
theorem writtenAs_plain (written : WrittenAs ipver s entry) :
    PlainString s ∧ writtenId s = entry.2.toNat := by
  obtain ⟨address, id, blanks, rfl, isAddress, nonempty, digits, value, blank⟩ := written
  obtain ⟨chars, short, plainPrefix⟩ := isAddress.plain
  obtain ⟨beforeComma, fromComma⟩ := @CText.takeWhile_append_stop (fun c => c != ',') address
    (',' :: (id ++ blanks)) (fun c inside => bne_iff_ne.mpr (chars c inside).1) (by rintro c ⟨⟩; decide)
  have isAddressText : addressText (address ++ ',' :: (id ++ blanks)) = address := beforeComma
  have isNumberText : numberText (address ++ ',' :: (id ++ blanks)) = id ++ blanks := by
    rw [numberText, fromComma, List.tail_cons]
  obtain ⟨isId, rest⟩ := @CText.takeWhile_append_stop Char.isDigit id blanks digits
    fun c first => isDigit_of_isspace (blank c (List.mem_of_mem_head? first))
  have isWrittenId : writtenId (address ++ ',' :: (id ++ blanks)) = entry.2.toNat := by
    rw [writtenId, isNumberText, isId, value]
  refine ⟨⟨?_, ?_, ?_, ?_, ?_, ?_⟩, isWrittenId⟩
  · rw [isAddressText]
    exact short
  · rw [isAddressText]
    exact fun c inside => (chars c inside).2
  · rw [isAddressText]
    exact plainPrefix
  · rw [isNumberText]
    cases id with
    | nil => exact absurd rfl nonempty
    | cons c id => exact ⟨c, rfl, digits c (List.mem_cons_self ..)⟩
  · rw [isWrittenId]
    exact entry.2.toNat_lt
  · rw [isNumberText, rest]
    exact blank

/-! ### Plain strings are written -/

/-- The first character behind a run that was dropped. -/
theorem head_dropWhile {p : Char → Bool} : ∀ {text : List Char} {c : Char} {rest : List Char},
    text.dropWhile p = c :: rest → p c = false
  | [], _, _, stopped => by cases stopped
  | d :: text, c, rest, stopped => by
      by_cases inside : p d = true
      · rw [List.dropWhile_cons_of_pos inside] at stopped
        exact head_dropWhile stopped
      · rw [List.dropWhile_cons_of_neg inside] at stopped
        cases stopped
        exact Bool.eq_false_iff.mpr inside

theorem strTrim_unspaced {text : List Char} (unspaced : ∀ c ∈ text, isspace c = false) :
    strTrim text = text := by
  have reversed : ∀ c ∈ text.reverse, isspace c = false :=
    fun c inside => unspaced c (List.mem_reverse.mp inside)
  rw [strTrim, dropWhile_isspace unspaced, dropWhile_isspace reversed, List.reverse_reverse]

/-- A text without blanks is all host, or a host, a slash and a prefix length. -/
theorem splitPrefix_cases {text : List Char} (unspaced : ∀ c ∈ text, isspace c = false) :
    splitPrefix text = (text, none) ∨
      ∃ host rest, text = host ++ '/' :: rest ∧ splitPrefix text = (host, some rest) := by
  have whole := @List.takeWhile_append_dropWhile Char (fun c => !endsAddress c) text
  unfold splitPrefix
  dsimp only
  cases behind : text.dropWhile fun c => !endsAddress c with
  | nil =>
      rw [behind, List.append_nil] at whole
      rw [whole, if_pos rfl]
      exact .inl rfl
  | cons c rest =>
      rw [behind] at whole
      have inside : c ∈ text := whole ▸ List.mem_append_right _ (List.mem_cons_self ..)
      have stop := head_dropWhile behind
      have slash : c = '/' := by
        simpa [endsAddress, unspaced c inside] using stop
      subst slash
      have skipped : skipSeparator ('/' :: rest) = rest := dropWhile_isspace fun d later =>
        unspaced d (whole ▸ List.mem_append_right _ (List.mem_cons_of_mem _ later))
      rw [if_neg (List.cons_ne_nil _ _), skipped]
      exact .inr ⟨_, rest, whole.symm, rfl⟩

/-- A prefix length of at most three digits is read as its value. -/
theorem prefixFromString_digits {type : UInt8} {digits : List Char} (nonempty : digits ≠ [])
    (short : digits.length ≤ 3) (decimals : ∀ c ∈ digits, c.isDigit = true) :
    prefixFromString type digits = decimal digits := by
  have small : decimal digits < 1000 :=
    Nat.lt_of_lt_of_le (CText.decimal_lt decimals) (Nat.pow_le_pow_right (by decide) short)
  have read := @CText.strtoul_digits digits [] nonempty decimals
    (fun _ none_ => absurd none_ (Option.not_mem_none _)) (by omega)
  rw [List.append_nil] at read
  have value : numericPrefix digits = decimal digits := by
    unfold numericPrefix
    rw [read]
    show Int.bmod ((UInt64.ofNat (decimal digits)).toNat) (2 ^ 32) = decimal digits
    rw [UInt64.toNat_ofNat', Nat.mod_eq_of_lt (by omega)]
    exact Int.bmod_eq_of_le (by omega) (by omega)
  unfold prefixFromString
  rw [value, if_neg fun mask => by omega]

variable {c : Commodity}

theorem hostFromString_known (known : ipver = afInet ∨ ipver = afInet6) {text : List Char}
    {maxPrefix : Nat} {bytes : List UInt8} (read : hostFromString text = some (ipver, maxPrefix, bytes)) :
    hostBytes ipver text = some bytes ∧ maxPrefix = addressBits ipver := by
  rcases hostFromString_cases read with ⟨rfl, rfl, parsed⟩ | ⟨rfl, rfl, parsed⟩ | rfl | rfl
  · exact ⟨parsed, rfl⟩
  · exact ⟨parsed, rfl⟩
  · exact absurd known (by decide)
  · exact absurd known (by decide)

/-- An accepted address without blanks, cuts and odd prefix lengths is an address of its family. -/
theorem addressText_of_plain (known : ipver = afInet ∨ ipver = afInet6)
    (shortAddress : address.length ≤ 61) (unspaced : ∀ c ∈ address, isspace c = false)
    (plainPrefix : ∀ text, (splitPrefix address).2 = some text →
      text.length ≤ 3 ∧ ∀ c ∈ text, c.isDigit = true)
    (parsed : netaddrFromString address = some addr) (family : addr.type = ipver) :
    AddressText ipver address addr := by
  obtain ⟨present, type, maxPrefix, bytes, host, _, upper, rfl⟩ := netaddrFromString_ok parsed
  have sameType : type = ipver := family
  subst sameType
  have untouched : strTrim (strscpy address sizeofNetaddrStr) = address := by
    have copied : strscpy address sizeofNetaddrStr = address := List.take_of_length_le shortAddress
    rw [copied, strTrim_unspaced unspaced]
  rw [untouched] at present host upper ⊢
  rcases splitPrefix_cases unspaced with split | ⟨front, digits, rfl, split⟩
  · rw [split] at host upper ⊢
    obtain ⟨isHost, rfl⟩ := hostFromString_known known host
    exact .host isHost
  · obtain ⟨few, decimals⟩ := plainPrefix digits (congrArg Prod.snd split)
    rw [split] at present host upper ⊢
    obtain ⟨isHost, rfl⟩ := hostFromString_known known host
    have nonempty : digits ≠ [] := by
      rintro rfl
      exact present rfl
    rw [prefixOf, prefixFromString_digits nonempty few decimals] at upper ⊢
    exact .network isHost nonempty few decimals (Int.ofNat_le.mp upper)

/-- An accepted plain string is written as the commodity it gives. -/
theorem plain_writtenAs (known : ipver = afInet ∨ ipver = afInet6) (plain : PlainString s)
    (read : commodityOf s = .ok c) (family : c.cdata.addr.type = ipver) :
    WrittenAs ipver s (c.cdata.addr, c.nfqId) ∧ c = newCommodity (c.cdata.addr, c.nfqId) ∧
      writtenId s = c.nfqId.toNat := by
  obtain ⟨_, _, number, rest, addr, isNumber, parsed, rfl⟩ := commodityOf_ok read
  have isAddress : AddressText ipver (addressText s) addr :=
    addressText_of_plain known plain.shortAddress plain.unspaced plain.plainPrefix parsed family
  -- The text behind the comma is digits and blanks.
  obtain ⟨id, isId⟩ : ∃ id, (numberText s).takeWhile Char.isDigit = id := ⟨_, rfl⟩
  obtain ⟨blanks, isBlanks⟩ : ∃ blanks, (numberText s).dropWhile Char.isDigit = blanks := ⟨_, rfl⟩
  have parts : numberText s = id ++ blanks := by
    rw [← isId, ← isBlanks, List.takeWhile_append_dropWhile]
  have blank : ∀ c ∈ blanks, isspace c = true := isBlanks ▸ plain.blankRest
  have digits : ∀ c ∈ id, c.isDigit = true := by
    intro c inside
    rw [← isId] at inside
    exact List.mem_takeWhile_imp inside
  have small : decimal id < 2 ^ 16 := by
    rw [← isId]
    exact plain.small
  obtain ⟨first, atFront, digit⟩ := plain.unsigned
  have nonempty : id ≠ [] := by
    rintro rfl
    rw [parts, List.nil_append] at atFront
    rw [isDigit_of_isspace (blank first (List.mem_of_mem_head? atFront))] at digit
    cases digit
  have value : number = UInt64.ofNat (decimal id) := by
    rw [parts, CText.strtoul_digits nonempty digits (fun c first =>
      isDigit_of_isspace (blank c (List.mem_of_mem_head? first))) (by omega)] at isNumber
    exact (congrArg Prod.fst (Option.some.inj isNumber)).symm
  have sameId : decimal id = number.toUInt32.toUInt16.toNat := by
    rw [value, UInt32.toNat_toUInt16, UInt64.toNat_toUInt32, UInt64.toNat_ofNat']
    omega
  -- The comma itself is there, since something follows it.
  have comma : s = addressText s ++ ',' :: numberText s := by
    have whole := @List.takeWhile_append_dropWhile Char (fun c => c != ',') s
    cases behind : s.dropWhile fun c => c != ',' with
    | nil =>
        rw [numberText, behind] at atFront
        cases atFront
    | cons c rest =>
        have isComma : c = ',' := by simpa using head_dropWhile behind
        rw [behind, isComma] at whole
        rw [numberText, behind, List.tail_cons]
        exact whole.symm
  refine ⟨⟨addressText s, id, blanks, ?_, isAddress, nonempty, digits, sameId, blank⟩, rfl, ?_⟩
  · rw [← parts]
    exact comma
  · rw [writtenId, isId]
    exact sameId

end

/-! ### A start of the daemon -/

section

variable {ipver : UInt8} {strings : List (List Char)} {clist : List Commodity}

/-- The numbers of plain strings are the queue numbers of what they give. -/
theorem plain_entries (known : ipver = afInet ∨ ipver = afInet6) :
    ∀ {strings : List (List Char)} {cs : List Commodity},
      List.Forall₂ (fun s c => commodityOf s = .ok c) strings cs → (∀ s ∈ strings, PlainString s) →
        (∀ c ∈ cs, c.cdata.addr.type = ipver) →
          List.Forall₂ (WrittenAs ipver) strings (cs.map fun c => (c.cdata.addr, c.nfqId)) ∧
            (cs.map fun c => (c.cdata.addr, c.nfqId)).map newCommodity = cs ∧
            strings.map writtenId = (cs.map Commodity.nfqId).map UInt16.toNat
  | _, _, .nil, _, _ => ⟨.nil, rfl, rfl⟩
  | s :: strings, c :: cs, .cons read rest, plain, families => by
      obtain ⟨written, same, sameId⟩ := plain_writtenAs known (plain s (List.mem_cons_self ..)) read
        (families c (List.mem_cons_self ..))
      obtain ⟨later, sameLater, sameIds⟩ := plain_entries known rest
        (fun t member => plain t (List.mem_cons_of_mem _ member))
        fun d member => families d (List.mem_cons_of_mem _ member)
      refine ⟨.cons written later, ?_, ?_⟩
      · rw [List.map_cons, List.map_cons, sameLater, ← same]
      · rw [List.map_cons, List.map_cons, List.map_cons, sameId, sameIds]

theorem written_plain : ∀ {strings : List (List Char)} {entries : List (Netaddr × UInt16)},
    List.Forall₂ (WrittenAs ipver) strings entries →
      (∀ s ∈ strings, PlainString s) ∧
        strings.map writtenId = (entries.map Prod.snd).map UInt16.toNat
  | _, _, .nil => ⟨fun s member => absurd member List.not_mem_nil, rfl⟩
  | s :: strings, entry :: entries, .cons written rest => by
      obtain ⟨plain, sameId⟩ := writtenAs_plain written
      obtain ⟨later, sameIds⟩ := written_plain rest
      refine ⟨List.forall_mem_cons.mpr ⟨plain, later⟩, ?_⟩
      rw [List.map_cons, List.map_cons, List.map_cons, sameId, sameIds]

theorem nodup_toNat (ids : List UInt16) : (ids.map UInt16.toNat).Nodup ↔ ids.Nodup :=
  List.nodup_map_iff fun _ _ same => UInt16.toNat_inj.mp same

/-- The configuration is taken as written if and only if one of its strings is refused, or every string is
    plain and no two have the same number. -/
theorem taken_as_written_iff (ipver : UInt8) (strings : List (List Char)) :
    TakenAsWritten ipver strings ↔
      Refused ipver strings ∨ (∀ s ∈ strings, PlainString s) ∧ (strings.map writtenId).Nodup := by
  rw [← initCommodities_refused_iff]
  unfold TakenAsWritten
  cases start : initCommodities ipver strings with
  | ok clist =>
      dsimp only
      constructor
      · rintro ⟨entries, written, _, _, differentIds⟩
        obtain ⟨plain, ids⟩ := written_plain written
        exact .inr ⟨plain, ids ▸ (nodup_toNat _).mpr differentIds⟩
      · rintro (⟨message, refused⟩ | ⟨plain, differentIds⟩)
        · cases refused
        · obtain ⟨cs, all, rfl, differentDests, families⟩ := initCommodities_ok start
          obtain ⟨written, same, ids⟩ := plain_entries (initCommodities_ipver start) all plain families
          refine ⟨_, written, ?_, ?_, ?_⟩
          · rw [same]
          · rw [List.map_map]
            exact differentDests
          · rw [ids, nodup_toNat] at differentIds
            rw [List.map_map]
            exact differentIds
  | error fault =>
      cases fault with
      | logErr message => exact iff_of_true trivial (.inl ⟨message, rfl⟩)
      | assertion _ | divideByZero | nullPointer | outOfBounds =>
          refine iff_of_false id ?_
          rintro (⟨message, refused⟩ | ⟨plain, _⟩)
          · cases refused
          · rcases initCommodities_error start with ⟨message, refused⟩ | ⟨s, member, long⟩
            · cases refused
            · have short := (plain s member).shortAddress
              omega

end

/-- Two strings with different numbers that name the same queue. -/
def collidingIds : List (List Char) := ["10.0.0.9,65537".toList, "10.0.0.8,1".toList]

/-- Both are accepted, and both commodities get the queue 1. -/
theorem wrapped_ids_collide : ¬TakenAsWritten afInet collidingIds := by
  intro taken
  have start : initCommodities afInet collidingIds =
      .ok [newCommodity (host4 [10, 0, 0, 8], 1), newCommodity (host4 [10, 0, 0, 9], 1)] := rfl
  rw [TakenAsWritten, start] at taken
  obtain ⟨entries, written, _⟩ := taken
  obtain ⟨entry, _, narrowed⟩ := Fallible.related_mem_left written (List.mem_cons_self ..)
  exact absurd (writtenAs_plain narrowed).1.small (by decide)

end Bprd
