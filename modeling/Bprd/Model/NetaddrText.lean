/-
Module: Bprd.Model.NetaddrText
Layer: Model
Purpose: Addresses as text (lib/common/netaddr.c, string.c). `netaddr_from_string` copies at most 61
  characters of its input, trims them, and cuts them at the first blank or slash into an address and a
  prefix length. The punctuation of the address decides between IPv4, IPv6, MAC48 and EUI64. A prefix
  length is a number, or for IPv4 a subnet mask. `netaddr_to_prefixstring` writes an address, with its
  prefix length where that is forced or shorter than the address.
Imports: Bprd.Lib.CPrint, Bprd.Model.Netaddr
Trusted boundary: human-reviewed spec
Main exports: strscpy, strTrim, AddressScan, scanAddress, subnetmaskToPrefixlen,
  macFromString, hostFromString, prefixFromString, splitPrefix, netaddrFromString, macToString,
  hostToString, netaddrToPrefixstring, netaddrToString
-/
import Bprd.Lib.CPrint
import Bprd.Model.Netaddr

namespace Bprd

open CText (isspace strtoul inetPton4 inetPton6 inetNtop4 inetNtop6 decimalText)

/-- `sizeof(struct netaddr_str)`: `INET6_ADDRSTRLEN+16`. -/
def sizeofNetaddrStr : Nat := 46 + 16

/-- `strscpy`, for a buffer of positive size. -/
def strscpy (src : List Char) (size : Nat) : List Char := src.take (size - 1)

/-- `str_trim`. -/
def strTrim (s : List Char) : List Char := ((s.dropWhile isspace).reverse.dropWhile isspace).reverse

/-- What `netaddr_from_string` counts in the address. -/
structure AddressScan where
  colonCount : Nat
  minusCount : Nat
  hasColoncolon : Bool
  hasPoint : Bool
  lastWasColon : Bool
deriving DecidableEq, Repr

/-- The body of the scanning loop. -/
def scanCharacter (scan : AddressScan) (c : Char) : AddressScan :=
  let counted :=
    if c = ':' then
      { scan with
        hasColoncolon := scan.hasColoncolon || scan.lastWasColon
        colonCount := scan.colonCount + 1 }
    else if c = '.' then { scan with hasPoint := true }
    else if c = '-' then { scan with minusCount := scan.minusCount + 1 }
    else scan
  { counted with lastWasColon := c = ':' }

/-- The scanning loop. -/
def scanAddress (text : List Char) : AddressScan := text.foldl scanCharacter ⟨0, 0, false, false, false⟩

/-- Where the scanning loop stops. -/
def endsAddress (c : Char) : Bool := isspace c || c = '/'

/-- The text behind the address: blanks, at most one slash, and blanks are skipped. -/
def skipSeparator (rest : List Char) : List Char :=
  let rest := rest.dropWhile isspace
  let rest :=
    match rest with
    | '/' :: behind => behind
    | _ => rest
  rest.dropWhile isspace

/-- `(int)strtoul(…)`. -/
def intOfUlong (value : UInt64) : Int := Int.bmod value.toNat (2 ^ 32)

/-- The numeric prefix length, or -1 when the text is not a number to its end. -/
def numericPrefix (text : List Char) : Int :=
  match strtoul text with
  | some (value, []) => intOfUlong value
  | _ => -1

/-- The search of `_subnetmask_to_prefixlen`; the shifted mask belongs to `len`, one less than the
    argument. -/
def maskSearch (v4 : UInt32) : Nat → UInt32 → Int
  | 0, _ => -1
  | len + 1, shift => if v4 = shift then len else maskSearch v4 len (shift <<< 1)

/-- `_subnetmask_to_prefixlen`. -/
def subnetmaskToPrefixlen (src : List Char) : Int :=
  match inetPton4 src with
  | none => -1
  | some bytes => maskSearch (bytes.foldl (fun v4 byte => v4 <<< 8 ||| byte.toUInt32) 0) 32 0xffffffff

/-- `_read_hexdigit`, on the text that is left; -1 at its end. -/
def readHexdigit : List Char → Option Nat
  | [] => none
  | c :: _ => CText.hexDigit c

/-- `_mac_from_string`. -/
def macFromString (separator : Char) : Nat → List Char → Option (List UInt8)
  | 0, _ => none
  | binSize + 1, src =>
      match readHexdigit src with
      | none => none
      | some num =>
          let src := src.tail
          let octet :=
            match readHexdigit src with
            | some digit2 => (UInt8.ofNat (num * 16 + digit2), src.tail)
            | none => (UInt8.ofNat num, src)
          match octet.2 with
          | [] => if binSize = 0 then some [octet.1] else none
          | c :: src =>
              if c = separator then (macFromString separator binSize src).map (octet.1 :: ·) else none

/-- The branches on the punctuation: type, maximal prefix length and address bytes. -/
def hostFromString (text : List Char) : Option (UInt8 × Nat × List UInt8) :=
  let scan := scanAddress text
  if (scan.colonCount = 5 ∨ scan.minusCount = 5) ∧ (scan.colonCount = 0 ∨ scan.minusCount = 0) ∧
      scan.hasPoint = false ∧ scan.hasColoncolon = false then
    (macFromString (if scan.colonCount > 0 then ':' else '-') 6 text).map fun bytes =>
      (afMac48, 48, bytes)
  else if scan.colonCount = 0 ∧ scan.hasPoint = false ∧ scan.minusCount = 7 then
    (macFromString '-' 8 text).map fun bytes => (afEui64, 64, bytes)
  else if scan.colonCount = 0 ∧ scan.hasPoint = true ∧ scan.minusCount = 0 then
    (inetPton4 text).map fun bytes => (afInet, 32, bytes)
  else if (scan.hasColoncolon = true ∨ scan.colonCount = 7) ∧ scan.minusCount = 0 then
    (inetPton6 text).map fun bytes => (afInet6, 128, bytes)
  else none

/-- The prefix length that the text behind the address gives, for an address of this type. -/
def prefixFromString (type : UInt8) (text : List Char) : Int :=
  if type = afInet ∧ numericPrefix text = -1 then subnetmaskToPrefixlen text else numericPrefix text

/-- The address in a text, and the text of its prefix length if there is one. -/
def splitPrefix (text : List Char) : List Char × Option (List Char) :=
  let rest := text.dropWhile fun c => !endsAddress c
  (text.takeWhile fun c => !endsAddress c, if rest = [] then none else some (skipSeparator rest))

/-- `netaddr_from_string`: `none` stands for the result -1. -/
def netaddrFromString (src : List Char) : Option Netaddr :=
  let parts := splitPrefix (strTrim (strscpy src sizeofNetaddrStr))
  if parts.2 = some [] then none
  else
    match hostFromString parts.1 with
    | none => none
    | some (type, maxPrefix, bytes) =>
        match parts.2 with
        | none => some ⟨padAddr bytes, type, UInt8.ofNat maxPrefix⟩
        | some text =>
            let prefixLen := prefixFromString type text
            if prefixLen < 0 ∨ (maxPrefix : Int) < prefixLen then none
            else some ⟨padAddr bytes, type, UInt8.ofNat prefixLen.toNat⟩

/-! ### Writing -/

/-- `hex[digit]`. -/
def hexChar (digit : UInt8) : Char := "0123456789abcdef".toList.getD digit.toNat '0'

/-- The loop of `_mac_to_string`: two digits and a separator for each octet, while there is room. -/
def macLoop (separator : Char) : Nat → List UInt8 → List Char
  | _, [] => []
  | dstSize, byte :: bin =>
      if 3 ≤ dstSize then
        hexChar (byte >>> 4) :: hexChar (byte &&& 15) :: separator :: macLoop separator (dstSize - 3) bin
      else []

/-- `_mac_to_string`: the terminating NUL takes the place of the last separator. -/
def macToString (dstSize : Nat) (bin : List UInt8) (separator : Char) : Option (List Char) :=
  if dstSize = 0 then none else some (macLoop separator dstSize bin).dropLast

/-- The address that `netaddr_to_prefixstring` writes, and the prefix length that goes without saying. The
    buffer has room for every text of `inet_ntop`. -/
def hostToString (src : Netaddr) : Option (List Char × Nat) :=
  if src.type = afInet then some (inetNtop4 (src.addr.toList.take 4), 32)
  else if src.type = afInet6 then some (inetNtop6 src.addr.toList, 128)
  else if src.type = afMac48 then
    (macToString sizeofNetaddrStr (src.addr.toList.take 6) ':').map fun result => (result, 48)
  else if src.type = afEui64 then
    (macToString sizeofNetaddrStr (src.addr.toList.take 8) '-').map fun result => (result, 64)
  else none

/-- `netaddr_to_prefixstring`: `none` stands for the result `NULL`. `snprintf` writes at most four
    characters behind the address. -/
def netaddrToPrefixstring (src : Netaddr) (forcePrefix : Bool) : Option (List Char) :=
  match hostToString src with
  | none => none
  | some (result, maxPrefix) =>
      if forcePrefix = true ∨ src.prefixLen.toNat < maxPrefix then
        some (result ++ ('/' :: decimalText src.prefixLen.toNat).take 4)
      else some result

/-- `netaddr_to_string`. -/
def netaddrToString (src : Netaddr) : Option (List Char) := netaddrToPrefixstring src false

end Bprd
