/-
Module: Bprd.Model.Netaddr
Layer: Model
Purpose: Addresses as the daemon stores and compares them (lib/common/netaddr.c, netaddr.h). A `netaddr`
  is 16 address bytes, a family and a prefix length; two of them are compared by `memcmp` over the whole
  record, so equality of addresses includes the family and the prefix length.
Imports: Mathlib.Data.Vector.Basic
Trusted boundary: human-reviewed spec
Main exports: Netaddr, Sockaddr, Leftover, copySockaddr, netaddrCmp, netaddrFromBinary,
  netaddrFromSocket, netaddrToSocket,
  netaddrGetMaxPrefix, host4, netaddrCmp_eq_zero
-/
import Mathlib.Data.Vector.Basic

namespace Bprd

/-- `AF_INET`. -/
def afInet : UInt8 := 2

/-- `AF_INET6`. -/
def afInet6 : UInt8 := 10

/-- `AF_MAC48`, defined as `AF_MAX + 1`. -/
def afMac48 : UInt8 := 47

/-- `AF_EUI64`, defined as `AF_MAX + 2`. -/
def afEui64 : UInt8 := 48

/-- `struct netaddr`. -/
structure Netaddr where
  addr : List.Vector UInt8 16
  type : UInt8
  prefixLen : UInt8
deriving DecidableEq

/-- `struct sockaddr_in` / `sockaddr_in6` as far as the daemon reads them: the family and the address
    bytes (`sin_addr` or `sin6_addr`). -/
structure Sockaddr where
  family : UInt8
  addr : List UInt8
deriving DecidableEq, Repr

/-- What memory held behind a `struct sockaddr`: the bytes 16 to 23 of a `union netaddr_socket`, where the
    last half of `sin6_addr` belongs. -/
abbrev Leftover := List.Vector UInt8 8

/-- Cleared memory. -/
def zeroLeftover : Leftover := List.Vector.replicate 8 0

/-- `nsaddr.std = *saddr` copies the 16 bytes of a `struct sockaddr`. They hold all of `sin_addr`, but only
    the first 8 bytes of `sin6_addr`; behind them the union keeps what it held. -/
def copySockaddr (leftover : Leftover) (saddr : Sockaddr) : Sockaddr :=
  if saddr.family = afInet6 then { saddr with addr := saddr.addr.take 8 ++ leftover.toList } else saddr

/-- `memcmp`: the sign of the first difference. -/
def memcmp : List UInt8 → List UInt8 → Int
  | a :: as, b :: bs => if a = b then memcmp as bs else (a.toNat : Int) - b.toNat
  | _, _ => 0

theorem memcmp_eq_zero : ∀ {as bs : List UInt8}, as.length = bs.length →
    (memcmp as bs = 0 ↔ as = bs)
  | [], [], _ => by simp [memcmp]
  | a :: as, b :: bs, sameLength => by
      have tails : memcmp as bs = 0 ↔ as = bs := memcmp_eq_zero (by simpa using sameLength)
      by_cases same : a = b
      · simp [memcmp, same, tails]
      · have differ : (a.toNat : Int) - b.toNat ≠ 0 := by
          intro zero
          exact same (UInt8.toNat_inj.mp (by omega))
        simp [memcmp, same, differ]

/-- The memory image of a `netaddr`: it has no padding. -/
def Netaddr.bytes (a : Netaddr) : List UInt8 := a.addr.toList ++ [a.type, a.prefixLen]

@[simp] theorem Netaddr.length_bytes (a : Netaddr) : a.bytes.length = 18 := by
  simp [Netaddr.bytes]

theorem Netaddr.bytes_inj {a b : Netaddr} : a.bytes = b.bytes ↔ a = b := by
  constructor
  · intro same
    obtain ⟨⟨as, alen⟩, atype, aplen⟩ := a
    obtain ⟨⟨bs, blen⟩, btype, bplen⟩ := b
    have split := List.append_inj same (alen.trans blen.symm)
    simp only [List.Vector.toList_mk, List.cons.injEq, and_true] at split
    obtain ⟨rfl, rfl, rfl⟩ := split
    rfl
  · rintro rfl
    rfl

/-- `netaddr_cmp`: `memcmp(a1, a2, sizeof(*a1))`. -/
def netaddrCmp (a1 a2 : Netaddr) : Int := memcmp a1.bytes a2.bytes

@[simp] theorem netaddrCmp_eq_zero {a b : Netaddr} : netaddrCmp a b = 0 ↔ a = b := by
  rw [netaddrCmp, memcmp_eq_zero (by simp), Netaddr.bytes_inj]

/-- Address bytes placed at the start of a zeroed 16-byte field. -/
def padAddr (bytes : List UInt8) : List.Vector UInt8 16 :=
  ⟨(bytes ++ List.replicate 16 0).take 16, by simp⟩

/-- `netaddr_from_binary`. The address field is cleared first; family and prefix length of `dst` keep
    what they held when the conversion fails. -/
def netaddrFromBinary (dst : Netaddr) (binary : List UInt8) (len : Nat) (addrType : UInt8) :
    Int × Netaddr :=
  if addrType = afInet ∧ 4 ≤ len then
    (0, ⟨padAddr (binary.take 4), addrType, 32⟩)
  else if addrType = afInet6 ∧ 16 ≤ len then
    (0, ⟨padAddr (binary.take 16), addrType, 128⟩)
  else if addrType = afMac48 ∧ 6 ≤ len then
    (0, ⟨padAddr (binary.take 6), addrType, 48⟩)
  else if addrType = afEui64 ∧ 8 ≤ len then
    (0, ⟨padAddr (binary.take 8), addrType, 64⟩)
  else
    (-1, { dst with addr := padAddr [] })

/-- `netaddr_from_socket`. -/
def netaddrFromSocket (dst : Netaddr) (src : Sockaddr) : Int × Netaddr :=
  if src.family = afInet then
    (0, ⟨padAddr (src.addr.take 4), src.family, 32⟩)
  else if src.family = afInet6 then
    (0, ⟨padAddr (src.addr.take 16), src.family, 128⟩)
  else
    (-1, { dst with addr := padAddr [] })

/-- `netaddr_to_socket`: the address bytes that end up in the socket address; nothing is copied for
    a family that has no socket form. -/
def netaddrToSocket (src : Netaddr) : Int × Sockaddr :=
  if src.type = afInet then
    (0, ⟨src.type, src.addr.toList.take 4⟩)
  else if src.type = afInet6 then
    (0, ⟨src.type, src.addr.toList.take 16⟩)
  else
    (-1, ⟨src.type, []⟩)

/-- `netaddr_get_maxprefix`: 0 for a family that is not known. -/
def netaddrGetMaxPrefix (addr : Netaddr) : UInt8 :=
  if addr.type = afInet then 32
  else if addr.type = afInet6 then 128
  else if addr.type = afMac48 then 48
  else if addr.type = afEui64 then 64
  else 0

/-- The IPv4 host address with the given four bytes. -/
def host4 (bytes : List UInt8) : Netaddr := ⟨padAddr (bytes.take 4), afInet, 32⟩

end Bprd
