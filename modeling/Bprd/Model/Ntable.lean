/-
Module: Bprd.Model.Ntable
Layer: Model
Purpose: Expiry of neighbours (src/ntable.c) and the daemon's global record (src/bprd.h). The expiry test
  works in 32-bit microseconds: the difference of the seconds is multiplied and truncated, and the signed
  difference of the microseconds is added with truncation. `time_t` is 64 bits wide.
Imports: Bprd.Model.Commodity
Trusted boundary: human-reviewed spec
Main exports: BprdT, condNExpired, ntableRefresh, ownNetaddr, copiedNetaddr
-/
import Bprd.Model.Commodity

namespace Bprd

/-- `bprd_t`, the fields the modelled functions read. -/
structure BprdT where
  ipver : UInt8
  ifIndex : Nat
  saddr : Sockaddr
  helloSeqno : UInt16
  neighborTimeout : UInt32
  clist : List Commodity
  nlist : List Neighbor
deriving DecidableEq

/-- `cond_n_expired`, for the clock reading `now`. -/
def condNExpired (neighborTimeout : UInt32) (now : Timeval) (n : Neighbor) : Bool :=
  let elapsed := UInt32.ofInt ((now.tvSec - n.updateTime.tvSec) * 1000000)
  let elapsed := UInt32.ofInt (elapsed.toNat + (now.tvUsec - n.updateTime.tvUsec))
  decide (elapsed > neighborTimeout)

/-- `ntable_refresh`; `clock k` is the k-th reading of `gettimeofday` during the call. -/
def ntableRefresh (neighborTimeout : UInt32) (clock : Nat → Timeval) (nlist : List Neighbor) :
    List Neighbor :=
  listRemoveCond (fun k n => condNExpired neighborTimeout (clock k) n) 0 nlist

/-- Contents of an automatic variable before its first assignment. -/
def uninitNetaddr : Netaddr := ⟨padAddr [], 0, 0⟩

/-- The node's own address, as `netaddr_from_socket` yields it from a copy of all `saddrlen` bytes of
    `*bprd.saddr`. `bprd_init` has checked the family, so nothing of the target's old content is left. -/
def ownNetaddr (saddr : Sockaddr) : Netaddr := (netaddrFromSocket uninitNetaddr saddr).2

/-- What `netaddr_from_socket` yields from the copy `nsaddr.std = *bprd.saddr`: over IPv6 the last 8 bytes
    are what the union held before. -/
def copiedNetaddr (leftover : Leftover) (saddr : Sockaddr) : Netaddr :=
  ownNetaddr (copySockaddr leftover saddr)

/-- Over IPv4 the copy is complete. -/
theorem copiedNetaddr_inet {saddr : Sockaddr} (family : saddr.family = afInet) (leftover : Leftover) :
    copiedNetaddr leftover saddr = ownNetaddr saddr := by
  have isInet6 : ¬saddr.family = afInet6 := by
    rw [family]
    decide
  rw [copiedNetaddr, copySockaddr, if_neg isInet6]

theorem ownNetaddr_inet {saddr : Sockaddr} (family : saddr.family = afInet) :
    ownNetaddr saddr = host4 saddr.addr := by
  simp [ownNetaddr, netaddrFromSocket, host4, family]

theorem ownNetaddr_inet6 {saddr : Sockaddr} (family : saddr.family = afInet6) :
    ownNetaddr saddr = ⟨padAddr (saddr.addr.take 16), afInet6, 128⟩ := by
  have notInet : ¬saddr.family = afInet := by
    rw [family]
    decide
  rw [ownNetaddr, netaddrFromSocket, if_neg notInet, if_pos family, family]

end Bprd
