/-
Module: Bprd.Model.Router
Layer: Model
Purpose: Next-hop selection (src/router.c). `router_update` refreshes the own backlogs from the queues,
  computes the clamped differential of every commodity of every neighbour, and for every own commodity
  scans the neighbours once: neighbours that are not bidirectional are skipped, a neighbour that is the
  commodity's destination ends the scan, and ties of the running maximum are broken at random.
Imports: Bprd.Model.Ntable, Bprd.Model.Fault
Trusted boundary: human-reviewed spec
Main exports: TieTest, RouteUpdate, routerRouteUpdate, updateBacklog, updateBackdiff, updateNeighbor,
  Selection, selectNexthop, updateCommodity, updateCommodities, routerUpdate
-/
import Bprd.Model.Ntable
import Bprd.Model.Fault

namespace Bprd

/-- Outcomes of the test `rand()/RAND_MAX >= (num-1)/num`: `outcome k num` is the outcome of its k-th
    evaluation when the tie counter is `num`. For `num = 1` the right side is 0 and the test holds
    whatever `rand()` returns; nothing else is assumed about it. -/
structure TieTest where
  outcome : Nat → Nat → Bool
  first_accepted : ∀ k, outcome k 1 = true

/-- One change of the kernel's routing table: the route to `dst` is replaced by one through the gateway
    `nh`, or removed when there is none. -/
structure RouteUpdate where
  dst : List UInt8
  nh : Option (List UInt8)
  family : UInt8
  ifindex : Nat
deriving DecidableEq, Repr

/-- `router_route_update`: the netlink addresses are built from the address bytes of the family. -/
def routerRouteUpdate (dst : Sockaddr) (nh : Option Sockaddr) (family : UInt8) (ifindex : Nat) :
    RouteUpdate :=
  let len := if family = afInet6 then 16 else 4
  { dst := dst.addr.take len
    nh := nh.map fun gateway => gateway.addr.take len
    family := family
    ifindex := ifindex }

/-- First loop of `router_update`: `c->cdata.backlog = fifo_length(c->queue)`. -/
def updateBacklog (c : Commodity) : Except Fault Commodity :=
  match c.queue with
  | none => .error .nullPointer
  | some queue => .ok { c with cdata := { c.cdata with backlog := fifoLength queue } }

/-- Second loop, body: the differential of one commodity of a neighbour, clamped at 0. -/
def updateBackdiff (clist : List Commodity) (c : Commodity) : Except Fault Commodity :=
  match pointee clist (clistFind clist c) with
  | none => .error (.logErr "Neighbor knows about commodity that I don't!")
  | some ctemp =>
      .ok { c with
        backdiff :=
          if ctemp.cdata.backlog ≥ c.cdata.backlog then ctemp.cdata.backlog - c.cdata.backlog else 0 }

/-- Second loop, for one neighbour. -/
def updateNeighbor (clist : List Commodity) (n : Neighbor) : Except Fault Neighbor := do
  let differentials ← n.clist.mapM (updateBackdiff clist)
  return { n with clist := differentials }

/-- The variables of the next-hop scan: tie counter, best differential, best neighbour, and the number
    of acceptance tests made so far in this update. -/
structure Selection where
  num : Nat
  diffopt : UInt32
  nopt : Option Neighbor
  tests : Nat

/-- The next-hop scan for commodity `c`. -/
def selectNexthop (tie : TieTest) (c : Commodity) : List Neighbor → Selection → Except Fault Selection
  | [], s => .ok s
  | n :: rest, s =>
      match pointee n.clist (clistFind n.clist c) with
      | none => .error (.logErr "I know about a commodity that my neighbor doesn't!")
      | some ctemp =>
          if n.bidir = 0 then
            selectNexthop tie c rest s
          else if netaddrCmp n.addr ctemp.cdata.addr = 0 then
            .ok { s with nopt := some n, diffopt := ctemp.backdiff }
          else if ctemp.backdiff < s.diffopt then
            selectNexthop tie c rest s
          else
            let num := if ctemp.backdiff = s.diffopt then s.num + 1 else 1
            if tie.outcome s.tests num then
              selectNexthop tie c rest
                { num := num, diffopt := ctemp.backdiff, nopt := some n, tests := s.tests + 1 }
            else
              selectNexthop tie c rest { s with num := num, tests := s.tests + 1 }

/-- Third loop, body: store the differential of one own commodity and set its route. `naddr` is what the
    commodity's destination is compared with to see whether it is destined to this node. -/
def updateCommodity (naddr : Netaddr) (bprd : BprdT) (tie : TieTest) (nlist : List Neighbor) (tests : Nat)
    (c : Commodity) : Except Fault (Nat × Commodity × List RouteUpdate) :=
  if netaddrCmp naddr c.cdata.addr = 0 then
    .ok (tests, { c with backdiff := 0 }, [])
  else do
    let s ← selectNexthop tie c nlist { num := 0, diffopt := 0, nopt := none, tests := tests }
    match s.nopt with
    | some nopt =>
        .ok (s.tests, { c with backdiff := s.diffopt },
          [routerRouteUpdate (netaddrToSocket c.cdata.addr).2
            (some (netaddrToSocket nopt.addr).2) bprd.ipver bprd.ifIndex])
    | none => .ok (s.tests, { c with backdiff := 0 }, [])

/-- Third loop. -/
def updateCommodities (naddr : Netaddr) (bprd : BprdT) (tie : TieTest) (nlist : List Neighbor) :
    Nat → List Commodity → Except Fault (List Commodity × List RouteUpdate)
  | _, [] => .ok ([], [])
  | tests, c :: rest => do
      let (tests', c', routes) ← updateCommodity naddr bprd tie nlist tests c
      let (rest', routes') ← updateCommodities naddr bprd tie nlist tests' rest
      return (c' :: rest', routes ++ routes')

/-- `router_update`. The own address is copied once, into a union that held `leftover`. -/
def routerUpdate (tie : TieTest) (leftover : Leftover) (bprd : BprdT) :
    Except Fault (BprdT × List RouteUpdate) := do
  let naddr := copiedNetaddr leftover bprd.saddr
  let clist ← bprd.clist.mapM updateBacklog
  let nlist ← bprd.nlist.mapM (updateNeighbor clist)
  let (clist', routes) ← updateCommodities naddr bprd tie nlist 0 clist
  return ({ bprd with clist := clist', nlist := nlist }, routes)

end Bprd
