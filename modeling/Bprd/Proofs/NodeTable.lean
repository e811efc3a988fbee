/-
Module: Bprd.Proofs.NodeTable
Layer: Proofs
Purpose: What a daemon's own steps do to its neighbour table, seen as the table of
  Bprd.Spec.HelloHistory, and to what it advertises. Own steps only forget neighbours; only a router
  update changes an advertised backlog, to the length of the queue; address, family, commodities and queue
  numbers never change.
Imports: Bprd.Proofs.HelloSent, Bprd.Proofs.RouterUpdate
Trusted boundary: none
Main exports: routerUpdate_tableView, SameSetup, nodeStep_sameSetup, nodeStep_table, Advertises,
  nodeStep_advertises, hello_or_silent, nodeStep_silent, nodeStep_helloSeqno, nodeStep_idle
-/
import Bprd.Proofs.HelloSent
import Bprd.Proofs.RouterUpdate

namespace Bprd

open Fallible (mapM_eq_ok_iff)

/-! ### Router updates and the table -/

/-- Two entries that say the same. -/
structure SameEntry (n n' : Neighbor) : Prop where
  addr : n'.addr = n.addr
  view : n'.view = n.view
  dests : n'.clist.map Commodity.dest = n.clist.map Commodity.dest

/-- An update of an entry changes differentials only. -/
theorem updateNeighbor_sameEntry {clist : List Commodity} {n n' : Neighbor}
    (updated : updateNeighbor clist n = .ok n') : SameEntry n n' := by
  obtain ⟨entries, traversed, rfl⟩ := updateNeighbor_ok.mp updated
  have pointwise : List.Forall₂ (fun e e' : Commodity => e'.cdata = e.cdata) n.clist entries :=
    (mapM_eq_ok_iff.mp traversed).imp fun e e' entry => by
      obtain ⟨own, _, rfl⟩ := updateBackdiff_ok.mp entry
      rfl
  have keys : ∀ e e' : Commodity, e'.cdata = e.cdata → e'.dest = e.dest :=
    fun _ _ same => congrArg CommodityShort.addr same
  have backlogs : ∀ d, (KeyedList.lookup Commodity.dest d entries).map (fun c => c.cdata.backlog) =
      (KeyedList.lookup Commodity.dest d n.clist).map fun c => c.cdata.backlog := by
    intro d
    rcases KeyedList.lookup_related pointwise keys d with ⟨before, after⟩ | ⟨e, e', before, after, same⟩
    · rw [before, after]
    · rw [before, after, Option.map_some, Option.map_some, same]
  refine ⟨rfl, ?_, KeyedList.map_related pointwise keys⟩
  simp only [Neighbor.view, backlogs]

section

variable {tie : TieTest} {leftover : Leftover} {bprd bprd' : BprdT} {routes : List RouteUpdate}

theorem routerUpdate_sameEntries (ran : routerUpdate tie leftover bprd = .ok (bprd', routes)) :
    List.Forall₂ SameEntry bprd.nlist bprd'.nlist := by
  obtain ⟨clist, nlist, _, _, differentials, _, rfl⟩ := routerUpdate_ok.mp ran
  exact (mapM_eq_ok_iff.mp differentials).imp fun _ _ => updateNeighbor_sameEntry

theorem routerUpdate_tableView (ran : routerUpdate tie leftover bprd = .ok (bprd', routes)) :
    tableView bprd'.nlist = tableView bprd.nlist := by
  funext a
  rw [tableView, tableView]
  rcases KeyedList.lookup_related (routerUpdate_sameEntries ran) (fun _ _ => SameEntry.addr) a with
    ⟨before, after⟩ | ⟨n, n', before, after, same⟩
  · rw [before, after]
  · rw [before, after, Option.map_some, Option.map_some, same.view]

theorem routerUpdate_wellKept (ran : routerUpdate tie leftover bprd = .ok (bprd', routes))
    (wellKept : WellKept bprd.nlist) : WellKept bprd'.nlist := by
  have pointwise := routerUpdate_sameEntries ran
  constructor
  · rw [KeyedList.Distinct, KeyedList.map_related pointwise fun _ _ => SameEntry.addr]
    exact wellKept.neighbors
  · intro n' member
    obtain ⟨n, before, same⟩ := Fallible.related_mem pointwise member
    rw [KeyedList.Distinct, same.dests]
    exact wellKept.commodities n before

end

/-! ### The steps of a daemon -/

/-- What a daemon keeps from its configuration. -/
structure SameSetup (node node' : Node) : Prop where
  ipver : node'.bprd.ipver = node.bprd.ipver
  saddr : node'.bprd.saddr = node.bprd.saddr
  order : node'.order = node.order
  commodities : node'.bprd.clist.map (fun c => (c.dest, c.nfqId)) =
    node.bprd.clist.map fun c => (c.dest, c.nfqId)

theorem SameSetup.trans {node₁ node₂ node₃ : Node} (first : SameSetup node₁ node₂)
    (second : SameSetup node₂ node₃) : SameSetup node₁ node₃ :=
  ⟨second.ipver.trans first.ipver, second.saddr.trans first.saddr, second.order.trans first.order,
    second.commodities.trans first.commodities⟩

theorem SameSetup.map_dest {node node' : Node} (same : SameSetup node node') :
    node'.bprd.clist.map Commodity.dest = node.bprd.clist.map Commodity.dest := by
  have dests := congrArg (List.map Prod.fst) same.commodities
  rw [List.map_map, List.map_map] at dests
  exact dests

section

variable {node node' : Node} {op : NodeOp} {out : Output}

theorem nodeStep_sameSetup (ran : nodeStep node op = .ok (node', out)) : SameSetup node node' := by
  cases op with
  | backlogger op =>
      cases ran
      exact ⟨rfl, rfl, rfl, map_backloggerStep (fun _ _ => rfl) op node.bprd.clist⟩
  | update tie leftover =>
      obtain ⟨bprd, routes, updated, rfl, _⟩ := nodeStep_update.mp ran
      have pointwise := routerUpdate_clist updated
      obtain ⟨_, _, _, _, _, _, rfl⟩ := routerUpdate_ok.mp updated
      refine ⟨rfl, rfl, rfl, ?_⟩
      refine KeyedList.map_related pointwise ?_
      rintro c c' ⟨_, _, _, rfl⟩
      rfl
  | recv ambient buf =>
      obtain ⟨bprd, received, rfl, _⟩ := nodeStep_recv.mp ran
      obtain ⟨nlist, rfl⟩ := helloRecv_ok received
      exact ⟨rfl, rfl, rfl, rfl⟩
  | refresh clock =>
      cases ran
      exact ⟨rfl, rfl, rfl, rfl⟩
  | hello padding clock sendto =>
      obtain ⟨written, bprd, cycled, rfl, _⟩ := nodeStep_hello.mp ran
      obtain ⟨seqno, rfl⟩ := helloCycle_frame cycled
      exact ⟨rfl, rfl, rfl, rfl⟩

/-- Own steps forget some neighbours and change nothing else of the table. -/
theorem nodeStep_table (own : ∀ ambient buf, op ≠ .recv ambient buf)
    (wellKept : WellKept node.bprd.nlist) (ran : nodeStep node op = .ok (node', out)) :
    WellKept node'.bprd.nlist ∧
      ∃ gone, tableView node'.bprd.nlist = (tableView node.bprd.nlist).expire gone := by
  have none_ : ∀ table : TableView, table = table.expire fun _ => false := fun _ => rfl
  cases op with
  | backlogger op =>
      cases ran
      exact ⟨wellKept, _, none_ _⟩
  | update tie leftover =>
      obtain ⟨bprd, routes, updated, rfl, _⟩ := nodeStep_update.mp ran
      exact ⟨routerUpdate_wellKept updated wellKept, _, (routerUpdate_tableView updated).trans (none_ _)⟩
  | recv ambient buf => exact absurd rfl (own ambient buf)
  | refresh clock =>
      cases ran
      exact ⟨wellKept_ntableRefresh wellKept _ clock, _, tableView_ntableRefresh wellKept _ clock⟩
  | hello padding clock sendto =>
      obtain ⟨written, bprd, cycled, rfl, _⟩ := nodeStep_hello.mp ran
      obtain ⟨seqno, rfl⟩ := helloCycle_frame cycled
      exact ⟨wellKept_ntableRefresh wellKept _ clock, _, tableView_ntableRefresh wellKept _ clock⟩

/-- A daemon advertises a backlog for a destination. -/
def Advertises (node : Node) (d : Netaddr) (backlog : UInt32) : Prop :=
  ∃ c ∈ node.bprd.clist, c.dest = d ∧ c.cdata.backlog = backlog

/-- A daemon holds a queue of a length for a destination. -/
def QueueLength (clist : List Commodity) (d : Netaddr) (length : UInt32) : Prop :=
  ∃ c ∈ clist, ∃ queue, c.dest = d ∧ c.queue = some queue ∧ fifoLength queue = length

/-- What is advertised after a step was advertised before, or is a queue length at an update. -/
theorem nodeStep_advertises (ran : nodeStep node op = .ok (node', out)) {d : Netaddr}
    {backlog : UInt32} (advertised : Advertises node' d backlog) :
    Advertises node d backlog ∨
      (∃ tie leftover, op = .update tie leftover) ∧ QueueLength node.bprd.clist d backlog := by
  obtain ⟨c', member, isDest, isBacklog⟩ := advertised
  cases op with
  | backlogger op =>
      cases ran
      have same := map_backloggerStep (fun _ _ => rfl) op node.bprd.clist (p := Commodity.cdata)
      have carried : c'.cdata ∈ (backloggerStep node.bprd.clist op).1.map Commodity.cdata :=
        List.mem_map_of_mem member
      rw [same] at carried
      obtain ⟨c, before, isSame⟩ := List.mem_map.mp carried
      refine .inl ⟨c, before, ?_, ?_⟩
      · rw [Commodity.dest, isSame]
        exact isDest
      · rw [isSame]
        exact isBacklog
  | update tie leftover =>
      obtain ⟨bprd, routes, updated, rfl, _⟩ := nodeStep_update.mp ran
      obtain ⟨c, before, queue, diff, hasQueue, rfl⟩ :=
        Fallible.related_mem (routerUpdate_clist updated) member
      exact .inr ⟨⟨tie, leftover, rfl⟩, c, before, queue, isDest, hasQueue, isBacklog⟩
  | recv ambient buf =>
      obtain ⟨bprd, received, rfl, _⟩ := nodeStep_recv.mp ran
      obtain ⟨nlist, rfl⟩ := helloRecv_ok received
      exact .inl ⟨c', member, isDest, isBacklog⟩
  | refresh clock =>
      cases ran
      exact .inl ⟨c', member, isDest, isBacklog⟩
  | hello padding clock sendto =>
      obtain ⟨written, bprd, cycled, rfl, _⟩ := nodeStep_hello.mp ran
      obtain ⟨seqno, rfl⟩ := helloCycle_frame cycled
      exact .inl ⟨c', member, isDest, isBacklog⟩

/-- A step is a round of the hello writer, or it is silent. -/
theorem hello_or_silent (op : NodeOp) :
    (∃ padding clock sendto, op = .hello padding clock sendto) ∨
      ∀ padding clock sendto, op ≠ .hello padding clock sendto := by
  by_cases silent : ∀ padding clock sendto, op ≠ .hello padding clock sendto
  · exact .inr silent
  · simp only [ne_eq, not_forall, not_not] at silent
    exact .inl silent

/-- Only the hello writer sends. -/
theorem nodeStep_silent (silent : ∀ padding clock sendto, op ≠ .hello padding clock sendto)
    (ran : nodeStep node op = .ok (node', out)) :
    out.datagrams = [] ∧ node'.writer = node.writer := by
  cases op with
  | backlogger op =>
      cases ran
      exact ⟨rfl, rfl⟩
  | update tie leftover =>
      obtain ⟨_, _, _, rfl, rfl⟩ := nodeStep_update.mp ran
      exact ⟨rfl, rfl⟩
  | recv ambient buf =>
      obtain ⟨_, _, rfl, rfl⟩ := nodeStep_recv.mp ran
      exact ⟨rfl, rfl⟩
  | refresh clock =>
      cases ran
      exact ⟨rfl, rfl⟩
  | hello padding clock sendto => exact absurd rfl (silent padding clock _)

/-- Only the hello writer takes a sequence number. -/
theorem nodeStep_helloSeqno (silent : ∀ padding clock sendto, op ≠ .hello padding clock sendto)
    (ran : nodeStep node op = .ok (node', out)) :
    node'.bprd.helloSeqno = node.bprd.helloSeqno := by
  cases op with
  | backlogger op =>
      cases ran
      rfl
  | update tie leftover =>
      obtain ⟨_, _, updated, rfl, _⟩ := nodeStep_update.mp ran
      obtain ⟨_, _, _, _, _, _, rfl⟩ := routerUpdate_ok.mp updated
      rfl
  | recv ambient buf =>
      obtain ⟨_, received, rfl, _⟩ := nodeStep_recv.mp ran
      obtain ⟨_, rfl⟩ := helloRecv_ok received
      rfl
  | refresh clock =>
      cases ran
      rfl
  | hello padding clock sendto => exact absurd rfl (silent padding clock _)

/-- Between its rounds the hello writer is idle. -/
theorem nodeStep_idle (running : RunningFamily node.bprd.ipver) (idle : Idle node.writer)
    (ran : nodeStep node op = .ok (node', out)) : Idle node'.writer := by
  rcases hello_or_silent op with ⟨padding, clock, sendto, rfl⟩ | silent
  · obtain ⟨_, _, cycled, rfl, _⟩ := nodeStep_hello.mp ran
    exact (helloCycle_carries running idle cycled).2.1
  · rw [(nodeStep_silent silent ran).2]
    exact idle

end

end Bprd
