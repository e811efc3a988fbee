/-
Module: Bprd.Proofs.RouterUpdate
Layer: Proofs
Purpose: A whole router update, commodity by commodity: the differential every neighbour entry gets, and
  the differential and route every own commodity gets. The differential in 32-bit arithmetic is the
  truncated difference of the backlogs.
Imports: Bprd.Proofs.Selection, Bprd.Spec.KernelRoutes, Mathlib.Data.List.Forall2
Trusted boundary: none
Main exports: clampedDiff, toNat_clampedDiff, updateNeighbor_entryOf, UpdatedCommodity,
  routerUpdate_nlist, routerUpdate_commodities, routerUpdate_routes, setsRoute_routeVia
-/
import Bprd.Proofs.Selection
import Bprd.Spec.KernelRoutes
import Mathlib.Data.List.Forall2

namespace Bprd

open Fallible (bind_eq_ok_iff mapM_eq_ok_iff)

/-- The differential of a neighbour entry: own backlog minus recorded backlog, clamped at 0. -/
def clampedDiff (own recorded : UInt32) : UInt32 := if own ≥ recorded then own - recorded else 0

theorem toNat_clampedDiff (own recorded : UInt32) :
    (clampedDiff own recorded).toNat = own.toNat - recorded.toNat := by
  unfold clampedDiff
  split
  · rename_i larger
    exact UInt32.toNat_sub_of_le _ _ larger
  · rename_i smaller
    have below : own.toNat < recorded.toNat := UInt32.lt_iff_toNat_lt.mp (UInt32.not_le.mp smaller)
    rw [UInt32.toNat_zero]
    omega

/-- The own commodity with a destination. -/
def ownOf (clist : List Commodity) (addr : Netaddr) : Option Commodity :=
  clist.find? fun f => decide (f.cdata.addr = addr)

section

variable {clist : List Commodity} {e e' : Commodity} {n n' : Neighbor}

theorem updateBackdiff_ok :
    updateBackdiff clist e = .ok e' ↔
      ∃ own, ownOf clist e.cdata.addr = some own ∧
        e' = { e with backdiff := clampedDiff own.cdata.backlog e.cdata.backlog } := by
  rw [updateBackdiff, clistFind_pointee, ← ownOf]
  cases ownOf clist e.cdata.addr with
  | none => simp
  | some own => simp [clampedDiff, eq_comm]

theorem updateNeighbor_ok :
    updateNeighbor clist n = .ok n' ↔
      ∃ entries, n.clist.mapM (updateBackdiff clist) = .ok entries ∧
        n' = { n with clist := entries } := by
  unfold updateNeighbor
  rw [bind_eq_ok_iff]
  constructor
  · rintro ⟨entries, traversed, result⟩
    cases result
    exact ⟨entries, traversed, rfl⟩
  · rintro ⟨entries, traversed, rfl⟩
    exact ⟨entries, traversed, rfl⟩

/-- What the second loop of an update does to the entry of one commodity. -/
theorem updateNeighbor_entryOf (ran : updateNeighbor clist n = .ok n') (c : Commodity) :
    (entryOf n c = none ∧ entryOf n' c = none) ∨
      ∃ e own, entryOf n c = some e ∧ ownOf clist c.cdata.addr = some own ∧
        entryOf n' c =
          some { e with backdiff := clampedDiff own.cdata.backlog e.cdata.backlog } := by
  obtain ⟨entries, traversed, rfl⟩ := updateNeighbor_ok.mp ran
  have pointwise := mapM_eq_ok_iff.mp traversed
  unfold entryOf
  dsimp only
  generalize n.clist = recorded at pointwise
  clear traversed ran
  induction pointwise with
  | nil => exact .inl ⟨rfl, rfl⟩
  | @cons f f' _ _ head _ ih =>
      obtain ⟨own, found, rfl⟩ := updateBackdiff_ok.mp head
      by_cases here : f.cdata.addr = c.cdata.addr
      · refine .inr ⟨f, own, ?_, here ▸ found, ?_⟩
        · simp [here]
        · simp [here]
      · simpa [here] using ih

end

theorem updateBacklog_ownOf {clist clist' : List Commodity} (ran : clist.mapM updateBacklog = .ok clist')
    (addr : Netaddr) :
    (ownOf clist addr = none ∧ ownOf clist' addr = none) ∨
      ∃ c queue, ownOf clist addr = some c ∧ c.queue = some queue ∧
        ownOf clist' addr =
          some { c with cdata := { c.cdata with backlog := fifoLength queue } } := by
  have pointwise := mapM_eq_ok_iff.mp ran
  clear ran
  unfold ownOf
  induction pointwise with
  | nil => exact .inl ⟨rfl, rfl⟩
  | @cons c c' _ _ head _ ih =>
      obtain ⟨queue, hasQueue, rfl⟩ := updateBacklog_ok.mp head
      by_cases here : c.cdata.addr = addr
      · refine .inr ⟨c, queue, ?_, hasQueue, ?_⟩
        · simp [here]
        · simp [here]
      · simpa [here] using ih

/-- What the source hands to the kernel are the bytes of the address. -/
theorem netaddrToSocket_bytes (ipver : UInt8) (addr : Netaddr) :
    (netaddrToSocket addr).2.addr.take (if ipver = afInet6 then 16 else 4) = addressBytes ipver addr := by
  have within : min (if ipver = afInet6 then 16 else 4) 16 = if ipver = afInet6 then 16 else 4 := by
    split <;> rfl
  rw [netaddrToSocket, addressBytes]
  by_cases inet : addr.type = afInet
  · rw [if_pos inet, if_pos inet, List.take_take]
  · by_cases inet6 : addr.type = afInet6
    · rw [if_neg inet, if_neg inet, if_pos inet6, if_pos inet6, List.take_take, within]
    · rw [if_neg inet, if_neg inet, if_neg inet6, if_neg inet6, List.take_nil]

/-- A route that the update sets is one to the commodity's destination through the neighbour. -/
theorem setsRoute_routeVia (bprd : BprdT) (c : Commodity) (n : Neighbor) :
    SetsRoute bprd c.cdata.addr n.addr (routeVia bprd c n) :=
  ⟨rfl, rfl, netaddrToSocket_bytes _ _, congrArg some (netaddrToSocket_bytes _ _)⟩

/-- How an update that takes `own` for the own address changes one own commodity, over the neighbour list
    `nlist` it leaves behind. -/
def UpdatedCommodity (own : Netaddr) (bprd : BprdT) (nlist : List Neighbor) (routes : List RouteUpdate)
    (c c' : Commodity) : Prop :=
  ∃ queue d, c.queue = some queue ∧
    c' = { c with cdata := { c.cdata with backlog := fifoLength queue }, backdiff := d } ∧
    (d = 0 ∧ (own = c.cdata.addr ∨ ∀ n ∈ nlist, n.bidir = 0) ∨
      own ≠ c.cdata.addr ∧
      ∃ n ∈ nlist, offered c n = some d ∧ routeVia bprd c n ∈ routes ∧
        (n.addr = c.cdata.addr ∨
          (∀ m ∈ nlist, m.bidir ≠ 0 → m.addr ≠ c.cdata.addr) ∧
            ∀ m ∈ nlist, ∀ d', offered c m = some d' → d' ≤ d))

theorem updateCommodities_selected {naddr : Netaddr} {bprd : BprdT} {tie : TieTest} {nlist : List Neighbor} :
    ∀ {backlogs : List Commodity} {clist clist' : List Commodity} {tests : Nat}
      {routes all : List RouteUpdate},
      List.Forall₂ (fun c c' => updateBacklog c = .ok c') clist backlogs →
        updateCommodities naddr bprd tie nlist tests backlogs = .ok (clist', routes) → routes ⊆ all →
          List.Forall₂ (UpdatedCommodity naddr bprd nlist all) clist clist'
  | [], clist, clist', tests, routes, all, first, ran, _ => by
      cases first
      cases ran
      exact .nil
  | b :: backlogs, clist, clist', tests, routes, all, first, ran, within => by
      cases first with
      | cons head tail =>
          rename_i c clist
          obtain ⟨queue, hasQueue, rfl⟩ := updateBacklog_ok.mp head
          obtain ⟨tests', c', routes₁, rest, routes₂, stored, later, rfl, rfl⟩ :=
            updateCommodities_cons.mp ran
          have within₁ : routes₁ ⊆ all := List.Subset.trans (List.subset_append_left ..) within
          have within₂ : routes₂ ⊆ all := List.Subset.trans (List.subset_append_right ..) within
          refine .cons ?_ (updateCommodities_selected tail later within₂)
          by_cases own : naddr = c.cdata.addr
          · rw [updateCommodity, if_pos (netaddrCmp_eq_zero.mpr own)] at stored
            cases stored
            exact ⟨queue, 0, hasQueue, rfl, .inl ⟨rfl, .inl own⟩⟩
          · rcases updateCommodity_selected (by exact own) stored with
              ⟨oneWay, rfl, rfl⟩ | ⟨n, member, d, offer, rfl, rfl, best⟩
            · exact ⟨queue, 0, hasQueue, rfl, .inl ⟨rfl, .inr oneWay⟩⟩
            · refine ⟨queue, d, hasQueue, rfl, .inr ⟨own, n, member, offer, ?_, best⟩⟩
              exact within₁ (List.mem_singleton.mpr rfl)

section

variable {tie : TieTest} {leftover : Leftover} {naddr : Netaddr} {bprd bprd' : BprdT}
  {routes : List RouteUpdate}

/-- What an update does to the own commodities. -/
theorem routerUpdate_commodities (ran : routerUpdate tie leftover bprd = .ok (bprd', routes)) :
    List.Forall₂ (UpdatedCommodity (copiedNetaddr leftover bprd.saddr) bprd bprd'.nlist routes) bprd.clist
      bprd'.clist := by
  obtain ⟨backlogs, nlist, clist', first, _, third, rfl⟩ := routerUpdate_ok.mp ran
  exact updateCommodities_selected (mapM_eq_ok_iff.mp first) third (List.Subset.refl _)

/-- How an update changes one neighbour, given the own commodities before it. -/
def UpdatedNeighbor (clist : List Commodity) (n n' : Neighbor) : Prop :=
  n'.addr = n.addr ∧ n'.bidir = n.bidir ∧ ∀ c,
    (entryOf n c = none ∧ entryOf n' c = none) ∨
      ∃ e own queue, entryOf n c = some e ∧ ownOf clist c.cdata.addr = some own ∧
        own.queue = some queue ∧
        entryOf n' c =
          some { e with backdiff := clampedDiff (fifoLength queue) e.cdata.backlog }

/-- What an update does to the neighbours. -/
theorem routerUpdate_nlist (ran : routerUpdate tie leftover bprd = .ok (bprd', routes)) :
    List.Forall₂ (UpdatedNeighbor bprd.clist) bprd.nlist bprd'.nlist := by
  obtain ⟨backlogs, nlist, clist', first, second, _, rfl⟩ := routerUpdate_ok.mp ran
  refine (mapM_eq_ok_iff.mp second).imp fun n n' updated => ?_
  obtain ⟨entries, _, result⟩ := updateNeighbor_ok.mp updated
  refine ⟨?_, ?_, ?_⟩
  · rw [result]
  · rw [result]
  · intro c
    rcases updateNeighbor_entryOf updated c with absent | ⟨e, own, found, ownFound, result'⟩
    · exact .inl absent
    · rcases updateBacklog_ownOf first c.cdata.addr with ⟨_, none_⟩ | ⟨c₀, queue, before, hasQueue, after⟩
      · rw [none_] at ownFound
        cases ownFound
      · rw [after] at ownFound
        cases ownFound
        exact .inr ⟨e, c₀, queue, found, before, hasQueue, result'⟩

/-- Every route an update sets goes through a bidirectional neighbour. -/
theorem updateCommodities_routes {nlist : List Neighbor} :
    ∀ {clist clist' : List Commodity} {tests : Nat} {routes : List RouteUpdate},
      updateCommodities naddr bprd tie nlist tests clist = .ok (clist', routes) → ∀ route ∈ routes,
        ∃ c ∈ clist, ∃ n ∈ nlist, n.bidir ≠ 0 ∧ route = routeVia bprd c n
  | [], clist', tests, routes, ran, route, set => by
      cases ran
      cases set
  | c :: clist, clist', tests, routes, ran, route, set => by
      obtain ⟨tests', c', routes₁, rest, routes₂, stored, later, rfl, rfl⟩ :=
        updateCommodities_cons.mp ran
      rcases List.mem_append.mp set with here | behind
      · by_cases own : naddr = c.cdata.addr
        · rw [updateCommodity, if_pos (netaddrCmp_eq_zero.mpr own)] at stored
          cases stored
          cases here
        · rcases updateCommodity_selected own stored with
            ⟨_, _, rfl⟩ | ⟨n, member, d, offer, _, rfl, _⟩
          · cases here
          · exact ⟨c, List.mem_cons_self .., n, member, (offered_eq_some_iff.mp offer).1,
              List.mem_singleton.mp here⟩
      · obtain ⟨f, isOwn, n, member, twoWay, isRoute⟩ := updateCommodities_routes later route behind
        exact ⟨f, List.mem_cons_of_mem _ isOwn, n, member, twoWay, isRoute⟩

theorem routerUpdate_routes (ran : routerUpdate tie leftover bprd = .ok (bprd', routes))
    {route : RouteUpdate} (set : route ∈ routes) :
    ∃ c ∈ bprd.clist, ∃ n ∈ bprd.nlist, n.bidir ≠ 0 ∧ route = routeVia bprd c n := by
  obtain ⟨backlogs, nlist, clist', first, second, third, rfl⟩ := routerUpdate_ok.mp ran
  obtain ⟨c, isOwn, n, member, twoWay, rfl⟩ := updateCommodities_routes third route set
  obtain ⟨c₀, isOwn₀, updated⟩ := Fallible.related_mem (mapM_eq_ok_iff.mp first) isOwn
  obtain ⟨queue, _, rfl⟩ := updateBacklog_ok.mp updated
  obtain ⟨n₀, member₀, updated⟩ := Fallible.related_mem (mapM_eq_ok_iff.mp second) member
  obtain ⟨entries, _, rfl⟩ := updateNeighbor_ok.mp updated
  exact ⟨c₀, isOwn₀, n₀, member₀, twoWay, rfl⟩

end

end Bprd
