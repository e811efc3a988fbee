/-
Module: Bprd.Proofs.NextHop
Layer: Proofs
Purpose: The choice of next hops. For every own commodity a completed update makes one choice, described
  without the scan: no hop when the commodity is destined to this node or no neighbour is bidirectional,
  else the destination when it is a bidirectional neighbour, else a bidirectional neighbour of the
  largest differential. The stored differential is that of the choice, so neither the order of the
  lists nor the random tests show in it. What is destined to this node is read off an incomplete copy of
  the own address, so the choices are right exactly when the copy and the address name the same
  commodities, or when there is nothing to choose from.
Imports: Bprd.Proofs.Backpressure
Trusted boundary: none
Main exports: differential, NextHop, NextHop.unique, SetsHop, NextHopsSet, updateCommodity_nextHop,
  routerUpdate_nextHops, NextHopCorrect, next_hop_correct_iff
-/
import Bprd.Proofs.Backpressure

namespace Bprd

open Fallible (bind_eq_ok_iff mapM_eq_ok_iff)

/-- The backlog a neighbour recorded for a commodity. -/
def recordedBacklog (n : Neighbor) (c : Commodity) : Nat :=
  match entryOf n c with
  | none => 0
  | some e => e.cdata.backlog.toNat

/-- The differential of a commodity at a neighbour: own backlog minus recorded backlog, at least 0. -/
def differential (c : Commodity) (n : Neighbor) : Nat := queueLength c - recordedBacklog n c

/-- The next hop of a commodity over a neighbour list, for a node of address `own`, and the differential
    stored with it. -/
inductive NextHop (own : Netaddr) (nlist : List Neighbor) (c : Commodity) :
    Option Neighbor → Nat → Prop where
  /-- The commodity is destined to this node, or no neighbour is bidirectional. -/
  | unrouted (unused : own = c.cdata.addr ∨ ∀ n ∈ nlist, n.bidir = 0) : NextHop own nlist c none 0
  /-- A bidirectional neighbour is the destination. -/
  | destination (n : Neighbor) (forOthers : own ≠ c.cdata.addr) (member : n ∈ nlist)
      (twoWay : n.bidir ≠ 0) (atDestination : n.addr = c.cdata.addr) :
      NextHop own nlist c (some n) (differential c n)
  /-- No bidirectional neighbour is the destination, and none has a larger differential. -/
  | largest (n : Neighbor) (forOthers : own ≠ c.cdata.addr) (member : n ∈ nlist) (twoWay : n.bidir ≠ 0)
      (plain : ∀ m ∈ nlist, m.bidir ≠ 0 → m.addr ≠ c.cdata.addr)
      (upper : ∀ m ∈ nlist, m.bidir ≠ 0 → differential c m ≤ differential c n) :
      NextHop own nlist c (some n) (differential c n)

section

variable {own own₂ : Netaddr} {nlist nlist₂ : List Neighbor} {c : Commodity} {hop hop₂ : Option Neighbor}
  {d d₂ : Nat}

/-- The stored differential depends on the neighbours only as a set. -/
theorem NextHop.unique (keyed : (nlist.map Neighbor.addr).Nodup)
    (neighbors : ∀ n, n ∈ nlist₂ ↔ n ∈ nlist) (chosen : NextHop own nlist c hop d)
    (chosen₂ : NextHop own nlist₂ c hop₂ d₂) : d = d₂ := by
  cases chosen with
  | unrouted unused =>
      cases chosen₂ with
      | unrouted _ => rfl
      | destination n forOthers member twoWay _ =>
          rcases unused with isOwn | oneWay
          · exact absurd isOwn forOthers
          · exact absurd (oneWay n ((neighbors n).mp member)) twoWay
      | largest n forOthers member twoWay _ _ =>
          rcases unused with isOwn | oneWay
          · exact absurd isOwn forOthers
          · exact absurd (oneWay n ((neighbors n).mp member)) twoWay
  | destination n forOthers member twoWay atDestination =>
      cases chosen₂ with
      | unrouted unused =>
          rcases unused with isOwn | oneWay
          · exact absurd isOwn forOthers
          · exact absurd (oneWay n ((neighbors n).mpr member)) twoWay
      | destination m _ member₂ _ atDestination₂ =>
          have same : n = m := List.inj_on_of_nodup_map keyed member ((neighbors m).mp member₂)
            (atDestination.trans atDestination₂.symm)
          rw [same]
      | largest m _ _ _ plain _ =>
          exact absurd atDestination (plain n ((neighbors n).mpr member) twoWay)
  | largest n forOthers member twoWay plain upper =>
      cases chosen₂ with
      | unrouted unused =>
          rcases unused with isOwn | oneWay
          · exact absurd isOwn forOthers
          · exact absurd (oneWay n ((neighbors n).mpr member)) twoWay
      | destination m _ member₂ twoWay₂ atDestination =>
          exact absurd atDestination (plain m ((neighbors m).mp member₂) twoWay₂)
      | largest m _ member₂ twoWay₂ _ upper₂ =>
          apply Nat.le_antisymm
          · exact upper₂ n ((neighbors n).mpr member) twoWay
          · exact upper m ((neighbors m).mp member₂) twoWay₂

/-- A commodity has a next hop when it is for others and some neighbour is bidirectional. -/
theorem NextHop.isSome_iff (chosen : NextHop own nlist c hop d) (twoWay : ∃ n ∈ nlist, n.bidir ≠ 0) :
    hop.isSome ↔ own ≠ c.cdata.addr := by
  cases chosen with
  | unrouted unused =>
      obtain ⟨n, member, isTwoWay⟩ := twoWay
      rcases unused with isOwn | oneWay
      · simp [isOwn]
      · exact absurd (oneWay n member) isTwoWay
  | destination n forOthers _ _ _ => simp [forOthers]
  | largest n forOthers _ _ _ _ => simp [forOthers]

/-- Two addresses give the same choices when they agree on the commodity, or when there is nothing to
    choose from. -/
theorem NextHop.congr_own (same : (∀ n ∈ nlist, n.bidir = 0) ∨ (own = c.cdata.addr ↔ own₂ = c.cdata.addr))
    (chosen : NextHop own nlist c hop d) : NextHop own₂ nlist c hop d := by
  rcases same with oneWay | agree
  · cases chosen with
    | unrouted _ => exact .unrouted (.inr oneWay)
    | destination n _ member twoWay _ => exact absurd (oneWay n member) twoWay
    | largest n _ member twoWay _ _ => exact absurd (oneWay n member) twoWay
  · cases chosen with
    | unrouted unused => exact .unrouted (unused.imp_left agree.mp)
    | destination n forOthers member twoWay atDestination =>
        exact .destination n (fun isOwn => forOthers (agree.mpr isOwn)) member twoWay atDestination
    | largest n forOthers member twoWay plain upper =>
        exact .largest n (fun isOwn => forOthers (agree.mpr isOwn)) member twoWay plain upper

end

/-- The changes of the routing table that a choice asks for: the route to the commodity's destination
    through the next hop, or none. -/
inductive SetsHop (bprd : BprdT) (c : Commodity) : Option Neighbor → List RouteUpdate → Prop where
  | unrouted : SetsHop bprd c none []
  | routed (n : Neighbor) (route : RouteUpdate) (sets : SetsRoute bprd c.cdata.addr n.addr route) :
      SetsHop bprd c (some n) [route]

/-- For every own commodity, and in their order, `bprd'` stores the differential of a next hop and
    `routes` sets the route through it. -/
def NextHopsSet (own : Netaddr) (bprd bprd' : BprdT) (routes : List RouteUpdate) : Prop :=
  ∃ results : List (Commodity × List RouteUpdate), bprd'.clist = results.map Prod.fst ∧
    routes = results.flatMap Prod.snd ∧
      List.Forall₂ (fun c result => result.1.cdata.addr = c.cdata.addr ∧
        ∃ hop, NextHop own bprd.nlist c hop result.1.backdiff.toNat ∧ SetsHop bprd c hop result.2)
        bprd.clist results

/-! ### One commodity -/

section

variable {tie : TieTest} {naddr : Netaddr} {bprd : BprdT} {c : Commodity} {queue : Fifo} {n n' : Neighbor}

/-- What an updated bidirectional neighbour offers for a commodity that it lists. -/
theorem UpdatedNeighbor.offers (updated : UpdatedNeighbor bprd.clist n n')
    (ownFound : ownOf bprd.clist c.cdata.addr = some c) (hasQueue : c.queue = some queue)
    {e : Commodity} (found : entryOf n c = some e) (twoWay : n.bidir ≠ 0) :
    ∃ d, offered c n' = some d ∧ d.toNat = differential c n := by
  obtain ⟨_, sameBidir, entries⟩ := updated
  rcases entries c with ⟨none_, _⟩ | ⟨e', own, queue', found', ownFound', hasQueue', result⟩
  · rw [none_] at found
    cases found
  · obtain rfl := Option.some.inj (found'.symm.trans found)
    obtain rfl := Option.some.inj (ownFound.symm.trans ownFound')
    obtain rfl := Option.some.inj (hasQueue.symm.trans hasQueue')
    refine ⟨clampedDiff (fifoLength queue) e'.cdata.backlog, ?_, ?_⟩
    · exact offered_eq_some_iff.mpr ⟨sameBidir ▸ twoWay, _, result, rfl⟩
    · rw [toNat_clampedDiff, differential, recordedBacklog, queueLength, hasQueue, found]

/-- The third loop makes the described choice for one commodity and sets its route accordingly. -/
theorem updateCommodity_nextHop {nlist : List Neighbor} {tests tests' : Nat} {b c' : Commodity}
    {routes : List RouteUpdate} (neighbors : List.Forall₂ (UpdatedNeighbor bprd.clist) bprd.nlist nlist)
    (ownFound : ownOf bprd.clist c.cdata.addr = some c) (hasQueue : c.queue = some queue)
    (listed : ∀ n ∈ bprd.nlist, ∃ e, entryOf n c = some e)
    (sameAddr : b.cdata.addr = c.cdata.addr)
    (ran : updateCommodity naddr bprd tie nlist tests b = .ok (tests', c', routes)) :
    ∃ hop, NextHop naddr bprd.nlist c hop c'.backdiff.toNat ∧ SetsHop bprd c hop routes := by
  have sameOffer : ∀ m, offered b m = offered c m := fun m => by
    unfold offered entryOf
    rw [sameAddr]
  by_cases own : naddr = c.cdata.addr
  · rw [updateCommodity, if_pos (netaddrCmp_eq_zero.mpr (own.trans sameAddr.symm))] at ran
    cases ran
    exact ⟨none, .unrouted (.inl own), .unrouted⟩
  · rcases updateCommodity_selected (by rw [sameAddr]; exact own) ran with
      ⟨oneWay, rfl, rfl⟩ | ⟨n', member', d, offer, rfl, rfl, best⟩
    · refine ⟨none, .unrouted (.inr ?_), .unrouted⟩
      intro n member
      obtain ⟨n', member', _, sameBidir, _⟩ := Fallible.related_mem_left neighbors member
      exact sameBidir ▸ oneWay n' member'
    · obtain ⟨n, member, updated⟩ := Fallible.related_mem neighbors member'
      have twoWay : n.bidir ≠ 0 := updated.2.1 ▸ (offered_eq_some_iff.mp offer).1
      obtain ⟨e, found⟩ := listed n member
      obtain ⟨d', offer', value⟩ := updated.offers ownFound hasQueue found twoWay
      rw [sameOffer] at offer
      obtain rfl := Option.some.inj (offer.symm.trans offer')
      have route := setsRoute_routeVia bprd b n'
      rw [sameAddr, updated.1] at route
      refine ⟨some n, ?_, .routed n _ route⟩
      show NextHop naddr bprd.nlist c (some n) d.toNat
      rw [value]
      rw [sameAddr, updated.1] at best
      rcases best with atDestination | ⟨plain, upper⟩
      · exact .destination n own member twoWay atDestination
      · refine .largest n own member twoWay ?_ ?_
        · intro m isNeighbor isTwoWay
          obtain ⟨m', isNeighbor', sameName, sameBidir, _⟩ :=
            Fallible.related_mem_left neighbors isNeighbor
          rw [← sameName]
          exact plain m' isNeighbor' (sameBidir ▸ isTwoWay)
        · intro m isNeighbor isTwoWay
          obtain ⟨m', isNeighbor', change⟩ := Fallible.related_mem_left neighbors isNeighbor
          obtain ⟨f, isListed⟩ := listed m isNeighbor
          obtain ⟨x, offers, isDifferential⟩ := change.offers ownFound hasQueue isListed isTwoWay
          rw [← isDifferential, ← value]
          exact UInt32.le_iff_toNat_le.mp (upper m' isNeighbor' x ((sameOffer m').trans offers))

end

/-! ### All commodities -/

/-- The steps of the third loop. -/
theorem updateCommodities_steps {naddr : Netaddr} {bprd : BprdT} {tie : TieTest} {nlist : List Neighbor} :
    ∀ {clist clist' : List Commodity} {tests : Nat} {routes : List RouteUpdate},
      updateCommodities naddr bprd tie nlist tests clist = .ok (clist', routes) →
        ∃ steps : List (Commodity × List RouteUpdate), clist' = steps.map Prod.fst ∧
          routes = steps.flatMap Prod.snd ∧
          List.Forall₂ (fun c step => ∃ tests tests',
            updateCommodity naddr bprd tie nlist tests c = .ok (tests', step.1, step.2)) clist steps
  | [], clist', tests, routes, ran => by
      cases ran
      exact ⟨[], rfl, rfl, .nil⟩
  | c :: clist, clist', tests, routes, ran => by
      obtain ⟨tests', c', routes₁, rest, routes₂, head, tail, rfl, rfl⟩ :=
        updateCommodities_cons.mp ran
      obtain ⟨steps, rfl, rfl, later⟩ := updateCommodities_steps tail
      exact ⟨(c', routes₁) :: steps, rfl, rfl, .cons ⟨tests, tests', head⟩ later⟩

section

variable {tie : TieTest} {leftover : Leftover} {bprd bprd' : BprdT} {routes : List RouteUpdate}

/-- A completed update over a table that lists the own commodities chooses a next hop for each of them,
    with the copied address for the own one. -/
theorem routerUpdate_nextHops (distinct : (bprd.clist.map fun c => c.cdata.addr).Nodup)
    (lists : ListsOwn bprd) (ran : routerUpdate tie leftover bprd = .ok (bprd', routes)) :
    NextHopsSet (copiedNetaddr leftover bprd.saddr) bprd bprd' routes := by
  have neighbors := routerUpdate_nlist ran
  obtain ⟨backlogs, nlist, clist', first, _, third, rfl⟩ := routerUpdate_ok.mp ran
  obtain ⟨steps, rfl, rfl, loops⟩ := updateCommodities_steps third
  refine ⟨steps, rfl, rfl, ?_⟩
  have refreshed := mapM_eq_ok_iff.mp first
  rw [List.forall₂_iff_get] at refreshed loops ⊢
  refine ⟨refreshed.1.trans loops.1, ?_⟩
  intro i inside inside'
  have within : i < backlogs.length := refreshed.1 ▸ inside
  have isOwn : bprd.clist.get ⟨i, inside⟩ ∈ bprd.clist := List.get_mem ..
  have updated := refreshed.2 i inside within
  obtain ⟨tests, tests', loop⟩ := loops.2 i within inside'
  generalize bprd.clist.get ⟨i, inside⟩ = c at *
  generalize backlogs.get ⟨i, within⟩ = b at *
  obtain ⟨queue, hasQueue, refreshedTo⟩ := updateBacklog_ok.mp updated
  have sameAddr : b.cdata.addr = c.cdata.addr := by rw [refreshedTo]
  have listed : ∀ n ∈ bprd.nlist, ∃ e, entryOf n c = some e :=
    fun n member => entryOf_isSome ((lists n member _).mpr ⟨c, isOwn, rfl⟩)
  obtain ⟨d, stored⟩ := updateCommodity_ok loop
  refine ⟨?_, updateCommodity_nextHop neighbors (ownOf_eq_self distinct isOwn) hasQueue listed sameAddr
    loop⟩
  rw [stored]
  exact sameAddr

/-- What is stored does not depend on the order of the lists or on the random tests. -/
theorem routerUpdate_backdiff_unique {tie₂ : TieTest} {bprd₂ bprd₂' : BprdT}
    {routes₂ : List RouteUpdate} (keyed : (bprd.nlist.map Neighbor.addr).Nodup)
    (distinct : (bprd.clist.map fun c => c.cdata.addr).Nodup) (lists : ListsOwn bprd)
    (own : bprd₂.saddr = bprd.saddr) (commodities : bprd₂.clist.Perm bprd.clist)
    (neighbors : bprd₂.nlist.Perm bprd.nlist)
    (ran : routerUpdate tie leftover bprd = .ok (bprd', routes))
    (ran₂ : routerUpdate tie₂ leftover bprd₂ = .ok (bprd₂', routes₂)) {c c₂ : Commodity}
    (member : c ∈ bprd'.clist) (member₂ : c₂ ∈ bprd₂'.clist) (same : c.cdata.addr = c₂.cdata.addr) :
    c.backdiff = c₂.backdiff := by
  have distinct₂ : (bprd₂.clist.map fun c => c.cdata.addr).Nodup :=
    (commodities.map _).nodup_iff.mpr distinct
  have lists₂ : ListsOwn bprd₂ := by
    intro n isNeighbor addr
    rw [lists n (neighbors.mem_iff.mp isNeighbor) addr]
    simp only [commodities.mem_iff]
  obtain ⟨results, stored, _, chosen⟩ := routerUpdate_nextHops distinct lists ran
  obtain ⟨results₂, stored₂, _, chosen₂⟩ := routerUpdate_nextHops distinct₂ lists₂ ran₂
  rw [stored] at member
  rw [stored₂] at member₂
  rw [own] at chosen₂
  obtain ⟨result, isResult, rfl⟩ := List.mem_map.mp member
  obtain ⟨result₂, isResult₂, rfl⟩ := List.mem_map.mp member₂
  obtain ⟨f, isOwn, addr, hop, nextHop, _⟩ := Fallible.related_mem chosen isResult
  obtain ⟨f₂, isOwn₂, addr₂, hop₂, nextHop₂, _⟩ := Fallible.related_mem chosen₂ isResult₂
  have sameOwn : f = f₂ := List.inj_on_of_nodup_map distinct isOwn (commodities.mem_iff.mp isOwn₂)
    (addr.symm.trans (same.trans addr₂))
  subst sameOwn
  exact UInt32.toNat_inj.mp (nextHop.unique keyed (fun n => neighbors.mem_iff) nextHop₂)

/-! ### The own address and its copy -/

theorem NextHopsSet.congr_own {own own₂ : Netaddr}
    (same : (∀ n ∈ bprd.nlist, n.bidir = 0) ∨
      ∀ c ∈ bprd.clist, (own = c.cdata.addr ↔ own₂ = c.cdata.addr))
    (chosen : NextHopsSet own bprd bprd' routes) : NextHopsSet own₂ bprd bprd' routes := by
  obtain ⟨results, stored, set, each⟩ := chosen
  refine ⟨results, stored, set, ?_⟩
  rw [List.forall₂_iff_get] at each ⊢
  refine ⟨each.1, ?_⟩
  intro i inside inside'
  obtain ⟨addr, hop, nextHop, sets⟩ := each.2 i inside inside'
  exact ⟨addr, hop, nextHop.congr_own (same.imp_right fun agree => agree _ (List.get_mem ..)), sets⟩

/-- Where some neighbour is bidirectional, the destinations of the routes set are those of the commodities
    for others. -/
theorem NextHopsSet.destinations {own : Netaddr} (chosen : NextHopsSet own bprd bprd' routes)
    (distinct : (bprd.clist.map fun c => c.cdata.addr).Nodup) (twoWay : ∃ n ∈ bprd.nlist, n.bidir ≠ 0) :
    routes.map (fun route => route.dst) =
      ((bprd.clist.map fun c => c.cdata.addr).erase own).map (addressBytes bprd.ipver) := by
  obtain ⟨results, -, rfl, each⟩ := chosen
  rw [distinct.erase_eq_filter]
  clear distinct
  generalize bprd.clist = clist at each ⊢
  induction each with
  | nil => rfl
  | @cons c result _ _ head _ ih =>
      obtain ⟨_, hop, nextHop, sets⟩ := head
      have routed := nextHop.isSome_iff twoWay
      rw [List.flatMap_cons, List.map_append, ih, List.map_cons]
      generalize result.2 = changes at sets
      cases sets with
      | unrouted =>
          have isOwn : c.cdata.addr = own := by simpa [eq_comm] using routed
          rw [List.filter_cons_of_neg (by simpa using isOwn)]
          rfl
      | routed n route isRoute =>
          have forOthers : c.cdata.addr ≠ own := by simpa [eq_comm] using routed
          rw [List.filter_cons_of_pos (by simpa using forOthers), List.map_cons, List.map_cons,
            isRoute.dst]
          rfl

/-- Lists with one element left out differ when the images of the two do, unless neither was there. -/
theorem not_mem_of_map_erase {α β : Type} [DecidableEq α] {l : List α} {image : α → β} {a b : α}
    (differ : image a ≠ image b) (same : (l.erase a).map image = (l.erase b).map image) :
    a ∉ l ∧ b ∉ l := by
  have sameLength : (l.erase a).length = (l.erase b).length := by
    simpa using congrArg List.length same
  rw [List.length_erase, List.length_erase] at sameLength
  by_cases inA : a ∈ l
  · have inB : b ∈ l := by
      by_contra missing
      have positive := List.length_pos_of_mem inA
      rw [if_pos inA, if_neg missing] at sameLength
      omega
    have listed : (image a :: (l.erase a).map image).Perm (image b :: (l.erase b).map image) :=
      ((List.perm_cons_erase inA).map image).symm.trans ((List.perm_cons_erase inB).map image)
    rw [same] at listed
    have multiset : image a ::ₘ (((l.erase b).map image : List β) : Multiset β) =
        image b ::ₘ (((l.erase b).map image : List β) : Multiset β) := Multiset.coe_eq_coe.mpr listed
    exact absurd ((Multiset.cons_inj_left _).mp multiset) differ
  · refine ⟨inA, fun inB => ?_⟩
    have positive := List.length_pos_of_mem inB
    rw [if_neg inA, if_pos inB] at sameLength
    omega

/-- An incomplete copy that differs from the address differs in the bytes that routes hold. -/
theorem addressBytes_copied_ne {saddr : Sockaddr} (differ : copiedNetaddr leftover saddr ≠ ownNetaddr saddr) :
    addressBytes saddr.family (copiedNetaddr leftover saddr) ≠
      addressBytes saddr.family (ownNetaddr saddr) := by
  by_cases inet6 : saddr.family = afInet6
  · have whole : ∀ saddr' : Sockaddr, saddr'.family = afInet6 →
        addressBytes afInet6 (ownNetaddr saddr') = (ownNetaddr saddr').addr.toList := by
      intro saddr' family
      rw [ownNetaddr_inet6 family]
      exact List.take_of_length_le (Nat.le_of_eq (List.Vector.toList_length _))
    have copyFamily : (copySockaddr leftover saddr).family = afInet6 := by
      rw [copySockaddr, if_pos inet6]
      exact inet6
    intro same
    rw [inet6, copiedNetaddr, whole _ copyFamily, whole _ inet6] at same
    apply differ
    have sameAddr := List.Vector.toList_injective same
    rw [ownNetaddr_inet6 copyFamily, ownNetaddr_inet6 inet6] at sameAddr
    rw [copiedNetaddr, ownNetaddr_inet6 copyFamily, ownNetaddr_inet6 inet6]
    exact congrArg (fun addr => Netaddr.mk addr afInet6 128) sameAddr
  · exfalso
    rw [copiedNetaddr, copySockaddr, if_neg inet6] at differ
    exact differ rfl

end

/-- Next-hop choice is correct: the update completes, chooses as described for the address of the node,
    and stores what it would for any order of the lists and any outcomes of the random tests. -/
def NextHopCorrect (tie : TieTest) (leftover : Leftover) (bprd : BprdT) : Prop :=
  ∃ bprd' routes, routerUpdate tie leftover bprd = .ok (bprd', routes) ∧
    NextHopsSet (ownNetaddr bprd.saddr) bprd bprd' routes ∧
    ∀ tie₂ bprd₂ bprd₂' routes₂, bprd₂.saddr = bprd.saddr → bprd₂.clist.Perm bprd.clist →
      bprd₂.nlist.Perm bprd.nlist → routerUpdate tie₂ leftover bprd₂ = .ok (bprd₂', routes₂) →
        ∀ c ∈ bprd'.clist, ∀ c₂ ∈ bprd₂'.clist, c.cdata.addr = c₂.cdata.addr →
          c.backdiff = c₂.backdiff

/-- Over a table that lists exactly the own commodities, next hops are chosen correctly if and only if no
    neighbour is bidirectional, or the copy of the own address and the address itself are the destination
    of the same commodities. -/
theorem next_hop_correct_iff (tie : TieTest) (leftover : Leftover) (bprd : BprdT)
    (keyed : (bprd.nlist.map Neighbor.addr).Nodup)
    (distinct : (bprd.clist.map fun c => c.cdata.addr).Nodup) (lists : ListsOwn bprd)
    (queues : ∀ c ∈ bprd.clist, ∃ queue, c.queue = some queue)
    (family : bprd.saddr.family = bprd.ipver) :
    NextHopCorrect tie leftover bprd ↔ (∀ n ∈ bprd.nlist, n.bidir = 0) ∨
      ∀ c ∈ bprd.clist,
        (copiedNetaddr leftover bprd.saddr = c.cdata.addr ↔ ownNetaddr bprd.saddr = c.cdata.addr) := by
  constructor
  · rintro ⟨bprd', routes, ran, correct, _⟩
    by_cases twoWay : ∃ n ∈ bprd.nlist, n.bidir ≠ 0
    · right
      by_cases same : copiedNetaddr leftover bprd.saddr = ownNetaddr bprd.saddr
      · exact fun c _ => by rw [same]
      · have actual := (routerUpdate_nextHops distinct lists ran).destinations distinct twoWay
        rw [correct.destinations distinct twoWay] at actual
        have differ := addressBytes_copied_ne same
        rw [family] at differ
        obtain ⟨copyAbsent, ownAbsent⟩ := not_mem_of_map_erase differ actual.symm
        intro c member
        have listed : c.cdata.addr ∈ bprd.clist.map fun c => c.cdata.addr := List.mem_map_of_mem member
        exact iff_of_false (fun isCopy => copyAbsent (isCopy ▸ listed))
          fun isOwn => ownAbsent (isOwn ▸ listed)
    · left
      simpa using twoWay
  · intro agree
    obtain ⟨bprd', routes, ran⟩ := @routerUpdate_total tie leftover bprd lists queues
    refine ⟨bprd', routes, ran, (routerUpdate_nextHops distinct lists ran).congr_own agree, ?_⟩
    intro tie₂ bprd₂ bprd₂' routes₂ own commodities neighbors ran₂ c member c₂ member₂ same
    exact routerUpdate_backdiff_unique keyed distinct lists own commodities neighbors ran ran₂ member
      member₂ same

/-- A commodity with a queue of three packets. -/
def threeHeld (dest : Netaddr) (nfqId : UInt16) : Commodity :=
  { cdata := ⟨dest, 0⟩, backdiff := 0, nfqId := nfqId, queue := some { head := 0, tail := 3, qh := some 1 } }

/-- What a neighbour has told of a destination. -/
def toldOf (dest : Netaddr) (backlog : UInt32) : Commodity :=
  { cdata := ⟨dest, backlog⟩, backdiff := 0, nfqId := 0, queue := none }

/-- A daemon at 10.0.0.1 with commodities for itself, for its neighbour 10.0.0.2 and for 10.0.0.9. The
    neighbour 10.0.0.3 has the larger differentials, but is not bidirectional. -/
def crossroads : BprdT :=
  { ipver := afInet, ifIndex := 1, saddr := ⟨afInet, [10, 0, 0, 1]⟩, helloSeqno := 0
    neighborTimeout := 2500000
    clist := [threeHeld (host4 [10, 0, 0, 1]) 1, threeHeld (host4 [10, 0, 0, 2]) 2,
      threeHeld (host4 [10, 0, 0, 9]) 3]
    nlist := [
      { addr := host4 [10, 0, 0, 3], bidir := 0, updateTime := ⟨0, 0⟩
        clist := [toldOf (host4 [10, 0, 0, 1]) 0, toldOf (host4 [10, 0, 0, 2]) 0,
          toldOf (host4 [10, 0, 0, 9]) 0] },
      { addr := host4 [10, 0, 0, 2], bidir := 1, updateTime := ⟨0, 0⟩
        clist := [toldOf (host4 [10, 0, 0, 9]) 1, toldOf (host4 [10, 0, 0, 2]) 0,
          toldOf (host4 [10, 0, 0, 1]) 2] }] }

theorem crossroads_listsOwn : ListsOwn crossroads := by
  intro n member addr
  simp only [crossroads, List.mem_cons, List.not_mem_nil, or_false] at member
  rcases member with rfl | rfl
  · simp [crossroads, threeHeld, toldOf]
  · simp [crossroads, threeHeld, toldOf]
    tauto

theorem next_hop_correct_crossroads : NextHopCorrect acceptTies zeroLeftover crossroads :=
  (next_hop_correct_iff acceptTies zeroLeftover crossroads (by decide) (by decide) crossroads_listsOwn
    (by simp [crossroads, threeHeld]) rfl).mpr (.inr fun _ _ => Iff.rfl)

/-- A daemon at 2001:db8::1:2:3:4 with a commodity for itself and a bidirectional neighbour. -/
def strayHome : BprdT :=
  { ipver := afInet6, ifIndex := 1
    saddr := ⟨afInet6, [32, 1, 13, 184, 0, 0, 0, 0, 0, 1, 0, 2, 0, 3, 0, 4]⟩, helloSeqno := 0
    neighborTimeout := 2500000
    clist := [threeHeld (ownNetaddr ⟨afInet6, [32, 1, 13, 184, 0, 0, 0, 0, 0, 1, 0, 2, 0, 3, 0, 4]⟩) 1]
    nlist := [
      { addr := ownNetaddr ⟨afInet6, [32, 1, 13, 184, 0, 0, 0, 0, 0, 0, 0, 0, 0, 0, 0, 9]⟩, bidir := 1
        updateTime := ⟨0, 0⟩
        clist := [toldOf
          (ownNetaddr ⟨afInet6, [32, 1, 13, 184, 0, 0, 0, 0, 0, 1, 0, 2, 0, 3, 0, 4]⟩) 0] }] }

/-- The daemon stores a differential of 3 for the commodity destined to itself, and sets a route. -/
theorem strayHome_routed : (strayHome.nlist.map Neighbor.addr).Nodup ∧
    (strayHome.clist.map fun c => c.cdata.addr).Nodup ∧ ListsOwn strayHome ∧
    (∀ c ∈ strayHome.clist, ∃ queue, c.queue = some queue) ∧ strayHome.saddr.family = strayHome.ipver ∧
    ¬NextHopCorrect acceptTies zeroLeftover strayHome := by
  refine ⟨by decide, by decide, ?_, by simp [strayHome, threeHeld], rfl, ?_⟩
  · intro n member addr
    obtain rfl := List.mem_singleton.mp member
    simp [strayHome, threeHeld, toldOf]
  · rintro ⟨bprd', routes, ran, ⟨results, _, set, each⟩, _⟩
    have actual : routes.length = 1 := by
      have first : (routerUpdate acceptTies zeroLeftover strayHome).toOption.any
          (fun result => result.2.length == 1) = true := by decide
      rw [ran] at first
      exact beq_iff_eq.mp first
    obtain ⟨result, _, ⟨_, hop, nextHop, sets⟩, last, rfl⟩ := List.forall₂_cons_left_iff.mp each
    cases last
    have twoWay : ∃ n ∈ strayHome.nlist, n.bidir ≠ 0 := ⟨_, List.mem_singleton.mpr rfl, by decide⟩
    have unrouted : hop = none := by simpa using (nextHop.isSome_iff twoWay).mp.mt (by decide)
    subst unrouted
    rw [set, List.flatMap_singleton] at actual
    generalize result.2 = changes at sets actual
    cases sets
    cases actual

end Bprd
