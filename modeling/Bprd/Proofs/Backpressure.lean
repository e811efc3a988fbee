/-
Module: Bprd.Proofs.Backpressure
Layer: Proofs
Purpose: The backpressure rule across the two threads. An update stores the largest differential over the
  bidirectional neighbours; arrivals, receptions and expiries in between leave it alone and only add to
  the queues; the next release sends half of the largest differential, rounded up, of one commodity.
Imports: Bprd.Proofs.Gradient, Bprd.Proofs.FifoOrder, Bprd.Lib.Runs, Mathlib.Data.Finset.Lattice.Fold,
  Mathlib.Order.Lattice.Nat
Trusted boundary: none
Main exports: TableAgrees, maxDifferential, routerUpdate_total, updated_backdiff_max,
  between_run, release_after_update
-/
import Bprd.Proofs.Gradient
import Bprd.Proofs.FifoOrder
import Bprd.Lib.Runs
import Mathlib.Data.Finset.Lattice.Fold
import Mathlib.Order.Lattice.Nat

namespace Bprd

/-- The table fits the own commodities: destinations are distinct, every neighbour lists exactly them,
    and a neighbour that is itself a destination records backlog 0 for it. -/
structure TableAgrees (bprd : BprdT) : Prop where
  neighbors : (bprd.nlist.map Neighbor.addr).Nodup
  distinct : (bprd.clist.map fun c => c.cdata.addr).Nodup
  listed : ∀ n ∈ bprd.nlist, (n.clist.map fun c => c.cdata.addr).Nodup ∧
    ∀ addr, (∃ e ∈ n.clist, e.cdata.addr = addr) ↔ ∃ c ∈ bprd.clist, c.cdata.addr = addr
  atDestination : ∀ n ∈ bprd.nlist, ∀ e ∈ n.clist, e.cdata.addr = n.addr → e.cdata.backlog = 0

/-- Every neighbour lists exactly the destinations of the own commodities. -/
def ListsOwn (bprd : BprdT) : Prop :=
  ∀ n ∈ bprd.nlist, ∀ addr,
    (∃ e ∈ n.clist, e.cdata.addr = addr) ↔ ∃ c ∈ bprd.clist, c.cdata.addr = addr

theorem TableAgrees.listsOwn {bprd : BprdT} (agrees : TableAgrees bprd) : ListsOwn bprd :=
  fun n member => (agrees.listed n member).2

/-- `fifo_length` of a commodity's queue. -/
def queueLength (c : Commodity) : Nat :=
  match c.queue with
  | none => 0
  | some queue => (fifoLength queue).toNat

/-- The differentials of an own commodity over the bidirectional neighbours, clamped at 0. -/
def differentialsOf (nlist : List Neighbor) (c : Commodity) : List Nat :=
  nlist.filterMap fun n =>
    if n.bidir = 0 then none
    else (entryOf n c).map fun e => queueLength c - e.cdata.backlog.toNat

/-- The differentials over the commodities not destined to this node. -/
def allDifferentials (bprd : BprdT) : List Nat :=
  (bprd.clist.filter fun c => ownNetaddr bprd.saddr ≠ c.cdata.addr).flatMap
    (differentialsOf bprd.nlist)

/-- The largest differential over the commodities not destined to this node; 0 if there is none. -/
def maxDifferential (bprd : BprdT) : Nat := (allDifferentials bprd).toFinset.sup id

theorem entryOf_isSome {n : Neighbor} {c : Commodity}
    (listed : ∃ e ∈ n.clist, e.cdata.addr = c.cdata.addr) : ∃ e, entryOf n c = some e := by
  obtain ⟨e, member, same⟩ := listed
  exact Option.isSome_iff_exists.mp (List.find?_isSome.mpr ⟨e, member, by simpa using same⟩)

/-- A commodity that is updated never fails when every neighbour lists it. -/
theorem updateCommodities_total {naddr : Netaddr} {bprd : BprdT} {tie : TieTest} {nlist : List Neighbor} :
    ∀ {clist : List Commodity} {tests : Nat},
      (∀ c ∈ clist, ∀ n ∈ nlist, ∃ e, entryOf n c = some e) →
        ∃ clist' routes, updateCommodities naddr bprd tie nlist tests clist = .ok (clist', routes)
  | [], tests, _ => ⟨[], [], rfl⟩
  | c :: clist, tests, entries => by
      obtain ⟨tests', c', routes₁, head⟩ : ∃ tests' c' routes₁,
          updateCommodity naddr bprd tie nlist tests c = .ok (tests', c', routes₁) := by
        unfold updateCommodity
        split
        · exact ⟨_, _, _, rfl⟩
        · obtain ⟨s, selected⟩ : ∃ s, selectNexthop tie c nlist
              { num := 0, diffopt := 0, nopt := none, tests := tests } = .ok s :=
            selectNexthop_total (entries c (List.mem_cons_self ..))
          rw [selected]
          cases chosen : s.nopt with
          | none =>
              exact ⟨s.tests, { c with backdiff := 0 }, [], by simp [bind, Except.bind, chosen]⟩
          | some n =>
              exact ⟨s.tests, { c with backdiff := s.diffopt }, [routeVia bprd c n],
                by simp [bind, Except.bind, chosen, routeVia]⟩
      obtain ⟨rest, routes₂, tail⟩ : ∃ rest routes₂,
          updateCommodities naddr bprd tie nlist tests' clist = .ok (rest, routes₂) :=
        updateCommodities_total fun f member => entries f (List.mem_cons_of_mem _ member)
      exact ⟨c' :: rest, routes₁ ++ routes₂,
        updateCommodities_cons.mpr ⟨tests', c', routes₁, rest, routes₂, head, tail, rfl, rfl⟩⟩

section

variable {tie : TieTest} {leftover : Leftover} {bprd bprd' : BprdT} {routes : List RouteUpdate}

/-- An update of a table that lists the own commodities takes neither exit. -/
theorem routerUpdate_total (lists : ListsOwn bprd)
    (queues : ∀ c ∈ bprd.clist, ∃ queue, c.queue = some queue) :
    ∃ bprd' routes, routerUpdate tie leftover bprd = .ok (bprd', routes) := by
  obtain ⟨backlogs, first⟩ : ∃ backlogs, bprd.clist.mapM updateBacklog = .ok backlogs := by
    apply Fallible.exists_mapM
    intro c member
    obtain ⟨queue, hasQueue⟩ := queues c member
    exact ⟨_, updateBacklog_ok.mpr ⟨queue, hasQueue, rfl⟩⟩
  have same : ∀ addr, (∃ c ∈ backlogs, c.cdata.addr = addr) ↔ ∃ c ∈ bprd.clist, c.cdata.addr = addr := by
    intro addr
    have addrs := Fallible.mapM_map_eq (p := fun c => c.cdata.addr) (q := fun c => c.cdata.addr)
      (fun {_ _} ran => by
        obtain ⟨queue, _, rfl⟩ := updateBacklog_ok.mp ran
        rfl) first
    have members := congrArg (addr ∈ ·) addrs
    simpa using members
  obtain ⟨nlist, second⟩ : ∃ nlist, bprd.nlist.mapM (updateNeighbor backlogs) = .ok nlist := by
    apply Fallible.exists_mapM
    intro n member
    obtain ⟨entries, traversed⟩ : ∃ entries, n.clist.mapM (updateBackdiff backlogs) = .ok entries := by
      apply Fallible.exists_mapM
      intro e isEntry
      have known := (same _).mpr ((lists n member _).mp ⟨e, isEntry, rfl⟩)
      obtain ⟨own, found⟩ : ∃ own, ownOf backlogs e.cdata.addr = some own := by
        obtain ⟨c, isOwn, here⟩ := known
        exact Option.isSome_iff_exists.mp (List.find?_isSome.mpr ⟨c, isOwn, by simpa using here⟩)
      exact ⟨_, updateBackdiff_ok.mpr ⟨own, found, rfl⟩⟩
    exact ⟨_, updateNeighbor_ok.mpr ⟨entries, traversed, rfl⟩⟩
  obtain ⟨clist', routes, third⟩ : ∃ clist' routes,
      updateCommodities (copiedNetaddr leftover bprd.saddr) bprd tie nlist 0 backlogs =
        .ok (clist', routes) := by
    apply updateCommodities_total
    intro c isOwn n' member'
    obtain ⟨n, member, updated⟩ := Fallible.related_mem (Fallible.mapM_eq_ok_iff.mp second) member'
    obtain ⟨e, found⟩ : ∃ e, entryOf n c = some e :=
      entryOf_isSome ((lists n member _).mpr ((same _).mp ⟨c, isOwn, rfl⟩))
    rcases updateNeighbor_entryOf updated c with ⟨none_, _⟩ | ⟨_, _, _, _, found'⟩
    · rw [none_] at found
      cases found
    · exact ⟨_, found'⟩
  exact ⟨_, routes, routerUpdate_ok.mpr ⟨backlogs, nlist, clist', first, second, third, rfl⟩⟩

theorem mem_differentialsOf {nlist : List Neighbor} {c : Commodity} {x : Nat} :
    x ∈ differentialsOf nlist c ↔
      ∃ n ∈ nlist, n.bidir ≠ 0 ∧ ∃ e, entryOf n c = some e ∧
        x = queueLength c - e.cdata.backlog.toNat := by
  unfold differentialsOf
  rw [List.mem_filterMap]
  constructor
  · rintro ⟨n, member, value⟩
    split at value
    · cases value
    · rename_i twoWay
      obtain ⟨e, found, rfl⟩ := Option.map_eq_some_iff.mp value
      exact ⟨n, member, twoWay, e, found, rfl⟩
  · rintro ⟨n, member, twoWay, e, found, rfl⟩
    refine ⟨n, member, ?_⟩
    rw [if_neg twoWay, found]
    rfl

/-- The differentials offered after the second loop are the differentials of the table before it. -/
theorem mem_differentialsOf_iff_offered (updated : routerUpdate tie leftover bprd = .ok (bprd', routes))
    (distinct : (bprd.clist.map fun c => c.cdata.addr).Nodup) {c : Commodity}
    (member : c ∈ bprd.clist) {queue : Fifo} (hasQueue : c.queue = some queue) {x : Nat} :
    x ∈ differentialsOf bprd.nlist c ↔
      ∃ n' ∈ bprd'.nlist, ∃ d, offered c n' = some d ∧ d.toNat = x := by
  have ownFound := ownOf_eq_self distinct member
  have length : queueLength c = (fifoLength queue).toNat := by
    rw [queueLength, hasQueue]
  have carried : ∀ {n n' : Neighbor}, UpdatedNeighbor bprd.clist n n' → ∀ {e : Commodity},
      entryOf n c = some e →
        entryOf n' c = some { e with backdiff := clampedDiff (fifoLength queue) e.cdata.backlog } := by
    rintro n n' ⟨_, _, entries⟩ e found
    rcases entries c with ⟨none_, _⟩ | ⟨e', own, queue', found', ownFound', hasQueue', result⟩
    · rw [none_] at found
      cases found
    · obtain rfl := Option.some.inj (found'.symm.trans found)
      obtain rfl := Option.some.inj (ownFound.symm.trans ownFound')
      obtain rfl := Option.some.inj (hasQueue.symm.trans hasQueue')
      exact result
  rw [mem_differentialsOf]
  constructor
  · rintro ⟨n, isNeighbor, twoWay, e, found, rfl⟩
    obtain ⟨n', isNeighbor', change⟩ :=
      Fallible.related_mem_left (routerUpdate_nlist updated) isNeighbor
    refine ⟨n', isNeighbor', clampedDiff (fifoLength queue) e.cdata.backlog, ?_, ?_⟩
    · exact offered_eq_some_iff.mpr ⟨change.2.1 ▸ twoWay, _, carried change found, rfl⟩
    · rw [toNat_clampedDiff, length]
  · rintro ⟨n', isNeighbor', d, offer, rfl⟩
    obtain ⟨twoWay, e', found', rfl⟩ := offered_eq_some_iff.mp offer
    obtain ⟨n, isNeighbor, change⟩ := Fallible.related_mem (routerUpdate_nlist updated) isNeighbor'
    refine ⟨n, isNeighbor, change.2.1 ▸ twoWay, ?_⟩
    rcases change.2.2 c with ⟨_, none_⟩ | ⟨e, _, _, found, _⟩
    · rw [none_] at found'
      cases found'
    · refine ⟨e, found, ?_⟩
      obtain rfl := Option.some.inj ((carried change found).symm.trans found')
      rw [toNat_clampedDiff, length]

/-- A destination that records backlog 0 for itself offers the whole queue. -/
theorem destination_offers_all (updated : routerUpdate tie leftover bprd = .ok (bprd', routes))
    (distinct : (bprd.clist.map fun c => c.cdata.addr).Nodup)
    (atDestination : ∀ n ∈ bprd.nlist, ∀ e ∈ n.clist, e.cdata.addr = n.addr → e.cdata.backlog = 0)
    {c : Commodity} (member : c ∈ bprd.clist) {queue : Fifo} (hasQueue : c.queue = some queue)
    {n' : Neighbor} (isNeighbor' : n' ∈ bprd'.nlist) {d : UInt32} (offer : offered c n' = some d)
    (destination : n'.addr = c.cdata.addr) : d.toNat = queueLength c := by
  obtain ⟨_, e', found', diff'⟩ := offered_eq_some_iff.mp offer
  obtain ⟨n, isNeighbor, sameAddr, _, entries⟩ :=
    Fallible.related_mem (routerUpdate_nlist updated) isNeighbor'
  rcases entries c with ⟨_, none_⟩ | ⟨e, own, queue', found, ownFound, hasQueue', result⟩
  · rw [none_] at found'
    cases found'
  · obtain rfl := Option.some.inj ((ownOf_eq_self distinct member).symm.trans ownFound)
    obtain rfl := Option.some.inj (hasQueue.symm.trans hasQueue')
    obtain rfl := Option.some.inj (result.symm.trans found')
    have empty : e.cdata.backlog = 0 := atDestination n isNeighbor e (List.mem_of_find?_eq_some found)
      ((entryOf_addr found).trans (destination.symm.trans sameAddr))
    rw [← diff', toNat_clampedDiff, empty, queueLength, hasQueue]
    exact Nat.sub_zero _

/-- What an update stores for a commodity when destinations record backlog 0: the largest differential
    of its bidirectional neighbours, or 0 when the commodity is taken to be destined to this node. -/
theorem updated_backdiff_max (updated : routerUpdate tie leftover bprd = .ok (bprd', routes))
    (distinct : (bprd.clist.map fun c => c.cdata.addr).Nodup)
    (atDestination : ∀ n ∈ bprd.nlist, ∀ e ∈ n.clist, e.cdata.addr = n.addr → e.cdata.backlog = 0) :
    List.Forall₂ (fun c c' => c'.cdata.addr = c.cdata.addr ∧ c'.queue = c.queue ∧
      (copiedNetaddr leftover bprd.saddr = c.cdata.addr → c'.backdiff = 0) ∧
      (copiedNetaddr leftover bprd.saddr ≠ c.cdata.addr →
        c'.backdiff.toNat = (differentialsOf bprd.nlist c).toFinset.sup id))
      bprd.clist bprd'.clist := by
  have pointwise := routerUpdate_commodities updated
  rw [List.forall₂_iff_get] at pointwise ⊢
  refine ⟨pointwise.1, ?_⟩
  intro i inside inside'
  obtain ⟨queue, d, hasQueue, result, choice⟩ := pointwise.2 i inside inside'
  have member : bprd.clist.get ⟨i, inside⟩ ∈ bprd.clist := List.get_mem ..
  generalize bprd.clist.get ⟨i, inside⟩ = c at *
  rw [result]
  refine ⟨rfl, rfl, ?_, ?_⟩
  · intro own
    rcases choice with ⟨rfl, _⟩ | ⟨forOthers, _⟩
    · rfl
    · exact absurd own forOthers
  · intro forOthers
    have differential := @mem_differentialsOf_iff_offered tie leftover bprd bprd' routes updated distinct c
      member queue hasQueue
    rcases choice with ⟨rfl, own | oneWay⟩ | ⟨_, n', isNeighbor', offer, _, best⟩
    · exact absurd own forOthers
    · -- No neighbour is bidirectional, so there is no differential.
      have empty : differentialsOf bprd.nlist c = [] := by
        rw [List.eq_nil_iff_forall_not_mem]
        intro x isDifferential
        obtain ⟨n', isNeighbor', d, offer, _⟩ := differential.mp isDifferential
        exact (offered_eq_some_iff.mp offer).1 (oneWay n' isNeighbor')
      rw [empty]
      rfl
    · apply Nat.le_antisymm
      · exact Finset.le_sup (f := id)
          (List.mem_toFinset.mpr (differential.mpr ⟨n', isNeighbor', d, offer, rfl⟩))
      · apply Finset.sup_le
        intro x isDifferential
        have listed := List.mem_toFinset.mp isDifferential
        rcases best with destination | ⟨_, upper⟩
        · obtain ⟨_, _, _, e, _, rfl⟩ := mem_differentialsOf.mp listed
          show _ ≤ d.toNat
          rw [destination_offers_all updated distinct atDestination member hasQueue isNeighbor' offer
            destination]
          exact Nat.sub_le _ _
        · obtain ⟨m, isNeighbor, d', offer', rfl⟩ := differential.mp listed
          exact UInt32.le_iff_toNat_le.mp (upper m isNeighbor d' offer')

end

/-- The stored differentials after an update are bounded by the largest differential, and one of them
    attains it when it is not 0. -/
theorem storedDiffs_max {tie : TieTest} {leftover : Leftover} {bprd bprd' : BprdT}
    {routes : List RouteUpdate} (inet : bprd.saddr.family = afInet)
    (updated : routerUpdate tie leftover bprd = .ok (bprd', routes))
    (distinct : (bprd.clist.map fun c => c.cdata.addr).Nodup)
    (atDestination : ∀ n ∈ bprd.nlist, ∀ e ∈ n.clist, e.cdata.addr = n.addr → e.cdata.backlog = 0) :
    (∀ d ∈ storedDiffs bprd'.clist, d.toNat ≤ maxDifferential bprd) ∧
      (0 < maxDifferential bprd → ∃ d ∈ storedDiffs bprd'.clist, d.toNat = maxDifferential bprd) := by
  have pointwise := updated_backdiff_max updated distinct atDestination
  rw [copiedNetaddr_inet inet] at pointwise
  refine ⟨?_, ?_⟩
  · intro d stored
    obtain ⟨c', member', rfl⟩ := List.mem_map.mp stored
    obtain ⟨c, member, _, _, own, forOthers⟩ := Fallible.related_mem pointwise member'
    by_cases isOwn : ownNetaddr bprd.saddr = c.cdata.addr
    · rw [own isOwn]
      exact Nat.zero_le _
    · rw [forOthers isOwn]
      apply Finset.sup_mono
      intro x isDifferential
      rw [List.mem_toFinset] at isDifferential ⊢
      refine List.mem_flatMap.mpr ⟨c, ?_, isDifferential⟩
      exact List.mem_filter.mpr ⟨member, decide_eq_true isOwn⟩
  · intro positive
    have nonempty : (allDifferentials bprd).toFinset.Nonempty := by
      rw [Finset.nonempty_iff_ne_empty]
      intro empty
      rw [maxDifferential, empty] at positive
      exact absurd positive (Nat.lt_irrefl 0)
    obtain ⟨x, attained, value⟩ := Finset.exists_mem_eq_sup _ nonempty (id : Nat → Nat)
    obtain ⟨c, candidate, isDifferential⟩ := List.mem_flatMap.mp (List.mem_toFinset.mp attained)
    obtain ⟨member, isOther⟩ := List.mem_filter.mp candidate
    obtain ⟨c', member', _, _, _, forOthers⟩ := Fallible.related_mem_left pointwise member
    have stored : c'.backdiff ∈ storedDiffs bprd'.clist := List.mem_map_of_mem member'
    refine ⟨c'.backdiff, stored, ?_⟩
    apply Nat.le_antisymm
    · rw [forOthers (of_decide_eq_true isOther)]
      apply Finset.sup_mono
      intro y isDifferential
      rw [List.mem_toFinset] at isDifferential ⊢
      exact List.mem_flatMap.mpr ⟨c, candidate, isDifferential⟩
    · rw [forOthers (of_decide_eq_true isOther), maxDifferential, value]
      exact Finset.le_sup (f := id) (List.mem_toFinset.mpr isDifferential)

/-! ### Between an update and a release -/

/-- What may happen in between: packet arrivals, hello receptions and table refreshes. -/
def Between : NodeOp → Prop
  | .backlogger (.add _) | .recv _ _ | .refresh _ => True
  | _ => False

/-- Whether a step is an arrival at position `i`. -/
def addsTo (i : Nat) : NodeOp → Bool
  | .backlogger (.add j) => decide (i = j)
  | _ => false

/-- The packets that arrive at position `i` in between. -/
def arrivalsBetween (i : Nat) (ops : List NodeOp) : Nat := ops.countP (addsTo i)

/-- A step in between keeps the differentials and lets a queue grow by its arrivals. -/
theorem between_step {node node' : Node} {op : NodeOp} {out : Output} (between : Between op)
    (ran : nodeStep node op = .ok (node', out)) :
    storedDiffs node'.bprd.clist = storedDiffs node.bprd.clist ∧
      ∀ i, queueAt node'.bprd.clist i =
        (queueAt node.bprd.clist i).map fun queue =>
          if addsTo i op then fifoAddPacket queue else queue := by
  cases op with
  | backlogger op =>
      cases op with
      | add j =>
          cases ran
          refine ⟨storedDiffs_onQueue _ _ _, ?_⟩
          intro i
          show queueAt (onCommodity _ j node.bprd.clist).1 i = _
          rw [queueAt_onQueue]
          by_cases here : i = j
          · simp [here, addsTo]
          · simp [here, addsTo]
      | send j => exact absurd between id
      | drop j => exact absurd between id
      | delete j => exact absurd between id
      | release count => exact absurd between id
  | update tie leftover => exact absurd between id
  | recv ambient buf =>
      obtain ⟨bprd, received, rfl, _⟩ := nodeStep_recv.mp ran
      obtain ⟨nlist, rfl⟩ := helloRecv_ok received
      exact ⟨rfl, fun i => by simp [addsTo]⟩
  | refresh clock =>
      cases ran
      exact ⟨rfl, fun i => by simp [addsTo]⟩
  | hello padding clock sendto => exact absurd between id

/-- `n` arrivals in a row. -/
def KernelQueue.arriveTimes (k : KernelQueue) (n : Nat) : KernelQueue := KernelQueue.arrive^[n] k

theorem KernelQueue.arriveTimes_fields (k : KernelQueue) (n : Nat) :
    (k.arriveTimes n).arrived = k.arrived + n ∧ (k.arriveTimes n).settled = k.settled ∧
      ∃ late, (k.arriveTimes n).held = k.held ++ late := by
  induction n with
  | zero => exact ⟨rfl, rfl, [], (List.append_nil _).symm⟩
  | succ n ih =>
      obtain ⟨arrived, settled, late, held⟩ := ih
      rw [arriveTimes] at arrived settled held
      rw [arriveTimes, Function.iterate_succ_apply']
      refine ⟨?_, settled, late ++ [(KernelQueue.arrive^[n] k).arrived + 1], ?_⟩
      · rw [arrive, arrived, Nat.add_assoc]
      · rw [arrive, held, List.append_assoc]

/-- A run in between keeps the differentials, and every queue gets exactly its arrivals. -/
theorem between_run {start node : Node} {ops : List NodeOp} {trace : List (NodeOp × Output)}
    (between : ∀ op ∈ ops, Between op) (ran : Runs.run nodeStep start ops = .ok (node, trace)) :
    storedDiffs node.bprd.clist = storedDiffs start.bprd.clist ∧
      ∀ {i queue k}, queueAt start.bprd.clist i = some queue → Refines queue k →
        ∃ queue', queueAt node.bprd.clist i = some queue' ∧ queue'.qh = queue.qh ∧
          Refines queue' (k.arriveTimes (arrivalsBetween i ops)) := by
  rw [← Runs.run_inputs ran] at between ⊢
  refine Runs.run_induction (motive := fun trace node =>
    (∀ op ∈ trace.map Prod.fst, Between op) →
      storedDiffs node.bprd.clist = storedDiffs start.bprd.clist ∧
      ∀ {i queue k}, queueAt start.bprd.clist i = some queue → Refines queue k →
        ∃ queue', queueAt node.bprd.clist i = some queue' ∧ queue'.qh = queue.qh ∧
          Refines queue' (k.arriveTimes (arrivalsBetween i (trace.map Prod.fst)))) ?_ ?_ ran between
  · intro _
    exact ⟨rfl, fun found refines => ⟨_, found, rfl, refines⟩⟩
  · intro trace node op node' out ih stepped between
    obtain ⟨diffs, queues⟩ := ih fun op member => between op (by simp [member])
    obtain ⟨diffs', queues'⟩ := between_step (between op (by simp)) stepped
    refine ⟨diffs'.trans diffs, ?_⟩
    intro i queue k found refines
    obtain ⟨queue₁, found₁, handle, refines₁⟩ := queues found refines
    have counted : arrivalsBetween i ((trace ++ [(op, out)]).map Prod.fst) =
        arrivalsBetween i (trace.map Prod.fst) + if addsTo i op then 1 else 0 := by
      simp [arrivalsBetween, List.countP_append, List.countP_singleton]
    rw [queues', found₁, counted]
    refine ⟨_, rfl, ?_, ?_⟩
    · split
      · exact handle
      · exact handle
    · split
      · rw [KernelQueue.arriveTimes, Function.iterate_succ_apply']
        exact refines_fifoAddPacket refines₁
      · exact refines₁

/-! ### The release -/

/-- While fewer than 2^32 packets have arrived, the counters show exactly the held packets. -/
theorem Refines.shown_eq {queue : Fifo} {k : KernelQueue} (refines : Refines queue k)
    (noWrap : k.arrived < 2 ^ 32) : shown queue = k.held.length := by
  have lengths := refines.settled_add_held
  have settled := refines.settled_le
  rw [shown, refines.head_eq, refines.tail_eq, packetId_toNat, packetId_toNat,
    Nat.mod_eq_of_lt noWrap, Nat.mod_eq_of_lt (Nat.lt_of_le_of_lt settled noWrap)]
  omega

/-- A loop of sends settles the oldest held packets. -/
theorem sendLoop_settles {queue : Fifo} {k : KernelQueue} (refines : Refines queue k) (count : Nat) :
    ∃ k', k.replay ((sendLoop count queue).2.map Verdict.event) = some k' ∧
      k'.settled.map Prod.fst =
        k.settled.map Prod.fst ++ k.held.take (sendLoop count queue).2.length ∧
      k'.held = k.held.drop (sendLoop count queue).2.length := by
  obtain ⟨k', ran, refines'⟩ := settling_sendLoop count refines
  have quiet : ∀ verdicts : List Verdict,
      KernelQueue.arrivals (verdicts.map Verdict.event) = 0 ∧
        (KernelQueue.verdictIds (verdicts.map Verdict.event)).length = verdicts.length := by
    intro verdicts
    induction verdicts with
    | nil => exact ⟨rfl, rfl⟩
    | cons v verdicts ih =>
        simp [KernelQueue.arrivals, KernelQueue.verdictIds, KernelQueue.eventId, Verdict.event]
  have arrived := KernelQueue.replay_arrived ran
  have settled := congrArg List.length (KernelQueue.replay_settled ran)
  rw [(quiet _).1] at arrived
  rw [List.length_append, List.length_map, List.length_map, (quiet _).2] at settled
  have same : k'.settled.map Prod.fst ++ k'.held = k.settled.map Prod.fst ++ k.held := by
    rw [refines'.inOrder, refines.inOrder, arrived]
    rfl
  have front : (k.settled.map Prod.fst).length + (sendLoop count queue).2.length =
      (k'.settled.map Prod.fst).length := by
    rw [List.length_map, List.length_map, settled]
  refine ⟨k', ran, ?_, ?_⟩
  · rw [← List.take_length_add_append, front, ← same, List.take_left]
  · rw [← List.drop_length_add_append, front, ← same, List.drop_left]

/-- The kernel's queues of a daemon: `k i` is what the kernel holds for the queue at position `i`. -/
def FollowsKernel (clist : List Commodity) (k : Nat → KernelQueue) : Prop :=
  ∀ i c, clist[i]? = some c → ∃ queue, c.queue = some queue ∧ Refines queue (k i)

/-- The next release after an update sends nothing when the largest differential `D` of the update is 0.
    Otherwise it accepts `min count ⌈D/2⌉` packets, the oldest held ones of one queue. -/
def ReleasesGradient (bprd : BprdT) (k : Nat → KernelQueue) (clist : List Commodity)
    (count : UInt32) : Prop :=
  (maxDifferential bprd = 0 → (backloggerPacketRelease count clist).2 = []) ∧
    (0 < maxDifferential bprd →
      (backloggerPacketRelease count clist).2.length =
          min count.toNat ((maxDifferential bprd + 1) / 2) ∧
        ∃ i queue k', queueAt clist i = some queue ∧
          (∀ v ∈ (backloggerPacketRelease count clist).2, v.qh = queue.qh ∧ v.verdict = .accept) ∧
          (k i).replay ((backloggerPacketRelease count clist).2.map Verdict.event) = some k' ∧
          k'.settled.map Prod.fst = (k i).settled.map Prod.fst ++
            (k i).held.take (backloggerPacketRelease count clist).2.length ∧
          k'.held = (k i).held.drop (backloggerPacketRelease count clist).2.length)

/-- What an update stores for a commodity is no more than the kernel holds for its queue. -/
theorem storedDiff_held {tie : TieTest} {leftover : Leftover} {bprd bprd' : BprdT} {routes : List RouteUpdate}
    {k : Nat → KernelQueue} (updated : routerUpdate tie leftover bprd = .ok (bprd', routes))
    (distinct : (bprd.clist.map fun c => c.cdata.addr).Nodup) (follows : FollowsKernel bprd.clist k)
    (bounded : ∀ i < bprd.clist.length, (k i).arrived < 2 ^ 32 - 1) {i : Nat} {d : UInt32}
    (stored : (storedDiffs bprd'.clist)[i]? = some d) :
    i < bprd.clist.length ∧ ∃ queue, queueAt bprd'.clist i = some queue ∧ Refines queue (k i) ∧
      d.toNat ≤ (k i).held.length := by
  obtain ⟨c', at_i', same⟩ := List.getElem?_map .. ▸ stored |> Option.map_eq_some_iff.mp
  obtain ⟨c, at_i, queue, _, hasQueue, result⟩ :=
    Fallible.related_getElem? (routerUpdate_clist updated) at_i'
  obtain ⟨queue₀, hasQueue₀, refines⟩ := follows i c at_i
  obtain rfl := Option.some.inj (hasQueue.symm.trans hasQueue₀)
  have inside : i < bprd.clist.length := (List.getElem?_eq_some_iff.mp at_i).1
  have hasQueue' : c'.queue = some queue := by
    rw [result]
    exact hasQueue
  have bound := updated_backdiff_le updated distinct at_i' hasQueue'
  have noWrap : (k i).arrived < 2 ^ 32 := by
    have := bounded i inside
    omega
  rw [same, refines.shown_eq noWrap] at bound
  exact ⟨inside, queue, queueAt_eq_some_iff.mpr ⟨c', at_i', hasQueue'⟩, refines, bound⟩

/-- An update of a daemon over IPv4 followed by a release, whatever arrives and expires in between. -/
theorem release_after_update {node : Node} {k : Nat → KernelQueue} (tie : TieTest) (leftover : Leftover)
    (inet : node.bprd.saddr.family = afInet) (agrees : TableAgrees node.bprd)
    (follows : FollowsKernel node.bprd.clist k)
    (bounded : ∀ i < node.bprd.clist.length, (k i).arrived < 2 ^ 32 - 1) :
    ∃ updated out, nodeStep node (.update tie leftover) = .ok (updated, out) ∧
      ∀ {ops node' trace}, (∀ op ∈ ops, Between op) →
        Runs.run nodeStep updated ops = .ok (node', trace) →
        (∀ i < node.bprd.clist.length, (k i).arrived + arrivalsBetween i ops < 2 ^ 32) →
        ∀ count, ReleasesGradient node.bprd (fun i => (k i).arriveTimes (arrivalsBetween i ops))
          node'.bprd.clist count := by
  obtain ⟨bprd', routes, updated⟩ := @routerUpdate_total tie leftover _ agrees.listsOwn fun c member => by
    obtain ⟨i, at_i⟩ := List.mem_iff_getElem?.mp member
    obtain ⟨queue, hasQueue, _⟩ := follows i c at_i
    exact ⟨queue, hasQueue⟩
  refine ⟨_, _, nodeStep_update.mpr ⟨bprd', routes, updated, rfl, rfl⟩, ?_⟩
  intro ops node' trace between ran noWrap count
  obtain ⟨diffs, queues⟩ := between_run between ran
  obtain ⟨upper, attained⟩ := storedDiffs_max inet updated agrees.distinct agrees.atDestination
  rw [← show storedDiffs node'.bprd.clist = storedDiffs bprd'.clist from diffs] at upper attained
  unfold ReleasesGradient
  rcases backloggerPacketRelease_target count node'.bprd.clist with
    ⟨zero, nothing⟩ | ⟨i, d, target, sends⟩
  · refine ⟨fun _ => by rw [nothing], ?_⟩
    intro positive
    obtain ⟨d, stored, value⟩ := attained positive
    rw [zero d stored] at value
    exact absurd positive (value ▸ Nat.lt_irrefl 0)
  · have positive : 0 < d.toNat := UInt32.lt_iff_toNat_lt.mp target.positive
    have below := upper d (List.mem_of_getElem? target.at_i)
    -- The target's differential is the largest one.
    have largest : d.toNat = maxDifferential node.bprd := by
      apply Nat.le_antisymm below
      obtain ⟨d', stored, value⟩ := attained (Nat.lt_of_lt_of_le positive below)
      rw [← value]
      exact UInt32.le_iff_toNat_le.mp (target.upper d' stored)
    refine ⟨fun zero => absurd positive (by omega), fun _ => ?_⟩
    -- The queue at the target, at the update and at the release.
    obtain ⟨inside, queue, found, refines, held⟩ := storedDiff_held updated agrees.distinct follows
      bounded (diffs ▸ target.at_i : (storedDiffs bprd'.clist)[i]? = some d)
    obtain ⟨queue', found', _, refines'⟩ := queues found refines
    obtain ⟨arrived, _, late, grown⟩ := (k i).arriveTimes_fields (arrivalsBetween i ops)
    have visible := refines'.shown_eq (by rw [arrived]; exact noWrap i inside)
    have small : d.toNat < 2 ^ 32 - 1 :=
      Nat.lt_of_le_of_lt (held.trans refines.held_le) (bounded i inside)
    have verdicts : (backloggerPacketRelease count node'.bprd.clist).2 =
        (sendLoop (releaseCount d count).toNat queue').2 := by
      rw [sends, verdicts_onQueue, found']
    have length : (sendLoop (releaseCount d count).toNat queue').2.length =
        min count.toNat ((maxDifferential node.bprd + 1) / 2) := by
      rw [(sendLoop_shown _ _).1, toNat_releaseCount, releaseBound_eq small, visible, grown,
        List.length_append, largest]
      omega
    rw [verdicts]
    refine ⟨length, i, queue', ?_⟩
    obtain ⟨k', ran', settled, left⟩ := sendLoop_settles refines' (releaseCount d count).toNat
    exact ⟨k', found', sendLoop_accepts _ _, ran', settled, left⟩

/-- A daemon with the table of `twoHeldOneAhead`. -/
def twoHeldNode : Node := { bprd := twoHeldOneAhead, writer := helloWriterInit, order := .little }

/-- The kernel's side of it: two packets have arrived, and both are held. -/
def twoHeldKernel : KernelQueue := { arrived := 2, held := [1, 2], settled := [] }

theorem release_after_update_run : ∃ node' : Node,
    ReleasesGradient twoHeldOneAhead
      (fun i => twoHeldKernel.arriveTimes (arrivalsBetween i [.backlogger (.add 0)]))
      node'.bprd.clist 5 := by
  have agrees : TableAgrees twoHeldNode.bprd := by
    refine ⟨by decide, by decide, ?_, ?_⟩
    · intro n member
      obtain rfl := List.mem_singleton.mp member
      refine ⟨by decide, fun addr => ?_⟩
      simp [twoHeldNode, twoHeldOneAhead]
    · intro n member e isEntry atDestination
      obtain rfl := List.mem_singleton.mp member
      obtain rfl := List.mem_singleton.mp isEntry
      exact absurd atDestination (by decide)
  have follows : FollowsKernel twoHeldNode.bprd.clist fun _ => twoHeldKernel := by
    intro i c at_i
    cases i with
    | zero =>
        cases at_i
        exact ⟨_, rfl, by decide, rfl, rfl⟩
    | succ i => cases at_i
  obtain ⟨updated, out, ran, releases⟩ :=
    release_after_update acceptTies zeroLeftover rfl agrees follows fun _ _ => by decide
  have between : ∀ op ∈ [NodeOp.backlogger (.add 0)], Between op := by
    intro op member
    rw [List.mem_singleton.mp member]
    trivial
  refine ⟨_, releases between (Runs.run_cons.mpr ⟨_, _, _, rfl, rfl, rfl⟩) ?_ 5⟩
  intro i inside
  have first : i = 0 := Nat.lt_one_iff.mp inside
  subst first
  decide

/-- A daemon whose queue is two arrivals from the wrap-around of its tail. -/
def nearWrap : BprdT :=
  { twoHeldOneAhead with
    clist := [{ cdata := ⟨host4 [10, 0, 0, 9], 0⟩, backdiff := 0, nfqId := 1
                queue := some { head := 4294967291, tail := 4294967294, qh := some 7 } }] }

/-- The kernel's side of it: the last three packets are held. -/
def nearWrapKernel : KernelQueue :=
  { arrived := 2 ^ 32 - 2, held := List.range' (2 ^ 32 - 4) 3
    settled := (List.range' 1 (2 ^ 32 - 5)).map fun n => (n, .accept) }

theorem refines_nearWrap :
    Refines { head := 4294967291, tail := 4294967294, qh := some 7 } nearWrapKernel := by
  refine ⟨?_, ?_, rfl⟩
  · have same : (nearWrapKernel.settled).map Prod.fst = List.range' 1 (2 ^ 32 - 5) := by
      rw [nearWrapKernel, List.map_map]
      exact List.map_id _
    rw [same]
    exact List.range'_append_1
  · rw [nearWrapKernel, List.length_map, List.length_range']
    rfl

/-- When the bound on arrivals counts only those before the update, two later arrivals wrap the tail to
    0, and the release sends none of the five packets held on a differential of 2. -/
theorem release_stalls_at_wrap :
    TableAgrees nearWrap ∧ FollowsKernel nearWrap.clist (fun _ => nearWrapKernel) ∧
      nearWrapKernel.arrived < 2 ^ 32 - 1 ∧
      ∃ updated out node' trace,
        nodeStep { bprd := nearWrap, writer := helloWriterInit, order := .little }
          (.update acceptTies zeroLeftover) = .ok (updated, out) ∧
        Runs.run nodeStep updated [.backlogger (.add 0), .backlogger (.add 0)] = .ok (node', trace) ∧
        ¬ReleasesGradient nearWrap (fun i => nearWrapKernel.arriveTimes
          (arrivalsBetween i [.backlogger (.add 0), .backlogger (.add 0)])) node'.bprd.clist 1 := by
  refine ⟨⟨by decide, by decide, ?_, ?_⟩, ?_, by decide, ?_⟩
  · intro n member
    obtain rfl := List.mem_singleton.mp member
    refine ⟨by decide, fun addr => ?_⟩
    simp [nearWrap]
  · intro n member e isEntry atDestination
    obtain rfl := List.mem_singleton.mp member
    obtain rfl := List.mem_singleton.mp isEntry
    exact absurd atDestination (by decide)
  · intro i c at_i
    cases i with
    | zero =>
        cases at_i
        exact ⟨_, rfl, refines_nearWrap⟩
    | succ i => cases at_i
  · refine ⟨_, _, _, _, rfl, rfl, ?_⟩
    intro releases
    have sent := (releases.2 (by decide)).1
    revert sent
    decide

end Bprd
