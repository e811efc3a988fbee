/-
Module: Bprd.Proofs.Gradient
Layer: Proofs
Purpose: The gradient law of a release period. Per call the number of packets is bounded by half the stored
  differential, rounded up; over a period the law holds exactly when the calls together stay within that
  budget. Then the neighbour that was chosen holds at most one packet more than the sender on their
  account.
Imports: Bprd.Proofs.ReleasePeriod
Trusted boundary: none
Main exports: DistinctHandles, GradientKept, PeriodBudget, budget_accepted_le, exceeds_of_no_budget,
  updated_backdiff_le, gradient_kept_iff_budget
-/
import Bprd.Proofs.ReleasePeriod

namespace Bprd

/-- A part of a period that asks for something has a last release that does. -/
theorem requested_last {d : UInt32} : ∀ {ops : List BackloggerOp}, 0 < requested d ops →
    ∃ before count after, ops = before ++ .release count :: after ∧
      0 < (releaseCount d count).toNat ∧ requested d after = 0
  | [], asks => absurd asks (Nat.lt_irrefl 0)
  | .release count :: ops, asks => by
      by_cases later : 0 < requested d ops
      · obtain ⟨before, count', after, rfl, positive, silent⟩ := requested_last later
        exact ⟨.release count :: before, count', after, rfl, positive, silent⟩
      · have silent : requested d ops = 0 := Nat.eq_zero_of_not_pos later
        rw [requested, silent] at asks
        exact ⟨[], count, ops, rfl, asks, silent⟩
  | .add j :: ops, asks => by
      obtain ⟨before, count, after, rfl, rest⟩ :=
        requested_last (show 0 < requested d ops from asks)
      exact ⟨.add j :: before, count, after, rfl, rest⟩
  | .send j :: ops, asks => by
      obtain ⟨before, count, after, rfl, rest⟩ :=
        requested_last (show 0 < requested d ops from asks)
      exact ⟨.send j :: before, count, after, rfl, rest⟩
  | .drop j :: ops, asks => by
      obtain ⟨before, count, after, rfl, rest⟩ :=
        requested_last (show 0 < requested d ops from asks)
      exact ⟨.drop j :: before, count, after, rfl, rest⟩
  | .delete j :: ops, asks => by
      obtain ⟨before, count, after, rfl, rest⟩ :=
        requested_last (show 0 < requested d ops from asks)
      exact ⟨.delete j :: before, count, after, rfl, rest⟩

theorem arrivalsAt_pos {i : Nat} : ∀ {ops : List BackloggerOp}, .add i ∈ ops → 0 < arrivalsAt i ops
  | op :: ops, member => by
      rcases List.mem_cons.mp member with rfl | behind
      · rw [arrivalsAt, if_pos rfl]
        omega
      · have later := arrivalsAt_pos behind
        cases op with
        | add j =>
            rw [arrivalsAt]
            omega
        | send j => exact later
        | drop j => exact later
        | delete j => exact later
        | release count => exact later

theorem arrivalsAt_append (i : Nat) : ∀ ops more : List BackloggerOp,
    arrivalsAt i (ops ++ more) = arrivalsAt i ops + arrivalsAt i more
  | [], more => (Nat.zero_add _).symm
  | op :: ops, more => by
      cases op with
      | add j =>
          rw [List.cons_append, arrivalsAt, arrivalsAt, arrivalsAt_append i ops more, Nat.add_assoc]
      | release count => exact arrivalsAt_append i ops more
      | send j => exact arrivalsAt_append i ops more
      | drop j => exact arrivalsAt_append i ops more
      | delete j => exact arrivalsAt_append i ops more

section

variable {ops : List BackloggerOp} {clist : List Commodity} {i : Nat} {qh : QueueHandle}
  {queue : Fifo} {d : UInt32}

/-- Within the budget, the target loses no more than the bound of its differential. -/
theorem budget_accepted_le (period : ∀ op ∈ ops, PeriodOp op) (owns : Owns clist i qh queue)
    (target : IsTarget (storedDiffs clist) i d) (budget : WithinBudget d i (shown queue) ops) :
    accepted qh (backloggerRun clist ops).2 ≤ (d.toNat + 1) / 2 := by
  rcases budget with bounded | ⟨rfl, one, before, after, rfl, noArrival, silent⟩
  · exact Nat.le_trans (period_accepted_le period owns target) bounded
  · have early : ∀ op ∈ before, PeriodOp op :=
      fun op member => period op (List.mem_append_left _ member)
    have late : ∀ op ∈ after, PeriodOp op :=
      fun op member => period op (List.mem_append_right _ member)
    obtain ⟨queue', owns', same⟩ := period_owns early owns
    have first := period_accepted_le_shown early owns noArrival
    have rest := period_accepted_le late owns' (same ▸ target)
    rw [backloggerRun_append, accepted_append]
    rw [one] at first
    rw [silent] at rest
    show _ ≤ (1 + 1) / 2
    omega

/-- Outside the budget the target loses more, when its tail does not wrap and the differential does not
    exceed the packets it shows. -/
theorem exceeds_of_no_budget (period : ∀ op ∈ ops, PeriodOp op) (owns : Owns clist i qh queue)
    (target : IsTarget (storedDiffs clist) i d)
    (noWrap : queue.tail.toNat + arrivalsAt i ops < 2 ^ 32) (held : d.toNat ≤ shown queue)
    (noBudget : ¬WithinBudget d i (shown queue) ops) :
    (d.toNat + 1) / 2 < accepted qh (backloggerRun clist ops).2 := by
  have positive : 0 < d.toNat := UInt32.lt_iff_toNat_lt.mp target.positive
  have ordered : Ordered queue := by
    unfold Ordered
    unfold shown at held
    omega
  have asks : (d.toNat + 1) / 2 < requested d ops := by
    by_contra bounded
    exact noBudget (.inl (Nat.not_lt.mp bounded))
  have reach := period_accepted_ge period owns target ordered noWrap
  by_cases enough : (d.toNat + 1) / 2 < shown queue
  · omega
  · -- The bound reaches all that is shown only for a differential of 1 and one packet.
    have one : d.toNat = 1 ∧ shown queue = 1 := by omega
    have isOne : d = 1 := UInt32.toNat_inj.mp one.1
    obtain ⟨before, count, after, rfl, calls, silent⟩ := requested_last (Nat.zero_lt_of_lt asks)
    have early : ∀ op ∈ before, PeriodOp op :=
      fun op member => period op (List.mem_append_left _ member)
    have late : ∀ op ∈ .release count :: after, PeriodOp op :=
      fun op member => period op (List.mem_append_right _ member)
    have arrives : 0 < arrivalsAt i before := by
      apply arrivalsAt_pos
      by_contra noArrival
      refine noBudget (.inr ⟨isOne, one.2, before ++ [.release count], after, by simp, ?_, silent⟩)
      intro op member
      rcases List.mem_append.mp member with inBefore | isRelease
      · exact fun isAdd => noArrival (isAdd ▸ inBefore)
      · rw [List.mem_singleton.mp isRelease]
        simp
    rw [arrivalsAt_append] at noWrap
    obtain ⟨queue', owns', same⟩ := period_owns early owns
    have total := period_shown early owns ordered (by omega) owns'.at_i
    have first := period_accepted_ge early owns target ordered (by omega)
    obtain ⟨_, ⟨d', target', sent, owns''⟩ | ⟨other, _⟩⟩ := owns'.release count
    · obtain rfl := ((same ▸ target).unique target').2
      rw [requested_append, requested, silent] at asks
      have capped : (releaseCount d count).toNat ≤ 1 := by
        rw [toNat_releaseCount, isOne]
        exact Nat.min_le_right _ _
      rw [backloggerRun_append, accepted_append, accepted_step, sent]
      omega
    · exact absurd (same ▸ target) (other d)

end

/-- Every queue has a handle of its own, as the kernel gives them out. -/
def DistinctHandles (clist : List Commodity) : Prop :=
  ∀ {i queue}, queueAt clist i = some queue → ∃ qh, Owns clist i qh queue

/-- In a period no commodity loses more packets than half its stored differential, rounded up. -/
def GradientKept (clist : List Commodity) (ops : List BackloggerOp) : Prop :=
  ∀ {i c qh queue}, clist[i]? = some c → Owns clist i qh queue →
    accepted qh (backloggerRun clist ops).2 ≤ (c.backdiff.toNat + 1) / 2

/-- The period is within the budget of its target, if there is one. -/
def PeriodBudget (clist : List Commodity) (ops : List BackloggerOp) : Prop :=
  ∀ {i d queue}, IsTarget (storedDiffs clist) i d → queueAt clist i = some queue →
    WithinBudget d i (shown queue) ops

/-- The neighbour chosen for a commodity with a differential holds, after everything released in the
    period has reached it, at most one packet more than the sender has left of what it held. -/
def NeighborWithinOne (bprd bprd' : BprdT) (routes : List RouteUpdate) (ops : List BackloggerOp) :
    Prop :=
  ∀ {i c qh queue}, bprd'.clist[i]? = some c → Owns bprd'.clist i qh queue → c.backdiff ≠ 0 →
    ∃ n ∈ bprd'.nlist, ∃ e, entryOf n c = some e ∧ routeVia bprd c n ∈ routes ∧
      e.cdata.backlog.toNat + accepted qh (backloggerRun bprd'.clist ops).2 ≤
        shown queue - accepted qh (backloggerRun bprd'.clist ops).2 + 1

section

variable {tie : TieTest} {leftover : Leftover} {bprd bprd' : BprdT} {routes : List RouteUpdate}

/-- With distinct destinations, the own commodity that is found is the one looked for. -/
theorem ownOf_eq_self {clist : List Commodity}
    (distinct : (clist.map fun c => c.cdata.addr).Nodup) {c : Commodity} (member : c ∈ clist) :
    ownOf clist c.cdata.addr = some c := by
  unfold ownOf
  induction clist with
  | nil => cases member
  | cons f clist ih =>
      rw [List.map_cons, List.nodup_cons] at distinct
      rcases List.mem_cons.mp member with rfl | behind
      · simp
      · have other : f.cdata.addr ≠ c.cdata.addr := fun same =>
          distinct.1 (same ▸ List.mem_map.mpr ⟨c, behind, rfl⟩)
        rw [List.find?_cons_of_neg (by simpa using other)]
        exact ih distinct.2 behind

/-- A stored differential that is not 0 is the queue length less what the chosen neighbour recorded. -/
theorem updated_backdiff (updated : routerUpdate tie leftover bprd = .ok (bprd', routes))
    (distinct : (bprd.clist.map fun c => c.cdata.addr).Nodup) {i : Nat} {c : Commodity}
    {queue : Fifo} (at_i : bprd'.clist[i]? = some c) (hasQueue : c.queue = some queue)
    (some_diff : c.backdiff ≠ 0) :
    ∃ n ∈ bprd'.nlist, ∃ e, entryOf n c = some e ∧ routeVia bprd c n ∈ routes ∧
      c.backdiff.toNat = shown queue - e.cdata.backlog.toNat := by
  obtain ⟨c₀, at_i₀, queue₀, d, hasQueue₀, result, choice⟩ :=
    Fallible.related_getElem? (routerUpdate_commodities updated) at_i
  have ownFound := ownOf_eq_self distinct (List.mem_of_getElem? at_i₀)
  subst result
  obtain rfl : queue₀ = queue := Option.some.inj (hasQueue₀.symm.trans hasQueue)
  rcases choice with ⟨zero, _⟩ | ⟨_, n', member', offer, route, _⟩
  · exact absurd zero some_diff
  · obtain ⟨_, e', found', diff'⟩ := offered_eq_some_iff.mp offer
    obtain ⟨n, _, _, _, entries⟩ := Fallible.related_mem (routerUpdate_nlist updated) member'
    rcases entries c₀ with ⟨_, none_⟩ | ⟨e, own, queue₁, _, ownFound', hasQueue₁, found⟩
    · rw [none_] at found'
      cases found'
    · obtain rfl := Option.some.inj (ownFound.symm.trans ownFound')
      obtain rfl := Option.some.inj (hasQueue₀.symm.trans hasQueue₁)
      obtain rfl := Option.some.inj (found.symm.trans found')
      refine ⟨n', member', _, found', route, ?_⟩
      rw [← diff', toNat_clampedDiff, toNat_fifoLength]

/-- A stored differential never exceeds the packets its queue shows. -/
theorem updated_backdiff_le (updated : routerUpdate tie leftover bprd = .ok (bprd', routes))
    (distinct : (bprd.clist.map fun c => c.cdata.addr).Nodup) {i : Nat} {c : Commodity}
    {queue : Fifo} (at_i : bprd'.clist[i]? = some c) (hasQueue : c.queue = some queue) :
    c.backdiff.toNat ≤ shown queue := by
  by_cases zero : c.backdiff = 0
  · rw [zero]
    exact Nat.zero_le _
  · obtain ⟨_, _, e, _, _, diff⟩ := updated_backdiff updated distinct at_i hasQueue zero
    omega

theorem storedDiffs_getElem? {clist : List Commodity} {i : Nat} {c : Commodity}
    (at_i : clist[i]? = some c) : (storedDiffs clist)[i]? = some c.backdiff := by
  rw [storedDiffs, List.getElem?_map, at_i]
  rfl

/-- The gradient law of the period after an update. It holds when the releases of the period stay within
    the budget of their target, and then the chosen neighbour exceeds the sender by one packet at most;
    and while no tail wraps around it holds only then. This is so over both families, whatever the update
    takes for the own address. -/
theorem gradient_kept_iff_budget (updated : routerUpdate tie leftover bprd = .ok (bprd', routes))
    (distinct : (bprd.clist.map fun c => c.cdata.addr).Nodup)
    (handles : DistinctHandles bprd'.clist) {ops : List BackloggerOp}
    (period : ∀ op ∈ ops, PeriodOp op) :
    (PeriodBudget bprd'.clist ops →
      GradientKept bprd'.clist ops ∧ NeighborWithinOne bprd bprd' routes ops) ∧
    ((∀ i queue, queueAt bprd'.clist i = some queue →
        queue.tail.toNat + arrivalsAt i ops < 2 ^ 32) →
      GradientKept bprd'.clist ops → PeriodBudget bprd'.clist ops) := by
  have kept : PeriodBudget bprd'.clist ops → GradientKept bprd'.clist ops := by
    intro budget i c qh queue at_i owns
    by_cases isTarget : ∃ d, IsTarget (storedDiffs bprd'.clist) i d
    · obtain ⟨d, target⟩ := isTarget
      have same : d = c.backdiff :=
        Option.some.inj (target.at_i.symm.trans (storedDiffs_getElem? at_i))
      exact same ▸ budget_accepted_le period owns target (budget target owns.at_i)
    · rw [period_accepted_other period owns fun d target => isTarget ⟨d, target⟩]
      exact Nat.zero_le _
  refine ⟨fun budget => ⟨kept budget, ?_⟩, ?_⟩
  · intro i c qh queue at_i owns some_diff
    obtain ⟨c₁, at_i₁, hasQueue⟩ := queueAt_eq_some_iff.mp owns.at_i
    obtain rfl := Option.some.inj (at_i.symm.trans at_i₁)
    obtain ⟨n, member, e, found, route, diff⟩ :=
      updated_backdiff updated distinct at_i hasQueue some_diff
    refine ⟨n, member, e, found, route, ?_⟩
    have bound := kept budget at_i owns
    have positive : c.backdiff.toNat ≠ 0 := fun zero => some_diff (UInt32.toNat_inj.mp zero)
    omega
  · intro noWrap law i d queue target hasQueue
    obtain ⟨qh, owns⟩ := handles hasQueue
    obtain ⟨c, at_i, isQueue⟩ := queueAt_eq_some_iff.mp hasQueue
    have same : d = c.backdiff :=
      Option.some.inj (target.at_i.symm.trans (storedDiffs_getElem? at_i))
    by_contra noBudget
    have held := updated_backdiff_le updated distinct at_i isQueue
    have exceeds := exceeds_of_no_budget period owns target (noWrap i queue hasQueue)
      (same ▸ held) noBudget
    have bound := law at_i owns
    rw [← same] at bound
    omega

end

/-- A daemon that holds two packets for 10.0.0.9, with a bidirectional neighbour that holds one. -/
def twoHeldOneAhead : BprdT :=
  { ipver := afInet, ifIndex := 1, saddr := ⟨afInet, [10, 0, 0, 1]⟩, helloSeqno := 0
    neighborTimeout := 2500000
    clist := [{ cdata := ⟨host4 [10, 0, 0, 9], 0⟩, backdiff := 0, nfqId := 1
                queue := some { head := 0, tail := 2, qh := some 7 } }]
    nlist := [{ addr := host4 [10, 0, 0, 2], bidir := 1, updateTime := ⟨0, 0⟩
                clist := [{ cdata := ⟨host4 [10, 0, 0, 9], 1⟩, backdiff := 0, nfqId := 0
                            queue := none }] }] }

/-- The same commodity after the update: differential 1, queue unchanged. -/
def twoHeldUpdated : List Commodity :=
  [{ cdata := ⟨host4 [10, 0, 0, 9], 2⟩, backdiff := 1, nfqId := 1
     queue := some { head := 0, tail := 2, qh := some 7 } }]

theorem twoHeld_update : ∃ bprd' routes,
    routerUpdate acceptTies zeroLeftover twoHeldOneAhead = .ok (bprd', routes) ∧
      bprd'.clist = twoHeldUpdated :=
  ⟨_, _, rfl, rfl⟩

theorem twoHeld_owns :
    Owns twoHeldUpdated 0 7 { head := 0, tail := 2, qh := some 7 } :=
  ⟨rfl, rfl, by
    intro j queue found _
    cases j with
    | zero => rfl
    | succ j => cases found⟩

/-- Two release ticks in one period send two packets on a differential of 1. -/
theorem gradient_reversed_by_two_ticks : ∃ bprd' routes,
    routerUpdate acceptTies zeroLeftover twoHeldOneAhead = .ok (bprd', routes) ∧
      ¬GradientKept bprd'.clist [.release 1, .release 1] := by
  obtain ⟨bprd', routes, updated, clist⟩ := twoHeld_update
  refine ⟨bprd', routes, updated, ?_⟩
  intro kept
  rw [clist] at kept
  exact absurd (kept rfl twoHeld_owns) (by decide)

/-- The same daemon with four packets: the update stores the differential 3. -/
def fourHeldOneAhead : BprdT :=
  { twoHeldOneAhead with
    clist := [{ cdata := ⟨host4 [10, 0, 0, 9], 0⟩, backdiff := 0, nfqId := 1
                queue := some { head := 0, tail := 4, qh := some 7 } }] }

/-- Its commodity after the update. -/
def fourHeldUpdated : List Commodity :=
  [{ cdata := ⟨host4 [10, 0, 0, 9], 4⟩, backdiff := 3, nfqId := 1
     queue := some { head := 0, tail := 4, qh := some 7 } }]

theorem fourHeld_update : ∃ bprd' routes,
    routerUpdate acceptTies zeroLeftover fourHeldOneAhead = .ok (bprd', routes) ∧
      bprd'.clist = fourHeldUpdated :=
  ⟨_, _, rfl, rfl⟩

theorem fourHeld_handles : DistinctHandles fourHeldUpdated := by
  intro i queue found
  cases i with
  | zero =>
      cases found
      refine ⟨7, rfl, rfl, ?_⟩
      intro j queue found _
      cases j with
      | zero => rfl
      | succ j => cases found
  | succ i => cases found

/-- A packet arrives, and two release ticks send two packets: that is within the budget of the period. -/
theorem gradient_kept_by_two_ticks : ∃ bprd' routes,
    routerUpdate acceptTies zeroLeftover fourHeldOneAhead = .ok (bprd', routes) ∧
      accepted 7 (backloggerRun bprd'.clist [.add 0, .release 1, .release 1]).2 = 2 ∧
      GradientKept bprd'.clist [.add 0, .release 1, .release 1] ∧
      NeighborWithinOne fourHeldOneAhead bprd' routes [.add 0, .release 1, .release 1] := by
  obtain ⟨bprd', routes, updated, clist⟩ := fourHeld_update
  have period : ∀ op ∈ [BackloggerOp.add 0, .release 1, .release 1], PeriodOp op := by
    intro op member
    simp only [List.mem_cons, List.not_mem_nil, or_false] at member
    rcases member with rfl | rfl | rfl <;> trivial
  have budget : PeriodBudget bprd'.clist [.add 0, .release 1, .release 1] := by
    intro i d queue target _
    rw [clist] at target
    have isThree : d = 3 := UInt32.le_antisymm
      (by
        have at_i := List.mem_of_getElem? target.at_i
        simp only [storedDiffs, fourHeldUpdated, List.map_cons, List.map_nil,
          List.mem_singleton] at at_i
        exact UInt32.le_of_eq at_i)
      (target.upper 3 (List.mem_cons_self ..))
    subst isThree
    exact .inl (by decide)
  refine ⟨bprd', routes, updated, ?_, ?_⟩
  · rw [clist]
    decide
  · exact (gradient_kept_iff_budget updated (List.nodup_singleton _) (clist ▸ fourHeld_handles)
      period).1 budget

end Bprd
