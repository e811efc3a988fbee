/-
Module: Bprd.Proofs.ReleaseTicks
Layer: Proofs
Purpose: Whether release ticks are wasted in a period. Every call sends from the commodity with the largest
  stored differential, also once its queue is empty, so no tick is wasted exactly in the periods in which
  that commodity does not run out of packets before the others do.
Imports: Bprd.Proofs.Gradient, Bprd.Proofs.QueueReaders
Trusted boundary: none
Main exports: waiting, NoTickWasted, stockAfter, TargetStocked, waiting_eq_stock, ticks_used_iff,
  emptied_commodity_blocks
-/
import Bprd.Proofs.Gradient
import Bprd.Proofs.QueueReaders

namespace Bprd

/-! ### A period of single releases -/

/-- The calls of a period: packet arrivals, and releases of one packet. -/
def TickOp : BackloggerOp → Prop
  | .add _ => True
  | .release count => count = 1
  | _ => False

theorem TickOp.period {op : BackloggerOp} (tick : TickOp op) : PeriodOp op := by
  cases op with
  | add j => trivial
  | release count => trivial
  | send j => exact tick
  | drop j => exact tick
  | delete j => exact tick

/-- So many packets have arrived at every queue, and so many verdicts have been given from it. -/
def CountsAt (clist : List Commodity) (arrived given : Nat → Nat) : Prop :=
  ∀ {i queue}, queueAt clist i = some queue → Counts queue (arrived i) (given i)

/-- The packets that wait at position `i` after some calls of the period: those that have arrived and had
    no verdict. -/
def waiting (clist : List Commodity) (arrived given : Nat → Nat) (before : List BackloggerOp) (i : Nat)
    (qh : QueueHandle) : Nat :=
  arrived i + arrivalsAt i before - (given i + accepted qh (backloggerRun clist before).2)

/-- A commodity with a positive differential has packets waiting. -/
def SomeReleasable (clist : List Commodity) (arrived given : Nat → Nat) (before : List BackloggerOp) :
    Prop :=
  ∃ i d qh queue, (storedDiffs clist)[i]? = some d ∧ d ≠ 0 ∧ Owns clist i qh queue ∧
    0 < waiting clist arrived given before i qh

/-- Every release of the period that is made while something can be released gives a verdict. -/
def NoTickWasted (clist : List Commodity) (arrived given : Nat → Nat) (ops : List BackloggerOp) : Prop :=
  ∀ before after, ops = before ++ .release 1 :: after → SomeReleasable clist arrived given before →
    (backloggerStep (backloggerRun clist before).1 (.release 1)).2 ≠ []

/-- The packets left at position `i` when every release takes one of them, as long as there is one. -/
def stockAfter (i : Nat) : Nat → List BackloggerOp → Nat
  | held, [] => held
  | held, .add j :: ops => stockAfter i (if i = j then held + 1 else held) ops
  | held, .release _ :: ops => stockAfter i (held - 1) ops
  | held, _ :: ops => stockAfter i held ops

/-- Whenever the target of the releases or another commodity with a positive differential has packets, the
    target has, its counters are in order, and the bound of its differential does not wrap. -/
def TargetStocked (clist : List Commodity) (arrived given : Nat → Nat) (ops : List BackloggerOp) : Prop :=
  ∀ i d, IsTarget (storedDiffs clist) i d → ∀ before after, ops = before ++ .release 1 :: after →
    (0 < stockAfter i (arrived i - given i) before ∨
      ∃ j d', j ≠ i ∧ (storedDiffs clist)[j]? = some d' ∧ d' ≠ 0 ∧
        given j < arrived j + arrivalsAt j before) →
    (arrived i + arrivalsAt i before - stockAfter i (arrived i - given i) before) % 2 ^ 32 <
        (arrived i + arrivalsAt i before) % 2 ^ 32 ∧ d + 1 ≠ 0

theorem stockAfter_append (i : Nat) : ∀ (ops more : List BackloggerOp) (held : Nat),
    stockAfter i held (ops ++ more) = stockAfter i (stockAfter i held ops) more
  | [], _, _ => rfl
  | op :: ops, more, held => by
      cases op with
      | add j => exact stockAfter_append i ops more _
      | release count => exact stockAfter_append i ops more _
      | send j => exact stockAfter_append i ops more _
      | drop j => exact stockAfter_append i ops more _
      | delete j => exact stockAfter_append i ops more _

section

variable {clist : List Commodity} {i : Nat} {qh : QueueHandle} {queue : Fifo} {d : UInt32}
  {a g : Nat}

theorem Counts.afterSends : ∀ (count : Nat) {queue : Fifo} {g : Nat}, Counts queue a g →
    Counts (sendLoop count queue).1 a (g + (sendLoop count queue).2.length)
  | 0, _, _, counts => counts
  | count + 1, queue, g, counts => by
      have later := Counts.afterSends count (counts.afterVerdict .accept)
      rw [sendLoop]
      show Counts _ a (g + ((fifoVerdict .accept queue).2 ++ _).length)
      rw [List.length_append, ← Nat.add_assoc]
      exact later

/-- The counters of a queue after some calls of the period. -/
theorem period_counts {ops : List BackloggerOp} (period : ∀ op ∈ ops, PeriodOp op)
    (owns : Owns clist i qh queue) (counts : Counts queue a g) :
    ∃ queue', Owns (backloggerRun clist ops).1 i qh queue' ∧
      Counts queue' (a + arrivalsAt i ops) (g + accepted qh (backloggerRun clist ops).2) := by
  refine period_induction (motive := fun ops queue clist => ∀ {a g}, Counts queue a g →
    ∃ queue', Owns (backloggerRun clist ops).1 i qh queue' ∧
      Counts queue' (a + arrivalsAt i ops) (g + accepted qh (backloggerRun clist ops).2))
    ?_ ?_ ?_ ?_ period owns rfl counts
  · exact fun owns _ _ _ counts => ⟨_, owns, counts⟩
  · intro clist queue j ops _ _ quiet rest a g counts
    rw [accepted_quiet quiet, arrivalsAt, ← Nat.add_assoc]
    apply rest
    split
    · exact counts.add
    · exact counts
  · intro clist queue d count ops _ _ _ sent rest a g counts
    rw [accepted_step, sent, ← (sendLoop_shown _ _).1, ← Nat.add_assoc]
    exact rest (counts.afterSends _)
  · intro clist queue count ops _ _ _ none_ rest a g counts
    rw [accepted_step, none_, Nat.zero_add]
    exact rest counts

/-- A release of one packet asks for one unless the bound of the differential wraps. -/
theorem releaseCount_one (positive : 0 < d) :
    (releaseCount d 1).toNat = if d + 1 = 0 then 0 else 1 := by
  have large := UInt32.lt_iff_toNat_lt.mp positive
  have top := d.toNat_lt
  rw [toNat_releaseCount, UInt32.toNat_div, UInt32.toNat_add]
  split
  · rename_i wraps
    have value := congrArg UInt32.toNat wraps
    rw [UInt32.toNat_add] at value
    rw [value]
    rfl
  · rename_i fits
    have value : (d.toNat + 1) % 2 ^ 32 ≠ 0 := fun zero => fits (UInt32.toNat_inj.mp (by
      rw [UInt32.toNat_add]
      exact zero))
    rw [UInt32.toNat_zero] at large
    simp only [UInt32.toNat_one, UInt32.reduceToNat] at value ⊢
    omega

/-- A release of one packet gives a verdict when the bound of the target's differential does not wrap and
    the guard of its queue passes; then it takes one packet of the target. -/
theorem tick_target (target : IsTarget (storedDiffs clist) i d) (owns : Owns clist i qh queue) :
    ((backloggerStep clist (.release 1)).2 ≠ [] ↔ d + 1 ≠ 0 ∧ queue.head < queue.tail) ∧
      accepted qh (backloggerStep clist (.release 1)).2 =
        (backloggerStep clist (.release 1)).2.length ∧
      (backloggerStep clist (.release 1)).2.length ≤ 1 := by
  rcases backloggerPacketRelease_target 1 clist with ⟨zero, _⟩ | ⟨j, d', target', sends⟩
  · have positive := target.positive
    rw [zero d (List.mem_of_getElem? target.at_i)] at positive
    exact absurd positive (UInt32.lt_irrefl 0)
  · obtain ⟨rfl, rfl⟩ := target.unique target'
    have verdicts : (backloggerStep clist (.release 1)).2 =
        (sendLoop (releaseCount d 1).toNat queue).2 := by
      show (backloggerPacketRelease 1 clist).2 = _
      rw [sends, verdicts_onQueue, owns.at_i]
    have length := (sendLoop_shown (releaseCount d 1).toNat queue).1
    rw [← verdicts, releaseCount_one target.positive] at length
    refine ⟨?_, ?_, ?_⟩
    · rw [← shown_pos_iff, ← List.length_pos_iff, length]
      split
      · rename_i wraps
        simp [wraps]
      · rename_i fits
        simp [fits]
    · apply accepted_eq_length
      intro v member
      rw [verdicts] at member
      have sent := sendLoop_accepts _ _ v member
      exact ⟨sent.1.trans owns.handle, sent.2⟩
    · rw [length]
      split
      · omega
      · omega

end

/-! ### The stock of the target -/

section

variable {clist : List Commodity} {arrived given : Nat → Nat} {i : Nat} {qh : QueueHandle}
  {queue : Fifo} {d : UInt32}

/-- While every release that finds packets at the target takes one, the packets waiting there are its
    stock. -/
theorem waiting_eq_stock (owns : Owns clist i qh queue) (counts : Counts queue (arrived i) (given i))
    (target : IsTarget (storedDiffs clist) i d) {before : List BackloggerOp}
    (ticks : ∀ op ∈ before, TickOp op)
    (issues : ∀ p q, before = p ++ .release 1 :: q →
      waiting clist arrived given p i qh = stockAfter i (arrived i - given i) p →
        0 < waiting clist arrived given p i qh →
          (backloggerStep (backloggerRun clist p).1 (.release 1)).2 ≠ []) :
    waiting clist arrived given before i qh = stockAfter i (arrived i - given i) before := by
  induction before using List.reverseRecOn with
  | nil => rfl
  | append_singleton before op ih =>
      have ticks' : ∀ op ∈ before, TickOp op :=
        fun o member => ticks o (List.mem_append_left _ member)
      have stocked := ih ticks' fun p q split => issues p (q ++ [op]) (by rw [split]; simp)
      obtain ⟨queue', owns', counts'⟩ :=
        period_counts (fun o member => (ticks' o member).period) owns counts
      have diffs := (period_owns (fun o member => (ticks' o member).period) owns).choose_spec.2
      have tick := ticks op (List.mem_append_right _ (List.mem_singleton.mpr rfl))
      have ordered := counts'.ordered
      have run : (backloggerRun clist (before ++ [op])).2 =
          (backloggerRun clist before).2 ++
            (backloggerStep (backloggerRun clist before).1 op).2 := by
        rw [backloggerRun_append, backloggerRun]
        exact congrArg _ (List.append_nil _)
      rw [waiting] at stocked
      rw [waiting, run, accepted_append, arrivalsAt_append, stockAfter_append, ← stocked]
      cases op with
      | add j =>
          have quiet := (owns'.arrival j).1
          rw [quiet]
          show arrived i + (_ + ((if i = j then 1 else 0) + 0)) - (given i + (_ + 0)) =
            if i = j then _ + 1 else _
          split
          · omega
          · omega
      | release count =>
          obtain rfl : count = 1 := tick
          obtain ⟨_, counted, atMost⟩ := tick_target (diffs ▸ target) owns'
          show arrived i + (_ + 0) - (given i + (_ + _)) = _ - 1
          rw [counted]
          by_cases nothing : (backloggerStep (backloggerRun clist before).1 (.release 1)).2 = []
          · rw [nothing, List.length_nil]
            have empty : ¬0 < waiting clist arrived given before i qh := fun some_ =>
              issues before [] rfl (by rw [waiting]; exact stocked) some_ nothing
            rw [waiting] at empty
            omega
          · have some_ := List.length_pos_iff.mpr nothing
            omega
      | send j => exact absurd tick id
      | drop j => exact absurd tick id
      | delete j => exact absurd tick id

/-- Where the packets that wait at the target are its stock, the next release gives a verdict exactly when
    the counters of the target are in order and the bound of its differential does not wrap. -/
theorem release_issues_iff (owns : Owns clist i qh queue)
    (counts : Counts queue (arrived i) (given i)) (target : IsTarget (storedDiffs clist) i d)
    {before : List BackloggerOp} (period : ∀ op ∈ before, PeriodOp op)
    (stocked : waiting clist arrived given before i qh = stockAfter i (arrived i - given i) before) :
    (backloggerStep (backloggerRun clist before).1 (.release 1)).2 ≠ [] ↔
      (arrived i + arrivalsAt i before - stockAfter i (arrived i - given i) before) % 2 ^ 32 <
          (arrived i + arrivalsAt i before) % 2 ^ 32 ∧ d + 1 ≠ 0 := by
  obtain ⟨queue', owns', counts'⟩ := period_counts period owns counts
  have diffs := (period_owns period owns).choose_spec.2
  rw [waiting] at stocked
  rw [(tick_target (diffs ▸ target) owns').1, counts'.guard_iff, ← stocked,
    Nat.sub_sub_self counts'.ordered]
  exact and_comm

end

section

variable {tie : TieTest} {leftover : Leftover} {bprd bprd' : BprdT} {routes : List RouteUpdate}
  {arrived given : Nat → Nat}

/-- After an update every own commodity has a queue. -/
theorem routerUpdate_queues (updated : routerUpdate tie leftover bprd = .ok (bprd', routes)) {i : Nat}
    {d : UInt32} (at_i : (storedDiffs bprd'.clist)[i]? = some d) :
    ∃ queue, queueAt bprd'.clist i = some queue := by
  rw [storedDiffs, List.getElem?_map, Option.map_eq_some_iff] at at_i
  obtain ⟨c', found, _⟩ := at_i
  obtain ⟨c, _, queue, diff, hasQueue, result⟩ :=
    Fallible.related_getElem? (routerUpdate_clist updated) found
  exact ⟨queue, queueAt_eq_some_iff.mpr ⟨c', found, by rw [result]; exact hasQueue⟩⟩

/-- After an update every stored differential belongs to an owned queue with the counts of its position. -/
theorem storedDiffs_owner (updated : routerUpdate tie leftover bprd = .ok (bprd', routes))
    (handles : DistinctHandles bprd'.clist) (counts : CountsAt bprd'.clist arrived given) {i : Nat}
    {d : UInt32} (at_i : (storedDiffs bprd'.clist)[i]? = some d) :
    ∃ qh queue, Owns bprd'.clist i qh queue ∧ Counts queue (arrived i) (given i) := by
  obtain ⟨queue, hasQueue⟩ := routerUpdate_queues updated at_i
  obtain ⟨qh, owns⟩ := handles hasQueue
  exact ⟨qh, queue, owns, counts hasQueue⟩

/-- When no release is wasted, the target keeps packets in stock. -/
theorem targetStocked_of_used (updated : routerUpdate tie leftover bprd = .ok (bprd', routes))
    (handles : DistinctHandles bprd'.clist) (counts : CountsAt bprd'.clist arrived given)
    {ops : List BackloggerOp} (ticks : ∀ op ∈ ops, TickOp op)
    (used : NoTickWasted bprd'.clist arrived given ops) :
    TargetStocked bprd'.clist arrived given ops := by
  intro i d target before after split candidate
  obtain ⟨qh, queue, owns, counted⟩ := storedDiffs_owner updated handles counts target.at_i
  have ticks' : ∀ op ∈ before, TickOp op :=
    fun op member => ticks op (split ▸ List.mem_append_left _ member)
  have positive : d ≠ 0 := fun zero => UInt32.lt_irrefl 0 (zero ▸ target.positive)
  have stocked := waiting_eq_stock owns counted target ticks' fun p q parts _ some_ =>
    used p (q ++ .release 1 :: after) (by rw [split, parts]; simp)
      ⟨i, d, qh, queue, target.at_i, positive, owns, some_⟩
  have releasable : SomeReleasable bprd'.clist arrived given before := by
    rcases candidate with own | ⟨j, d', other, at_j, isPositive, some_⟩
    · exact ⟨i, d, qh, queue, target.at_i, positive, owns, by rw [stocked]; exact own⟩
    · obtain ⟨qh', queue', owns', _⟩ := storedDiffs_owner updated handles counts at_j
      refine ⟨j, d', qh', queue', at_j, isPositive, owns', ?_⟩
      have untouched := period_accepted_other (fun op member => (ticks' op member).period) owns'
        fun d'' isTarget => other (isTarget.unique target).1
      rw [waiting, untouched]
      omega
  exact (release_issues_iff owns counted target (fun op member => (ticks' op member).period)
    stocked).mp (used before after split releasable)

/-- When the target keeps packets in stock, no release is wasted. -/
theorem noTickWasted_of_stocked (updated : routerUpdate tie leftover bprd = .ok (bprd', routes))
    (handles : DistinctHandles bprd'.clist) (counts : CountsAt bprd'.clist arrived given)
    {ops : List BackloggerOp} (ticks : ∀ op ∈ ops, TickOp op)
    (stocks : TargetStocked bprd'.clist arrived given ops) :
    NoTickWasted bprd'.clist arrived given ops := by
  intro before after split releasable
  obtain ⟨j, d', qh', queue', at_j, isPositive, owns', some_⟩ := releasable
  obtain ⟨i, d, target⟩ : ∃ i d, IsTarget (storedDiffs bprd'.clist) i d := by
    rcases backloggerPacketRelease_target 1 bprd'.clist with ⟨zero, _⟩ | ⟨i, d, target, _⟩
    · exact absurd (zero d' (List.mem_of_getElem? at_j)) isPositive
    · exact ⟨i, d, target⟩
  obtain ⟨qh, queue, owns, counted⟩ := storedDiffs_owner updated handles counts target.at_i
  have period : ∀ {p q}, ops = p ++ q → ∀ op ∈ p, PeriodOp op := fun parts op member =>
    (ticks op (parts ▸ List.mem_append_left _ member)).period
  -- Where the stock is what waits, the condition makes the call give a verdict.
  have issues : ∀ p q, ops = p ++ .release 1 :: q →
      waiting bprd'.clist arrived given p i qh = stockAfter i (arrived i - given i) p →
        (0 < stockAfter i (arrived i - given i) p ∨
          ∃ j d', j ≠ i ∧ (storedDiffs bprd'.clist)[j]? = some d' ∧ d' ≠ 0 ∧
            given j < arrived j + arrivalsAt j p) →
          (backloggerStep (backloggerRun bprd'.clist p).1 (.release 1)).2 ≠ [] := by
    intro p q parts stocked candidate
    exact (release_issues_iff owns counted target (period parts) stocked).mpr
      (stocks i d target p q parts candidate)
  have stocked := waiting_eq_stock owns counted target
    (fun op member => ticks op (split ▸ List.mem_append_left _ member))
    fun p q parts isStock some_ =>
      issues p (q ++ .release 1 :: after) (by rw [split, parts]; simp) isStock (.inl (isStock ▸ some_))
  apply issues before after split stocked
  by_cases isTarget : j = i
  · subst isTarget
    have handle : qh' = qh := by
      have same := Option.some.inj (owns'.at_i.symm.trans owns.at_i)
      exact Option.some.inj (owns'.handle.symm.trans (same ▸ owns.handle))
    rw [handle] at some_
    exact .inl (stocked ▸ some_)
  · refine .inr ⟨j, d', isTarget, at_j, isPositive, ?_⟩
    rw [waiting] at some_
    omega

/-- After an update, in a period of arrivals and single releases, no release is wasted while something can
    be released if and only if the first commodity with the largest stored differential keeps packets in
    stock as long as it or another commodity with a positive differential has some; over both families,
    whatever the update takes for the own address. -/
theorem ticks_used_iff (updated : routerUpdate tie leftover bprd = .ok (bprd', routes))
    (handles : DistinctHandles bprd'.clist) (counts : CountsAt bprd'.clist arrived given)
    {ops : List BackloggerOp} (ticks : ∀ op ∈ ops, TickOp op) :
    NoTickWasted bprd'.clist arrived given ops ↔ TargetStocked bprd'.clist arrived given ops :=
  ⟨targetStocked_of_used updated handles counts ticks,
    noTickWasted_of_stocked updated handles counts ticks⟩

end

/-- A daemon that holds two packets for 10.0.0.9 and one for 10.0.0.8, with a neighbour that holds none. -/
def twoQueues : BprdT :=
  { ipver := afInet, ifIndex := 1, saddr := ⟨afInet, [10, 0, 0, 1]⟩, helloSeqno := 0
    neighborTimeout := 500000
    clist := [{ cdata := ⟨host4 [10, 0, 0, 9], 0⟩, backdiff := 0, nfqId := 1
                queue := some { head := 0, tail := 2, qh := some 7 } },
              { cdata := ⟨host4 [10, 0, 0, 8], 0⟩, backdiff := 0, nfqId := 2
                queue := some { head := 0, tail := 1, qh := some 8 } }]
    nlist := [{ addr := host4 [10, 0, 0, 2], bidir := 1, updateTime := ⟨0, 0⟩
                clist := [{ cdata := ⟨host4 [10, 0, 0, 9], 0⟩, backdiff := 0, nfqId := 0, queue := none },
                          { cdata := ⟨host4 [10, 0, 0, 8], 0⟩, backdiff := 0, nfqId := 0
                            queue := none }] }] }

/-- Its commodities after an update: differentials 2 and 1. -/
def twoQueuesUpdated : List Commodity :=
  [{ cdata := ⟨host4 [10, 0, 0, 9], 2⟩, backdiff := 2, nfqId := 1
     queue := some { head := 0, tail := 2, qh := some 7 } },
   { cdata := ⟨host4 [10, 0, 0, 8], 1⟩, backdiff := 1, nfqId := 2
     queue := some { head := 0, tail := 1, qh := some 8 } }]

/-- The packets that have arrived. -/
def twoQueuesArrived (i : Nat) : Nat := if i = 0 then 2 else 1

theorem twoQueues_update : ∃ bprd' routes,
    routerUpdate acceptTies zeroLeftover twoQueues = .ok (bprd', routes) ∧ bprd'.clist = twoQueuesUpdated :=
  ⟨_, _, rfl, rfl⟩

theorem twoQueues_owns : Owns twoQueuesUpdated 0 7 { head := 0, tail := 2, qh := some 7 } ∧
    Owns twoQueuesUpdated 1 8 { head := 0, tail := 1, qh := some 8 } := by
  have queues : ∀ {j queue}, queueAt twoQueuesUpdated j = some queue →
      j = 0 ∧ queue.qh = some 7 ∨ j = 1 ∧ queue.qh = some 8 := by
    intro j queue found
    match j, found with
    | 0, found =>
        cases found
        exact .inl ⟨rfl, rfl⟩
    | 1, found =>
        cases found
        exact .inr ⟨rfl, rfl⟩
    | j + 2, found => cases found
  refine ⟨⟨rfl, rfl, fun found named => ?_⟩, ⟨rfl, rfl, fun found named => ?_⟩⟩
  · rcases queues found with ⟨here, _⟩ | ⟨_, other⟩
    · exact here
    · exact absurd (named.symm.trans other) (by decide)
  · rcases queues found with ⟨_, other⟩ | ⟨here, _⟩
    · exact absurd (named.symm.trans other) (by decide)
    · exact here

/-- The queue of 10.0.0.9 is empty after two releases, and the third one is wasted although a packet for
    10.0.0.8 waits. -/
theorem emptied_commodity_blocks : ∃ bprd' routes,
    routerUpdate acceptTies zeroLeftover twoQueues = .ok (bprd', routes) ∧
      ¬NoTickWasted bprd'.clist twoQueuesArrived (fun _ => 0) [.release 1, .release 1, .release 1] := by
  obtain ⟨bprd', routes, updated, clist⟩ := twoQueues_update
  refine ⟨bprd', routes, updated, ?_⟩
  intro used
  rw [clist] at used
  have releasable : SomeReleasable twoQueuesUpdated twoQueuesArrived (fun _ => 0)
      [.release 1, .release 1] :=
    ⟨1, 1, 8, _, rfl, by decide, twoQueues_owns.2, by decide⟩
  exact used [.release 1, .release 1] [] rfl releasable rfl

/-- A release, an arrival and two more releases. -/
def threeTicks : List BackloggerOp := [.release 1, .add 0, .release 1, .release 1]

/-- With one more packet for 10.0.0.9 the third release is used as well. -/
theorem three_ticks_used : ∃ bprd' routes,
    routerUpdate acceptTies zeroLeftover twoQueues = .ok (bprd', routes) ∧
      NoTickWasted bprd'.clist twoQueuesArrived (fun _ => 0) threeTicks := by
  obtain ⟨bprd', routes, updated, clist⟩ := twoQueues_update
  have handles : DistinctHandles bprd'.clist := by
    intro i queue found
    rw [clist] at found ⊢
    match i, found with
    | 0, found =>
        cases found
        exact ⟨7, twoQueues_owns.1⟩
    | 1, found =>
        cases found
        exact ⟨8, twoQueues_owns.2⟩
    | i + 2, found => cases found
  have counts : CountsAt bprd'.clist twoQueuesArrived fun _ => 0 := by
    intro i queue found
    rw [clist] at found
    match i, found with
    | 0, found =>
        cases found
        exact ⟨rfl, rfl, Nat.zero_le _⟩
    | 1, found =>
        cases found
        exact ⟨rfl, rfl, Nat.zero_le _⟩
    | i + 2, found => cases found
  have ticks : ∀ op ∈ threeTicks, TickOp op := by
    intro op member
    simp only [threeTicks, List.mem_cons, List.not_mem_nil, or_false] at member
    rcases member with rfl | rfl | rfl | rfl <;> trivial
  refine ⟨bprd', routes, updated, (ticks_used_iff updated handles counts ticks).mpr ?_⟩
  intro i d target before after split _
  rw [clist] at target
  have stored : storedDiffs twoQueuesUpdated = [2, 1] := rfl
  have upper : ∀ d' ∈ storedDiffs twoQueuesUpdated, d' ≤ 2 := by
    intro d' member
    rw [stored] at member
    rcases List.mem_cons.mp member with rfl | later
    · exact UInt32.le_refl 2
    · rw [List.mem_singleton.mp later]
      exact UInt32.le_of_lt (by decide)
  have first : IsTarget (storedDiffs twoQueuesUpdated) 0 2 :=
    ⟨rfl, by decide, upper, fun j below => absurd below (Nat.not_lt_zero j)⟩
  obtain ⟨rfl, rfl⟩ := target.unique first
  match before, split with
  | [], _ => decide
  | [_], split => cases split
  | [_, _], split =>
      cases split
      decide
  | [_, _, _], split =>
      cases split
      decide
  | _ :: _ :: _ :: _ :: before, split => cases before <;> cases split

end Bprd
