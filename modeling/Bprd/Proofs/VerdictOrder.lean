/-
Module: Bprd.Proofs.VerdictOrder
Layer: Proofs
Purpose: The verdicts of one queue over whole runs of a daemon. Whatever the daemon does in between, the
  events of the queue replay in the kernel without error: each verdict settles the oldest held packet.
Imports: Bprd.Proofs.FifoOrder, Bprd.Proofs.NodeFrame, Bprd.Lib.Runs
Trusted boundary: none
Main exports: queueHistory, QueueInvariant, queueStep_invariant, run_queueInvariant
-/
import Bprd.Proofs.FifoOrder
import Bprd.Proofs.NodeFrame
import Bprd.Lib.Runs

namespace Bprd

open KernelQueue (arrivals verdictIds)

/-- What one step means to the queue with handle `qh` at position `i`. -/
def queueEvents (i : Nat) (qh : QueueHandle) (step : NodeOp × Output) : List QueueEvent :=
  (match step.1 with
    | .backlogger (.add j) => if j = i then [.arrival] else []
    | _ => []) ++
    (step.2.verdicts.filter fun v => v.qh = some qh).map Verdict.event

/-- The events of a queue over a run. -/
def queueHistory (i : Nat) (qh : QueueHandle) (trace : List (NodeOp × Output)) : List QueueEvent :=
  trace.flatMap (queueEvents i qh)

/-- Only position `i` has a queue with handle `qh`. -/
def OnlyQueue (clist : List Commodity) (i : Nat) (qh : QueueHandle) : Prop :=
  ∀ {j queue}, queueAt clist j = some queue → queue.qh = some qh → j = i

/-- The queue at position `i` follows the kernel's queue. -/
structure QueueInvariant (i : Nat) (qh : QueueHandle) (events : List QueueEvent)
    (clist : List Commodity) : Prop where
  only : OnlyQueue clist i qh
  follows : ∃ queue k, queueAt clist i = some queue ∧ queue.qh = some qh ∧
    KernelQueue.empty.replay events = some k ∧ Refines queue k

/-- Every function that gives verdicts settles the oldest packets. -/
theorem settling_giver {act : Fifo → Fifo × List Verdict}
    (giver : act = fifoSendPacket ∨ act = fifoDropPacket ∨ act = fifoDelete ∨
      ∃ count, act = sendLoop count) : Settling act := by
  rcases giver with rfl | rfl | rfl | ⟨count, rfl⟩
  · exact settling_fifoVerdict .accept
  · exact settling_fifoVerdict .drop
  · exact settling_fifoDelete
  · exact settling_sendLoop count

/-- A step on one queue that keeps its handle keeps the handles apart. -/
theorem OnlyQueue.onQueue {clist : List Commodity} {i : Nat} {qh : QueueHandle}
    (only : OnlyQueue clist i qh) {act : Fifo → Fifo × List Verdict}
    (keeps : ∀ queue, (act queue).1.qh = queue.qh) (j : Nat) :
    OnlyQueue (onCommodity (onQueue act) j clist).1 i qh := by
  intro j' queue found named
  rw [queueAt_onQueue] at found
  split at found
  · obtain ⟨queue', found', rfl⟩ := Option.map_eq_some_iff.mp found
    exact only found' ((keeps queue').symm.trans named)
  · exact only found named

/-- Without an arrival the events of a step are the verdicts given from the queue. -/
theorem queueEvents_noArrival {i : Nat} {qh : QueueHandle} {op : NodeOp} {out : Output}
    (noArrival : ∀ j, op ≠ .backlogger (.add j)) :
    queueEvents i qh (op, out) = (out.verdicts.filter fun v => v.qh = some qh).map Verdict.event := by
  unfold queueEvents
  split
  · rename_i j isAdd
    exact absurd isAdd (noArrival j)
  · rfl

/-- One step keeps the invariant, with the step's events appended. -/
theorem queueStep_invariant {i : Nat} {qh : QueueHandle} {events : List QueueEvent}
    {clist clist' : List Commodity} {op : NodeOp} {out : Output}
    (invariant : QueueInvariant i qh events clist)
    (stepped : QueueStep clist op clist' out.verdicts) :
    QueueInvariant i qh (events ++ queueEvents i qh (op, out)) clist' := by
  obtain ⟨only, queue, k, found, named, replayed, refines⟩ := invariant
  generalize verdictsEq : out.verdicts = verdicts at stepped
  cases stepped with
  | arrival j =>
      refine ⟨only.onQueue (fun _ => rfl) j, ?_⟩
      rw [queueAt_onQueue]
      by_cases here : i = j
      · subst here
        refine ⟨fifoAddPacket queue, k.arrive, ?_, named, ?_, refines_fifoAddPacket refines⟩
        · simp [found]
        · simp [queueEvents, verdictsEq, KernelQueue.replay_append, replayed, KernelQueue.replay,
            KernelQueue.step]
      · have elsewhere : j ≠ i := fun equal => here equal.symm
        refine ⟨queue, k, ?_, named, ?_, refines⟩
        · simp [here, found]
        · simp [queueEvents, verdictsEq, elsewhere, replayed]
  | verdicts j act giver noArrival =>
      have quiet := @queueEvents_noArrival i qh op out noArrival
      refine ⟨only.onQueue (fun q => (giver_qh giver q).1) j, ?_⟩
      rw [queueAt_onQueue, quiet, verdictsEq, verdicts_onQueue]
      by_cases here : i = j
      · subst here
        obtain ⟨keeps, own⟩ := giver_qh giver queue
        obtain ⟨k', ran, refines'⟩ := settling_giver giver refines
        have all : (act queue).2.filter (fun v => v.qh = some qh) = (act queue).2 := by
          rw [List.filter_eq_self]
          intro v member
          exact decide_eq_true ((own v member).trans named)
        refine ⟨(act queue).1, k', ?_, keeps.trans named, ?_, refines'⟩
        · simp [found]
        · simp [found, all, KernelQueue.replay_append, replayed, ran]
      · refine ⟨queue, k, ?_, named, ?_, refines⟩
        · simp [here, found]
        · cases other : queueAt clist j with
          | none => simp [replayed]
          | some queue' =>
              have foreign : (act queue').2.filter (fun v => v.qh = some qh) = [] := by
                rw [List.filter_eq_nil_iff]
                intro v member isOurs
                have handle := (giver_qh giver queue').2 v member
                exact here (only other (handle.symm.trans (of_decide_eq_true isOurs))).symm
              simp [foreign, replayed]
  | silent same noArrival =>
      have quiet : queueEvents i qh (op, out) = [] := by
        rw [queueEvents_noArrival noArrival, verdictsEq]
        rfl
      rw [quiet, List.append_nil]
      refine ⟨?_, queue, k, (same i).trans found, named, replayed, refines⟩
      intro j queue' found' named'
      exact only ((same j).symm.trans found') named'

/-- The invariant over a whole run. -/
theorem run_queueInvariant {node node' : Node} {ops : List NodeOp} {trace : List (NodeOp × Output)}
    {i : Nat} {qh : QueueHandle}
    (fresh : queueAt node.bprd.clist i = some { fifoInit with qh := some qh })
    (only : OnlyQueue node.bprd.clist i qh)
    (ran : Runs.run nodeStep node ops = .ok (node', trace)) :
    QueueInvariant i qh (queueHistory i qh trace) node'.bprd.clist := by
  refine Runs.run_induction (motive := fun trace node =>
    QueueInvariant i qh (queueHistory i qh trace) node.bprd.clist) ?_ ?_ ran
  · exact ⟨only, _, KernelQueue.empty, fresh, rfl, rfl, refines_fifoInit _⟩
  · intro trace node op node' out invariant stepped
    rw [queueHistory, List.flatMap_append, List.flatMap_singleton]
    exact queueStep_invariant invariant (nodeStep_queueStep stepped)

/-- Over any run from `fifo_init` on, no more verdicts are given than packets have arrived, the k-th
    verdict names id k mod 2^32, and in the kernel the verdicts settle packets 1, 2, 3, ... in this order,
    each once and after its arrival. -/
theorem verdicts_in_arrival_order {node node' : Node} {ops : List NodeOp}
    {trace : List (NodeOp × Output)} {i : Nat} {qh : QueueHandle}
    (fresh : queueAt node.bprd.clist i = some { fifoInit with qh := some qh })
    (only : OnlyQueue node.bprd.clist i qh)
    (ran : Runs.run nodeStep node ops = .ok (node', trace)) :
    (verdictIds (queueHistory i qh trace)).length ≤ arrivals (queueHistory i qh trace) ∧
      (∀ n id, (verdictIds (queueHistory i qh trace))[n]? = some id → id = packetId (n + 1)) ∧
      ∃ k, KernelQueue.empty.replay (queueHistory i qh trace) = some k ∧
        k.settled.map Prod.fst = List.range' 1 (verdictIds (queueHistory i qh trace)).length ∧
        k.settled.map Prod.fst ++ k.held = List.range' 1 (arrivals (queueHistory i qh trace)) := by
  obtain ⟨_, queue, k, _, _, replayed, refines⟩ := run_queueInvariant fresh only ran
  have arrived : k.arrived = arrivals (queueHistory i qh trace) := by
    simpa [KernelQueue.empty] using KernelQueue.replay_arrived replayed
  have settled : k.settled.map (fun s => packetId s.1) = verdictIds (queueHistory i qh trace) := by
    simpa [KernelQueue.empty] using KernelQueue.replay_settled replayed
  have count : k.settled.length = (verdictIds (queueHistory i qh trace)).length := by
    rw [← settled, List.length_map]
  have inOrder := refines.inOrder
  have firsts : k.settled.map Prod.fst = List.range' 1 k.settled.length := by
    have split : List.range' 1 k.arrived =
        List.range' 1 k.settled.length ++
          List.range' (1 + k.settled.length) (k.arrived - k.settled.length) := by
      rw [List.range'_append_1, Nat.add_sub_cancel' refines.settled_le]
    exact (List.append_inj (inOrder.trans split) (by simp)).1
  refine ⟨?_, ?_, k, replayed, count ▸ firsts, arrived ▸ inOrder⟩
  · rw [← count, ← arrived]
    exact refines.settled_le
  · intro n id named
    have ids : verdictIds (queueHistory i qh trace) =
        (List.range' 1 k.settled.length).map packetId := by
      rw [← settled, ← firsts, List.map_map]
      rfl
    rw [ids, List.getElem?_map, Option.map_eq_some_iff] at named
    obtain ⟨m, at_n, rfl⟩ := named
    obtain ⟨inside, rfl⟩ := List.getElem?_eq_some_iff.mp at_n
    rw [List.getElem_range', Nat.one_mul, Nat.add_comm]

/-- A daemon with one commodity, whose stored differential is 3 and whose queue is new. -/
def oneQueueNode : Node :=
  { bprd :=
      { ipver := afInet, ifIndex := 1, saddr := ⟨afInet, [10, 0, 0, 1]⟩, helloSeqno := 0
        neighborTimeout := 2500000
        clist := [{ cdata := ⟨host4 [10, 0, 0, 9], 0⟩, backdiff := 3, nfqId := 1
                    queue := some { fifoInit with qh := some 7 } }]
        nlist := [] }
    writer := helloWriterInit
    order := .little }

/-- Two arrivals, a release of two packets, a third arrival, and its drop. -/
def oneQueueOps : List NodeOp :=
  [.backlogger (.add 0), .backlogger (.add 0), .backlogger (.release 5), .backlogger (.add 0),
    .backlogger (.drop 0)]

theorem verdicts_in_arrival_order_run :
    ∃ node' trace, Runs.run nodeStep oneQueueNode oneQueueOps = .ok (node', trace) ∧
      (verdictIds (queueHistory 0 7 trace)).length ≤ arrivals (queueHistory 0 7 trace) := by
  have only : OnlyQueue oneQueueNode.bprd.clist 0 7 := by
    intro j queue found _
    cases j with
    | zero => rfl
    | succ j => cases found
  obtain ⟨node', trace, ran⟩ : ∃ node' trace,
      Runs.run nodeStep oneQueueNode oneQueueOps = .ok (node', trace) := ⟨_, _, rfl⟩
  exact ⟨node', trace, ran, (verdicts_in_arrival_order rfl only ran).1⟩

end Bprd
