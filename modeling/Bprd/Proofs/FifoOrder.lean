/-
Module: Bprd.Proofs.FifoOrder
Layer: Proofs
Purpose: The two counters of fifo_queue.c refine the kernel's queue at every distance from their wrap-around.
  `Refines` relates a `Fifo` to a `KernelQueue`; an arrival keeps it, and every function that gives
  verdicts settles the oldest held packets (`Settling`). Nothing here bounds the number of packets.
Imports: Bprd.Spec.KernelQueue, Bprd.Model.Backlogger, Bprd.Lib.WrapCounter
Trusted boundary: none
Main exports: Refines, Settling, refines_fifoAddPacket, settling_fifoVerdict, settling_sendLoop,
  settling_fifoDelete
-/
import Bprd.Spec.KernelQueue
import Bprd.Model.Backlogger
import Bprd.Lib.WrapCounter

namespace Bprd

theorem packetId_toNat (n : Nat) : (packetId n).toNat = n % 2 ^ 32 :=
  UInt32.toNat_ofNat'

theorem packetId_succ (n : Nat) : packetId n + 1 = packetId (n + 1) := by
  apply UInt32.toNat_inj.mp
  rw [UInt32.toNat_add, packetId_toNat, packetId_toNat]
  simp

/-- The daemon's counters and the kernel's packets: settled packets followed by held ones are all that
    have arrived, in order, and the counters name the last settled and the last arrived packet. -/
structure Refines (queue : Fifo) (k : KernelQueue) : Prop where
  inOrder : k.settled.map Prod.fst ++ k.held = List.range' 1 k.arrived
  head_eq : queue.head = packetId k.settled.length
  tail_eq : queue.tail = packetId k.arrived

theorem refines_fifoInit (qh : Option QueueHandle) :
    Refines { fifoInit with qh := qh } KernelQueue.empty :=
  ⟨rfl, rfl, rfl⟩

section

variable {queue : Fifo} {k : KernelQueue}

theorem Refines.settled_add_held (refines : Refines queue k) :
    k.settled.length + k.held.length = k.arrived := by
  have lengths := congrArg List.length refines.inOrder
  rw [List.length_append, List.length_map, List.length_range'] at lengths
  exact lengths

theorem Refines.settled_le (refines : Refines queue k) : k.settled.length ≤ k.arrived :=
  refines.settled_add_held ▸ Nat.le_add_right _ _

theorem Refines.held_le (refines : Refines queue k) : k.held.length ≤ k.arrived :=
  refines.settled_add_held ▸ Nat.le_add_left _ _

theorem refines_fifoAddPacket (refines : Refines queue k) :
    Refines (fifoAddPacket queue) k.arrive := by
  refine ⟨?_, refines.head_eq, ?_⟩
  · show k.settled.map Prod.fst ++ (k.held ++ [k.arrived + 1]) = List.range' 1 (k.arrived + 1)
    rw [← List.append_assoc, refines.inOrder, List.range'_concat]
    simp [Nat.add_comm]
  · show queue.tail + 1 = packetId (k.arrived + 1)
    rw [refines.tail_eq, packetId_succ]

/-- The guard `head < tail` is sound at every distance: when it passes, a packet is held. -/
theorem Refines.settled_lt (refines : Refines queue k) (guard : queue.head < queue.tail) :
    k.settled.length < k.arrived := by
  have wrapped : k.settled.length % 2 ^ 32 < k.arrived % 2 ^ 32 := by
    rw [← packetId_toNat, ← packetId_toNat, ← refines.head_eq, ← refines.tail_eq]
    exact UInt32.lt_iff_toNat_lt.mp guard
  exact WrapCounter.lt_of_wrapped_lt refines.settled_le wrapped

/-- The oldest held packet is the one after the last settled. -/
theorem Refines.held_eq (refines : Refines queue k) (some_held : k.settled.length < k.arrived) :
    ∃ rest, k.held = (k.settled.length + 1) :: rest := by
  have split : List.range' 1 k.arrived =
      List.range' 1 k.settled.length ++
        List.range' (1 + k.settled.length) (k.arrived - k.settled.length) := by
    rw [List.range'_append_1]
    congr 1
    omega
  have parts := List.append_inj (refines.inOrder.trans split) (by simp)
  obtain ⟨count, counted⟩ : ∃ count, k.arrived - k.settled.length = count + 1 :=
    ⟨k.arrived - k.settled.length - 1, by omega⟩
  rw [counted, List.range'_succ] at parts
  rw [Nat.add_comm 1] at parts
  exact ⟨_, parts.2⟩

/-- A verdict for the id after `head` settles the oldest held packet. -/
theorem Refines.settle_next (refines : Refines queue k) (guard : queue.head < queue.tail)
    (verdict : NfVerdict) :
    ∃ k', k.settle (queue.head + 1) verdict = some k' ∧
      Refines { queue with head := queue.head + 1 } k' := by
  obtain ⟨rest, held⟩ := refines.held_eq (refines.settled_lt guard)
  have next : queue.head + 1 = packetId (k.settled.length + 1) := by
    rw [refines.head_eq, packetId_succ]
  refine ⟨{ k with held := rest, settled := k.settled ++ [(k.settled.length + 1, verdict)] },
    ?_, ?_, ?_, refines.tail_eq⟩
  · simp [KernelQueue.settle, held, next]
  · have inOrder := refines.inOrder
    rw [held] at inOrder
    simpa using inOrder
  · simpa using next

end

/-- The event of a verdict at its queue. -/
def Verdict.event (v : Verdict) : QueueEvent := .verdict v.id v.verdict

/-- A function on a queue whose verdicts settle the oldest held packets, in order. -/
def Settling (act : Fifo → Fifo × List Verdict) : Prop :=
  ∀ {queue : Fifo} {k : KernelQueue}, Refines queue k →
    ∃ k', k.replay ((act queue).2.map Verdict.event) = some k' ∧ Refines (act queue).1 k'

theorem settling_fifoVerdict (verdict : NfVerdict) : Settling (fifoVerdict verdict) := by
  intro queue k refines
  unfold fifoVerdict
  split
  · rename_i guard
    obtain ⟨k', settles, refines'⟩ := refines.settle_next guard verdict
    refine ⟨k', ?_, refines'⟩
    simp [KernelQueue.replay, KernelQueue.step, Verdict.event, settles]
  · exact ⟨k, rfl, refines⟩

theorem settling_none : Settling fun queue => (queue, []) :=
  fun {_ k} refines => ⟨k, rfl, refines⟩

/-- Verdicts of two functions in sequence. -/
theorem settling_seq {first second : Fifo → Fifo × List Verdict} (settling₁ : Settling first)
    (settling₂ : Settling second) :
    Settling fun queue => ((second (first queue).1).1, (first queue).2 ++ (second (first queue).1).2) := by
  intro queue k refines
  obtain ⟨k₁, ran₁, refines₁⟩ := settling₁ refines
  obtain ⟨k₂, ran₂, refines₂⟩ := settling₂ refines₁
  refine ⟨k₂, ?_, refines₂⟩
  simp only [List.map_append, KernelQueue.replay_append, ran₁]
  exact ran₂

theorem settling_sendLoop : ∀ count, Settling (sendLoop count)
  | 0 => settling_none
  | count + 1 => settling_seq (settling_fifoVerdict .accept) (settling_sendLoop count)

theorem settling_fifoDelete : Settling fifoDelete := by
  intro queue
  induction queue using fifoDelete.induct with
  | case1 queue guard ih =>
      intro k refines
      obtain ⟨k₁, settles, refines₁⟩ := refines.settle_next guard .drop
      obtain ⟨k', ran, refines'⟩ := ih refines₁
      rw [fifoDelete, dif_pos guard]
      refine ⟨k', ?_, refines'⟩
      simp only [List.map_cons, KernelQueue.replay, KernelQueue.step, Verdict.event, settles]
      exact ran
  | case2 queue guard =>
      intro k refines
      rw [fifoDelete, dif_neg guard]
      exact ⟨k, rfl, refines⟩

end Bprd
