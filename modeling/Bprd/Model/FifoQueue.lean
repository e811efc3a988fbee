/-
Module: Bprd.Model.FifoQueue
Layer: Model
Purpose: The userspace image of one netfilter queue (src/fifo_queue.c): two 32-bit packet ids and the
  queue handle. Every call that gives a verdict returns it, so the calls of `nfq_set_verdict` are visible
  in the results.
Imports: Mathlib.Data.Nat.ModEq
Trusted boundary: human-reviewed spec
Main exports: NfVerdict, Verdict, Fifo, fifoInit, fifoAddPacket, fifoSendPacket, fifoDropPacket,
  fifoLength, fifoDelete, fifoPrint, FifoOp, FifoEvent, fifoStep, fifoRun
-/
import Mathlib.Data.Nat.ModEq

namespace Bprd

/-- `NF_ACCEPT` and `NF_DROP`. -/
inductive NfVerdict where
  | accept
  | drop
deriving Repr, DecidableEq

/-- The handle that `nfq_create_queue` returns, opaque to the daemon. -/
abbrev QueueHandle := Nat

/-- One call `nfq_set_verdict(qh, id, verdict, 0, NULL)`. -/
structure Verdict where
  qh : Option QueueHandle
  id : UInt32
  verdict : NfVerdict
deriving Repr, DecidableEq

/-- `fifo_t`: `head` is the id of the most recently released packet, `tail` the id of the most
    recently enqueued one. -/
structure Fifo where
  head : UInt32
  tail : UInt32
  qh : Option QueueHandle
deriving Repr, DecidableEq

/-- `fifo_init`. -/
def fifoInit : Fifo := { head := 0, tail := 0, qh := none }

/-- `fifo_add_packet`, the libnetfilter_queue callback. The packet data is not looked at. -/
def fifoAddPacket (queue : Fifo) : Fifo := { queue with tail := queue.tail + 1 }

/-- The common body of `fifo_send_packet` and `fifo_drop_packet`: advance the head and give the verdict,
    when the guard `head < tail` passes. -/
def fifoVerdict (verdict : NfVerdict) (queue : Fifo) : Fifo × List Verdict :=
  if queue.head < queue.tail then
    ({ queue with head := queue.head + 1 }, [⟨queue.qh, queue.head + 1, verdict⟩])
  else
    (queue, [])

/-- `fifo_send_packet`. -/
def fifoSendPacket (queue : Fifo) : Fifo × List Verdict := fifoVerdict .accept queue

/-- `fifo_drop_packet`. -/
def fifoDropPacket (queue : Fifo) : Fifo × List Verdict := fifoVerdict .drop queue

/-- `fifo_length`. -/
def fifoLength (queue : Fifo) : UInt32 :=
  if queue.head < queue.tail then queue.tail - queue.head else 0

theorem fifo_head_succ {queue : Fifo} (guard : queue.head < queue.tail) :
    (queue.head + 1).toNat = queue.head.toNat + 1 := by
  have below : queue.head.toNat < queue.tail.toNat := UInt32.lt_iff_toNat_lt.mp guard
  have top := queue.tail.toNat_lt
  rw [UInt32.toNat_add]
  exact Nat.mod_eq_of_lt (by simp; omega)

/-- `fifo_delete`: drop verdicts until the guard fails. -/
def fifoDelete (queue : Fifo) : Fifo × List Verdict :=
  if guard : queue.head < queue.tail then
    let rest := fifoDelete { queue with head := queue.head + 1 }
    (rest.1, ⟨queue.qh, queue.head + 1, .drop⟩ :: rest.2)
  else
    (queue, [])
termination_by queue.tail.toNat - queue.head.toNat
decreasing_by
  have advanced := fifo_head_succ guard
  have below : queue.head.toNat < queue.tail.toNat := UInt32.lt_iff_toNat_lt.mp guard
  simp only [advanced]
  omega

/-- The loop of `fifo_print`: `fuel` bounds its iterations, and the result is `none` when it is still
    running after them. -/
def printFrom : Nat → UInt32 → UInt32 → Option (List UInt32)
  | 0, _, _ => none
  | fuel + 1, tail, i => if i ≤ tail then (printFrom fuel tail (i + 1)).map (i :: ·) else some []

/-- `fifo_print`: the ids it prints, one line `pkt: id` each. -/
def fifoPrint (fuel : Nat) (queue : Fifo) : Option (List UInt32) :=
  printFrom fuel queue.tail (queue.head + 1)

/-- The calls that change a queue. A packet is announced under the id the kernel gave it. -/
inductive FifoOp where
  | add (id : UInt32)
  | send
  | drop
  | delete
deriving Repr, DecidableEq

/-- What the kernel sees of a call: an announcement was consumed, or a verdict was given. -/
inductive FifoEvent where
  | announced (id : UInt32)
  | verdict (v : Verdict)
deriving Repr, DecidableEq

/-- One call, with its events. -/
def fifoStep (queue : Fifo) : FifoOp → Fifo × List FifoEvent
  | .add id => (fifoAddPacket queue, [.announced id])
  | .send => ((fifoSendPacket queue).1, (fifoSendPacket queue).2.map .verdict)
  | .drop => ((fifoDropPacket queue).1, (fifoDropPacket queue).2.map .verdict)
  | .delete => ((fifoDelete queue).1, (fifoDelete queue).2.map .verdict)

/-- A run of calls, with its events in order. -/
def fifoRun : Fifo → List FifoOp → Fifo × List FifoEvent
  | queue, [] => (queue, [])
  | queue, op :: ops =>
      ((fifoRun (fifoStep queue op).1 ops).1, (fifoStep queue op).2 ++ (fifoRun (fifoStep queue op).1 ops).2)

end Bprd
