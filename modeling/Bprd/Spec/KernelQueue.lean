/-
Module: Bprd.Spec.KernelQueue
Layer: Spec
Purpose: A netfilter queue as the kernel sees it. Packets are counted without bound; the kernel labels the
  n-th with the id n mod 2^32. A verdict names an id, and the kernel settles the oldest held packet with
  that id; a verdict for an id no held packet has is an error. Replaying the events of a queue tells which
  packet each verdict settled.
Imports: Bprd.Model.FifoQueue, Mathlib.Data.List.Range
Trusted boundary: human-reviewed spec
Main exports: packetId, QueueEvent, KernelQueue, KernelQueue.replay, KernelQueue.replay_append,
  KernelQueue.replay_arrived, KernelQueue.replay_settled
-/
import Bprd.Model.FifoQueue
import Mathlib.Data.List.Range

namespace Bprd

/-- The id of the n-th packet of a queue, counted from 1. -/
def packetId (n : Nat) : UInt32 := UInt32.ofNat n

/-- What happens at one queue. -/
inductive QueueEvent where
  | arrival
  | verdict (id : UInt32) (verdict : NfVerdict)
deriving DecidableEq, Repr

/-- The packets of a queue: how many have arrived, the ones held, oldest first, and the ones that got
    their verdict, in that order. -/
structure KernelQueue where
  arrived : Nat
  held : List Nat
  settled : List (Nat × NfVerdict)
deriving DecidableEq, Repr

namespace KernelQueue

/-- A queue that was just created. -/
def empty : KernelQueue := ⟨0, [], []⟩

/-- A packet arrives and is announced. -/
def arrive (k : KernelQueue) : KernelQueue :=
  { k with arrived := k.arrived + 1, held := k.held ++ [k.arrived + 1] }

/-- A verdict is given for an id. -/
def settle (k : KernelQueue) (id : UInt32) (verdict : NfVerdict) : Option KernelQueue :=
  match k.held.find? fun n => packetId n = id with
  | none => none
  | some n => some { k with held := k.held.erase n, settled := k.settled ++ [(n, verdict)] }

/-- One event. -/
def step (k : KernelQueue) : QueueEvent → Option KernelQueue
  | .arrival => some k.arrive
  | .verdict id verdict => k.settle id verdict

/-- The events of a queue, first to last. -/
def replay : KernelQueue → List QueueEvent → Option KernelQueue
  | k, [] => some k
  | k, event :: events => (k.step event).bind fun k' => replay k' events

theorem replay_append {k : KernelQueue} {events more : List QueueEvent} :
    k.replay (events ++ more) = (k.replay events).bind fun k' => k'.replay more := by
  induction events generalizing k with
  | nil => rfl
  | cons event events ih =>
      rw [List.cons_append, replay, replay]
      cases k.step event with
      | none => rfl
      | some k' => exact ih

/-- The number of arrivals among some events. -/
def arrivals (events : List QueueEvent) : Nat := events.countP (· = .arrival)

/-- The id a verdict names. -/
def eventId : QueueEvent → Option UInt32
  | .arrival => none
  | .verdict id _ => some id

/-- The ids of the verdicts among some events, in order. -/
def verdictIds (events : List QueueEvent) : List UInt32 := events.filterMap eventId

theorem settle_settled {k k' : KernelQueue} {id : UInt32} {verdict : NfVerdict}
    (settles : k.settle id verdict = some k') :
    k'.arrived = k.arrived ∧ ∃ n, packetId n = id ∧ k'.settled = k.settled ++ [(n, verdict)] := by
  unfold settle at settles
  split at settles
  · cases settles
  · rename_i n found
    cases settles
    have named := List.find?_some found
    exact ⟨rfl, n, of_decide_eq_true named, rfl⟩

/-- A replay counts the arrivals. -/
theorem replay_arrived : ∀ {events : List QueueEvent} {k k' : KernelQueue},
    k.replay events = some k' → k'.arrived = k.arrived + arrivals events
  | [], k, k', ran => by
      cases ran
      rfl
  | .arrival :: events, k, k', ran => by
      have later := replay_arrived (show k.arrive.replay events = some k' from ran)
      rw [later, arrivals, arrivals, List.countP_cons]
      simp only [arrive, decide_true, if_true]
      omega
  | .verdict id verdict :: events, k, k', ran => by
      obtain ⟨k₁, settles, later⟩ := Option.bind_eq_some_iff.mp ran
      rw [replay_arrived later, (settle_settled settles).1, arrivals, arrivals, List.countP_cons]
      simp

/-- A replay settles packets with the ids that the verdicts name, in order. -/
theorem replay_settled : ∀ {events : List QueueEvent} {k k' : KernelQueue},
    k.replay events = some k' →
      k'.settled.map (fun s => packetId s.1) =
        k.settled.map (fun s => packetId s.1) ++ verdictIds events
  | [], k, k', ran => by
      cases ran
      simp [verdictIds]
  | .arrival :: events, k, k', ran => by
      have later := replay_settled (show k.arrive.replay events = some k' from ran)
      exact later
  | .verdict id verdict :: events, k, k', ran => by
      obtain ⟨k₁, settles, later⟩ := Option.bind_eq_some_iff.mp ran
      obtain ⟨_, n, named, appended⟩ := settle_settled settles
      rw [replay_settled later, appended]
      simp [verdictIds, eventId, named]

end KernelQueue

end Bprd
