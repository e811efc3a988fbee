/-
Module: Bprd.Proofs.QueueReaders
Layer: Proofs
Purpose: What the functions of fifo_queue.c that read the two counters see of a queue, over runs of any
  length. The released count never leaves the first cycle of its counter, so from the 2^32-th arrival on
  a queue that holds packets reads as empty; and while the tail counter is at its last value
  `fifo_print` does not end. Before that every reader sees the true content.
Imports: Bprd.Proofs.FifoOrder
Trusted boundary: none
Main exports: Counts, Counts.run, SeesContent, content_seen_iff, content_hidden_at_wrap
-/
import Bprd.Proofs.FifoOrder

namespace Bprd

/-- The ids announced among some events. -/
def announcedIds (events : List FifoEvent) : List UInt32 :=
  events.filterMap fun
    | .announced id => some id
    | .verdict _ => none

/-- The verdicts among some events. -/
def verdictsOf (events : List FifoEvent) : List Verdict :=
  events.filterMap fun
    | .announced _ => none
    | .verdict v => some v

theorem announcedIds_append (events more : List FifoEvent) :
    announcedIds (events ++ more) = announcedIds events ++ announcedIds more :=
  List.filterMap_append

theorem verdictsOf_append (events more : List FifoEvent) :
    verdictsOf (events ++ more) = verdictsOf events ++ verdictsOf more :=
  List.filterMap_append

theorem announcedIds_verdicts (verdicts : List Verdict) :
    announcedIds (verdicts.map .verdict) = [] := by
  induction verdicts with
  | nil => rfl
  | cons v verdicts ih => exact ih

theorem verdictsOf_verdicts (verdicts : List Verdict) :
    verdictsOf (verdicts.map .verdict) = verdicts := by
  induction verdicts with
  | nil => rfl
  | cons v verdicts ih => exact congrArg (v :: ·) ih

/-! ### The counters over a run -/

/-- The counters after so many arrivals and verdicts. -/
structure Counts (queue : Fifo) (arrived given : Nat) : Prop where
  head : queue.head.toNat = given
  tail : queue.tail = packetId arrived
  ordered : given ≤ arrived

section

variable {queue : Fifo} {arrived given : Nat}

theorem Counts.init (qh : Option QueueHandle) : Counts { fifoInit with qh := qh } 0 0 :=
  ⟨rfl, rfl, Nat.le_refl 0⟩

theorem Counts.cycle (counts : Counts queue arrived given) : given < 2 ^ 32 := by
  rw [← counts.head]
  exact queue.head.toNat_lt

theorem Counts.guard_iff (counts : Counts queue arrived given) :
    queue.head < queue.tail ↔ given % 2 ^ 32 < arrived % 2 ^ 32 := by
  rw [UInt32.lt_iff_toNat_lt, counts.head, counts.tail, packetId_toNat, Nat.mod_eq_of_lt counts.cycle]

theorem Counts.add (counts : Counts queue arrived given) :
    Counts (fifoAddPacket queue) (arrived + 1) given := by
  refine ⟨counts.head, ?_, Nat.le_succ_of_le counts.ordered⟩
  show queue.tail + 1 = packetId (arrived + 1)
  rw [counts.tail, packetId_succ]

theorem Counts.advance (counts : Counts queue arrived given) (guard : queue.head < queue.tail) :
    Counts { queue with head := queue.head + 1 } arrived (given + 1) := by
  refine ⟨?_, counts.tail, ?_⟩
  · rw [fifo_head_succ guard, counts.head]
  · exact WrapCounter.lt_of_wrapped_lt counts.ordered (counts.guard_iff.mp guard)

theorem Counts.afterVerdict (counts : Counts queue arrived given) (verdict : NfVerdict) :
    Counts (fifoVerdict verdict queue).1 arrived (given + (fifoVerdict verdict queue).2.length) := by
  unfold fifoVerdict
  split
  · rename_i guard
    exact counts.advance guard
  · exact counts

theorem Counts.afterDelete (counts : Counts queue arrived given) :
    Counts (fifoDelete queue).1 arrived (given + (fifoDelete queue).2.length) := by
  induction queue using fifoDelete.induct generalizing given with
  | case1 queue guard ih =>
      rw [fifoDelete, dif_pos guard]
      have later := ih (counts.advance guard)
      rw [Nat.add_assoc, Nat.add_comm 1] at later
      exact later
  | case2 queue guard =>
      rw [fifoDelete, dif_neg guard]
      exact counts

/-- One call counts its events. -/
theorem Counts.step (counts : Counts queue arrived given) (op : FifoOp) :
    Counts (fifoStep queue op).1 (arrived + (announcedIds (fifoStep queue op).2).length)
      (given + (verdictsOf (fifoStep queue op).2).length) := by
  cases op with
  | add id => exact counts.add
  | send =>
      rw [fifoStep, announcedIds_verdicts, verdictsOf_verdicts]
      exact counts.afterVerdict .accept
  | drop =>
      rw [fifoStep, announcedIds_verdicts, verdictsOf_verdicts]
      exact counts.afterVerdict .drop
  | delete =>
      rw [fifoStep, announcedIds_verdicts, verdictsOf_verdicts]
      exact counts.afterDelete

/-- A run counts its events. -/
theorem Counts.run {ops : List FifoOp} (counts : Counts queue arrived given) :
    Counts (fifoRun queue ops).1 (arrived + (announcedIds (fifoRun queue ops).2).length)
      (given + (verdictsOf (fifoRun queue ops).2).length) := by
  induction ops generalizing queue arrived given with
  | nil => exact counts
  | cons op ops ih =>
      rw [fifoRun, announcedIds_append, verdictsOf_append, List.length_append, List.length_append,
        ← Nat.add_assoc, ← Nat.add_assoc]
      exact ih (counts.step op)

end

/-! ### The readers -/

/-- Every reader sees the packets that have arrived and had no verdict: the length, whether there is one
    to send, how many drops empty the queue, and their ids. -/
structure SeesContent (queue : Fifo) (arrived given : Nat) : Prop where
  length : (fifoLength queue).toNat = arrived - given
  send : (fifoSendPacket queue).2 ≠ [] ↔ 0 < arrived - given
  delete : (fifoDelete queue).2.length = arrived - given ∧
    ∀ v ∈ (fifoDelete queue).2, v.verdict = .drop
  print : ∃ fuel, fifoPrint fuel queue =
    some ((List.range' (given + 1) (arrived - given)).map packetId)

section

variable {queue : Fifo} {arrived given : Nat}

theorem fifoDelete_length (queue : Fifo) :
    (fifoDelete queue).2.length = queue.tail.toNat - queue.head.toNat := by
  induction queue using fifoDelete.induct with
  | case1 queue guard ih =>
      rw [fifoDelete, dif_pos guard]
      have below : queue.head.toNat < queue.tail.toNat := UInt32.lt_iff_toNat_lt.mp guard
      have shorter : queue.tail.toNat - (queue.head + 1).toNat + 1 =
          queue.tail.toNat - queue.head.toNat := by
        rw [fifo_head_succ guard]
        omega
      exact (congrArg (· + 1) ih).trans shorter
  | case2 queue guard =>
      rw [fifoDelete, dif_neg guard]
      have above : queue.tail.toNat ≤ queue.head.toNat :=
        Nat.le_of_not_lt fun below => guard (UInt32.lt_iff_toNat_lt.mpr below)
      exact (Nat.sub_eq_zero_of_le above).symm

theorem fifoDelete_drops (queue : Fifo) : ∀ v ∈ (fifoDelete queue).2, v.verdict = .drop := by
  induction queue using fifoDelete.induct with
  | case1 queue guard ih =>
      rw [fifoDelete, dif_pos guard]
      intro v member
      rcases List.mem_cons.mp member with rfl | later
      · rfl
      · exact ih v later
  | case2 queue guard =>
      rw [fifoDelete, dif_neg guard]
      intro v member
      cases member

/-- Below the last value of the counter the printing loop ends, having printed an interval. -/
theorem printFrom_interval {tail : UInt32} (notLast : tail.toNat < 2 ^ 32 - 1) :
    ∀ {n : Nat} {i : UInt32}, i.toNat + n = tail.toNat + 1 →
      printFrom (n + 1) tail i = some ((List.range' i.toNat n).map packetId)
  | 0, i, reached => by
      have past : ¬i ≤ tail := by
        rw [UInt32.le_iff_toNat_le]
        omega
      rw [printFrom, if_neg past]
      rfl
  | n + 1, i, reached => by
      have inside : i ≤ tail := by
        rw [UInt32.le_iff_toNat_le]
        omega
      have next : (i + 1).toNat = i.toNat + 1 := by
        rw [UInt32.toNat_add]
        exact Nat.mod_eq_of_lt (by simp; omega)
      have self : packetId i.toNat = i := UInt32.toNat_inj.mp (by
        rw [packetId_toNat, Nat.mod_eq_of_lt i.toNat_lt])
      rw [printFrom, if_pos inside, printFrom_interval notLast (by rw [next]; omega), next,
        List.range'_succ, List.map_cons, self]
      rfl

/-- At the last value of the counter `i <= tail` always holds. -/
theorem printFrom_forever {tail : UInt32} (last : tail.toNat = 2 ^ 32 - 1) :
    ∀ (fuel : Nat) (i : UInt32), printFrom fuel tail i = none
  | 0, _ => rfl
  | fuel + 1, i => by
      have inside : i ≤ tail := by
        rw [UInt32.le_iff_toNat_le, last]
        exact Nat.le_pred_of_lt i.toNat_lt
      rw [printFrom, if_pos inside, printFrom_forever last fuel (i + 1)]
      rfl

theorem fifoSendPacket_verdicts (queue : Fifo) :
    (fifoSendPacket queue).2 ≠ [] ↔ queue.head < queue.tail := by
  unfold fifoSendPacket fifoVerdict
  split
  · rename_i guard
    exact iff_of_true (List.cons_ne_nil _ _) guard
  · rename_i guard
    exact iff_of_false (fun some_ => some_ rfl) guard

/-- The length is right while the arrivals are in the first cycle of the counter, and only then. -/
theorem Counts.length_iff (counts : Counts queue arrived given) (near : arrived - given < 2 ^ 32) :
    (fifoLength queue).toNat = arrived - given ↔ arrived < 2 ^ 32 := by
  have cycle := counts.cycle
  have ordered := counts.ordered
  have guard := counts.guard_iff.trans (WrapCounter.wrapped_lt_iff_cycle cycle ordered near)
  unfold fifoLength
  split
  · rename_i passes
    have first := (guard.mp passes).2
    refine iff_of_true ?_ first
    rw [UInt32.toNat_sub_of_le _ _ (UInt32.le_of_lt passes), counts.head, counts.tail, packetId_toNat,
      Nat.mod_eq_of_lt first]
  · rename_i fails
    rw [UInt32.toNat_zero]
    constructor
    · intro nothing
      omega
    · intro first
      have none_ : ¬given < arrived := fun some_ => fails (guard.mpr ⟨some_, first⟩)
      omega

/-- Every reader sees the content exactly as long as the tail counter has not reached its last value. -/
theorem Counts.seesContent_iff (counts : Counts queue arrived given)
    (near : arrived - given < 2 ^ 32) :
    SeesContent queue arrived given ↔ arrived < 2 ^ 32 - 1 := by
  have tail_eq : queue.tail.toNat = arrived % 2 ^ 32 := by rw [counts.tail, packetId_toNat]
  constructor
  · intro sees
    have first := (counts.length_iff near).mp sees.length
    rw [Nat.mod_eq_of_lt first] at tail_eq
    by_contra reached
    obtain ⟨fuel, printed⟩ := sees.print
    rw [fifoPrint, printFrom_forever (by omega)] at printed
    cases printed
  · intro before
    have first : arrived < 2 ^ 32 := by omega
    have ordered := counts.ordered
    rw [Nat.mod_eq_of_lt first] at tail_eq
    have head_eq := counts.head
    refine ⟨(counts.length_iff near).mpr first, ?_, ⟨?_, fifoDelete_drops queue⟩, ?_⟩
    · rw [fifoSendPacket_verdicts, counts.guard_iff,
        WrapCounter.wrapped_lt_iff_cycle counts.cycle ordered near]
      omega
    · rw [fifoDelete_length, tail_eq, head_eq]
    · have next : (queue.head + 1).toNat = given + 1 := by
        rw [UInt32.toNat_add, head_eq]
        exact Nat.mod_eq_of_lt (by simp; omega)
      refine ⟨arrived - given + 1, ?_⟩
      rw [fifoPrint, printFrom_interval (by omega) (by rw [next, tail_eq]; omega), next]

end

/-- In every state that a run of the queue's functions reaches with fewer than 2^32 packets held, every
    reader sees the true content if and only if fewer than 2^32 - 1 packets have arrived. -/
theorem content_seen_iff (qh : Option QueueHandle) (ops : List FifoOp)
    (near : (announcedIds (fifoRun { fifoInit with qh := qh } ops).2).length -
      (verdictsOf (fifoRun { fifoInit with qh := qh } ops).2).length < 2 ^ 32) :
    SeesContent (fifoRun { fifoInit with qh := qh } ops).1
        (announcedIds (fifoRun { fifoInit with qh := qh } ops).2).length
        (verdictsOf (fifoRun { fifoInit with qh := qh } ops).2).length ↔
      (announcedIds (fifoRun { fifoInit with qh := qh } ops).2).length < 2 ^ 32 - 1 := by
  have counts := @Counts.run _ 0 0 ops (Counts.init qh)
  rw [Nat.zero_add, Nat.zero_add] at counts
  exact counts.seesContent_iff near

theorem content_seen_after_one_sent : SeesContent
    (fifoRun { fifoInit with qh := some 7 } [.add 1, .add 2, .send]).1 2 1 :=
  (content_seen_iff (some 7) [.add 1, .add 2, .send] (by decide)).mpr (by decide)

/-- Packets arrive until the tail counter is at its last value, all are dropped, and one more arrives. -/
def wrapOps : List FifoOp := List.replicate (2 ^ 32 - 1) (.add 0) ++ [.delete, .add 0]

theorem fifoRun_append (queue : Fifo) (ops more : List FifoOp) :
    fifoRun queue (ops ++ more) =
      ((fifoRun (fifoRun queue ops).1 more).1,
        (fifoRun queue ops).2 ++ (fifoRun (fifoRun queue ops).1 more).2) := by
  induction ops generalizing queue with
  | nil => rfl
  | cons op ops ih =>
      rw [List.cons_append, fifoRun, fifoRun, ih]
      simp only [List.append_assoc]

theorem fifoRun_adds (queue : Fifo) (id : UInt32) : ∀ n : Nat,
    (fifoRun queue (List.replicate n (.add id))).2 = List.replicate n (.announced id)
  | 0 => rfl
  | n + 1 => by
      rw [List.replicate_succ, List.replicate_succ, fifoRun]
      exact congrArg (FifoEvent.announced id :: ·) (fifoRun_adds (fifoAddPacket queue) id n)

theorem announcedIds_adds (id : UInt32) (n : Nat) :
    announcedIds (List.replicate n (.announced id)) = List.replicate n id := by
  induction n with
  | zero => rfl
  | succ n ih => exact congrArg (id :: ·) ih

theorem verdictsOf_adds (id : UInt32) (n : Nat) :
    verdictsOf (List.replicate n (.announced id)) = [] := by
  induction n with
  | zero => rfl
  | succ n ih => exact ih

/-- Arrivals, a deletion and one more arrival leave one packet held. -/
theorem fifoRun_adds_delete_add {queue : Fifo} (counts : Counts queue 0 0) {n : Nat}
    (small : n < 2 ^ 32) :
    ∃ events, fifoRun queue (List.replicate n (.add 0) ++ [.delete, .add 0]) =
        (fifoAddPacket (fifoDelete (fifoRun queue (List.replicate n (.add 0))).1).1, events) ∧
      (announcedIds events).length = n + 1 ∧ (verdictsOf events).length = n := by
  have filled := @Counts.run _ _ _ (List.replicate n (.add 0)) counts
  rw [fifoRun_adds, announcedIds_adds, verdictsOf_adds, List.length_replicate, List.length_nil,
    Nat.zero_add] at filled
  refine ⟨_, fifoRun_append _ _ _, ?_, ?_⟩
  · rw [announcedIds_append, fifoRun_adds, announcedIds_adds, List.length_append,
      List.length_replicate, fifoRun, announcedIds_append, fifoStep, announcedIds_verdicts]
    rfl
  · rw [verdictsOf_append, fifoRun_adds, verdictsOf_adds, fifoRun, verdictsOf_append, fifoStep,
      verdictsOf_verdicts]
    show ([] ++ ((fifoDelete _).2 ++ [])).length = n
    rw [List.nil_append, List.append_nil, fifoDelete_length, filled.tail, filled.head, packetId_toNat,
      Nat.mod_eq_of_lt small, Nat.sub_zero]

/-- After 2^32 arrivals and 2^32 - 1 verdicts one packet is held, but the queue reads as empty. -/
theorem content_hidden_at_wrap : ∃ queue events,
    fifoRun { fifoInit with qh := some 7 } wrapOps = (queue, events) ∧
      (announcedIds events).length = 2 ^ 32 ∧ (verdictsOf events).length = 2 ^ 32 - 1 ∧
      fifoLength queue = 0 ∧ ¬SeesContent queue (2 ^ 32) (2 ^ 32 - 1) := by
  obtain ⟨events, ran, announced, given⟩ :=
    fifoRun_adds_delete_add (Counts.init (some 7)) (n := 2 ^ 32 - 1) (by omega)
  have counts := @Counts.run _ 0 0 wrapOps (Counts.init (some 7))
  rw [wrapOps, ran, announced, given] at counts
  rw [Nat.zero_add, Nat.zero_add, Nat.sub_add_cancel (by omega)] at counts
  rw [Nat.sub_add_cancel (by omega)] at announced
  have wrong : ¬(fifoLength _).toNat = 2 ^ 32 - (2 ^ 32 - 1) :=
    mt (counts.length_iff (by omega)).mp (by omega)
  refine ⟨_, events, ran, announced, given, ?_, fun sees => wrong sees.length⟩
  have fails := counts.guard_iff.not.mpr (by omega)
  exact if_neg fails

end Bprd
