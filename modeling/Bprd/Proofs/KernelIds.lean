/-
Module: Bprd.Proofs.KernelIds
Layer: Proofs
Purpose: Whether verdicts name the packets that the kernel announced. The queue gives the ids 1, 2, 3, ... in
  its verdicts and does not look at the announced ones, so it follows the kernel exactly in the runs whose
  announced ids are 1, 2, 3, ... without a gap.
Imports: Bprd.Proofs.QueueReaders
Trusted boundary: none
Main exports: Sequential, Counts.sequential_run, IdsFollowed, ids_followed_iff, ids_drift_after_gap
-/
import Bprd.Proofs.QueueReaders

namespace Bprd

/-! ### The ids in verdicts -/

/-- Verdicts name consecutive ids, each after that many announcements; `arrived` and `given` count what
    was before. -/
def Sequential : Nat → Nat → List FifoEvent → Prop
  | _, _, [] => True
  | arrived, given, .announced _ :: events => Sequential (arrived + 1) given events
  | arrived, given, .verdict v :: events =>
      v.id = packetId (given + 1) ∧ given < arrived ∧ Sequential arrived (given + 1) events

theorem sequential_append {events more : List FifoEvent} {arrived given : Nat} :
    Sequential arrived given (events ++ more) ↔ Sequential arrived given events ∧
      Sequential (arrived + (announcedIds events).length) (given + (verdictsOf events).length) more := by
  induction events generalizing arrived given with
  | nil => exact ⟨fun later => ⟨trivial, later⟩, fun both => both.2⟩
  | cons event events ih =>
      cases event with
      | announced id =>
          rw [List.cons_append, Sequential, Sequential, ih]
          show _ ∧ Sequential (arrived + 1 + _) _ more ↔ _ ∧ Sequential (arrived + (_ + 1)) _ more
          rw [Nat.add_assoc, Nat.add_comm 1]
          rfl
      | verdict v =>
          rw [List.cons_append, Sequential, Sequential, ih, and_assoc, and_assoc]
          show _ ∧ _ ∧ _ ∧ Sequential _ (given + 1 + _) more ↔
            _ ∧ _ ∧ _ ∧ Sequential _ (given + (_ + 1)) more
          rw [Nat.add_assoc, Nat.add_comm 1]
          rfl

/-- The ids of such verdicts. -/
theorem Sequential.ids {events : List FifoEvent} {arrived given : Nat}
    (sequential : Sequential arrived given events) :
    (verdictsOf events).map Verdict.id =
      (List.range' (given + 1) (verdictsOf events).length).map packetId := by
  induction events generalizing arrived given with
  | nil => rfl
  | cons event events ih =>
      cases event with
      | announced id => exact ih sequential
      | verdict v =>
          obtain ⟨named, _, later⟩ := sequential
          show v.id :: (verdictsOf events).map Verdict.id =
            (List.range' (given + 1) ((verdictsOf events).length + 1)).map packetId
          rw [ih later, List.range'_succ, List.map_cons, named]

section

variable {queue : Fifo} {arrived given : Nat}

theorem Counts.sequential_fifoVerdict (counts : Counts queue arrived given) (verdict : NfVerdict) :
    Sequential arrived given ((fifoVerdict verdict queue).2.map .verdict) := by
  unfold fifoVerdict
  split
  · rename_i guard
    refine ⟨?_, (counts.advance guard).ordered, trivial⟩
    apply UInt32.toNat_inj.mp
    rw [fifo_head_succ guard, counts.head, packetId_toNat]
    exact (Nat.mod_eq_of_lt (counts.advance guard).cycle).symm
  · trivial

theorem Counts.sequential_fifoDelete (counts : Counts queue arrived given) :
    Sequential arrived given ((fifoDelete queue).2.map .verdict) := by
  induction queue using fifoDelete.induct generalizing given with
  | case1 queue guard ih =>
      rw [fifoDelete, dif_pos guard]
      have first := counts.sequential_fifoVerdict .drop
      rw [fifoVerdict, if_pos guard] at first
      exact ⟨first.1, first.2.1, ih (counts.advance guard)⟩
  | case2 queue guard =>
      rw [fifoDelete, dif_neg guard]
      trivial

theorem Counts.sequential_step (counts : Counts queue arrived given) (op : FifoOp) :
    Sequential arrived given (fifoStep queue op).2 := by
  cases op with
  | add id => trivial
  | send => exact counts.sequential_fifoVerdict .accept
  | drop => exact counts.sequential_fifoVerdict .drop
  | delete => exact counts.sequential_fifoDelete

/-- The verdicts of a run name consecutive ids. -/
theorem Counts.sequential_run {ops : List FifoOp} (counts : Counts queue arrived given) :
    Sequential arrived given (fifoRun queue ops).2 := by
  induction ops generalizing queue arrived given with
  | nil => trivial
  | cons op ops ih =>
      rw [fifoRun]
      exact sequential_append.mpr ⟨counts.sequential_step op, ih (counts.step op)⟩

end

/-- The ids that a run announces. -/
def idsOf (ops : List FifoOp) : List UInt32 :=
  ops.filterMap fun
    | .add id => some id
    | _ => none

theorem announcedIds_run (queue : Fifo) (ops : List FifoOp) :
    announcedIds (fifoRun queue ops).2 = idsOf ops := by
  induction ops generalizing queue with
  | nil => rfl
  | cons op ops ih =>
      rw [fifoRun, announcedIds_append, ih]
      cases op with
      | add id => rfl
      | send =>
          rw [fifoStep, announcedIds_verdicts]
          rfl
      | drop =>
          rw [fifoStep, announcedIds_verdicts]
          rfl
      | delete =>
          rw [fifoStep, announcedIds_verdicts]
          rfl

/-! ### The ids of the kernel -/

/-- Every verdict names a packet that was announced before and has had no verdict before. -/
def NamesHeld (events : List FifoEvent) : Prop :=
  ∀ before v after, events = before ++ .verdict v :: after →
    v.id ∈ announcedIds before ∧ v.id ∉ (verdictsOf before).map Verdict.id

/-- Every announced packet has had exactly one verdict. -/
def SettledOnce (events : List FifoEvent) : Prop :=
  ∀ id ∈ announcedIds events, ((verdictsOf events).map Verdict.id).count id = 1

/-- A queue that gives no verdict any more. -/
def Drained (queue : Fifo) : Prop := (fifoSendPacket queue).2 = []

/-- A run follows the kernel's ids: its verdicts name held packets, and when it is drained every packet
    has had its verdict. -/
def IdsFollowed (qh : Option QueueHandle) (ops : List FifoOp) : Prop :=
  NamesHeld (fifoRun { fifoInit with qh := qh } ops).2 ∧
    ∀ more, idsOf more = [] → Drained (fifoRun { fifoInit with qh := qh } (ops ++ more)).1 →
      SettledOnce (fifoRun { fifoInit with qh := qh } (ops ++ more)).2

/-- The ids 1, 2, ..., n. -/
def firstIds (n : Nat) : List UInt32 := (List.range' 1 n).map packetId

theorem firstIds_split {m n : Nat} (within : m ≤ n) :
    firstIds n = firstIds m ++ (List.range' (1 + m) (n - m)).map packetId := by
  rw [firstIds, firstIds, ← List.map_append, List.range'_append_1, Nat.add_sub_cancel' within]

theorem firstIds_increasing {n : Nat} (small : n < 2 ^ 32) : (firstIds n).Pairwise (· < ·) := by
  rw [firstIds, List.pairwise_map]
  refine List.Pairwise.imp_of_mem ?_ (List.pairwise_lt_range' (s := 1) (n := n))
  intro a b inside inside' below
  rw [List.mem_range'_1] at inside inside'
  rw [UInt32.lt_iff_toNat_lt, packetId_toNat, packetId_toNat, Nat.mod_eq_of_lt (by omega),
    Nat.mod_eq_of_lt (by omega)]
  exact below

theorem nodup_of_increasing {ids : List UInt32} (increasing : ids.Pairwise (· < ·)) : ids.Nodup :=
  increasing.imp fun below => UInt32.ne_of_lt below

theorem mem_firstIds {n k : Nat} (small : n < 2 ^ 32) (isId : k < 2 ^ 32) :
    packetId k ∈ firstIds n ↔ 1 ≤ k ∧ k ≤ n := by
  rw [firstIds, List.mem_map]
  constructor
  · rintro ⟨j, inside, same⟩
    rw [List.mem_range'_1] at inside
    have value := congrArg UInt32.toNat same
    rw [packetId_toNat, packetId_toNat, Nat.mod_eq_of_lt (by omega), Nat.mod_eq_of_lt isId] at value
    omega
  · rintro ⟨positive, within⟩
    exact ⟨k, List.mem_range'_1.mpr ⟨positive, by omega⟩, rfl⟩

/-- The ids 1, 2, ..., n increase only while they do not wrap. -/
theorem small_of_increasing {n : Nat} (increasing : (firstIds n).Pairwise (· < ·)) : n < 2 ^ 32 := by
  by_contra large
  obtain ⟨m, rfl⟩ : ∃ m, n = m + 1 := ⟨n - 1, by omega⟩
  rw [firstIds, List.range'_succ, List.map_cons, List.pairwise_cons] at increasing
  have wrapped : packetId (2 ^ 32) ∈ (List.range' (1 + 1) m).map packetId :=
    List.mem_map_of_mem (List.mem_range'_1.mpr ⟨by omega, by omega⟩)
  have below := UInt32.lt_iff_toNat_lt.mp (increasing.1 _ wrapped)
  rw [packetId_toNat (2 ^ 32), Nat.mod_self] at below
  omega

/-- Increasing ids that all are among the first n, and at least n of them, are the first n. -/
theorem eq_firstIds {ids : List UInt32} {n : Nat} (small : n < 2 ^ 32)
    (increasing : ids.Pairwise (· < ·)) (within : ids ⊆ firstIds n) (enough : n ≤ ids.length) :
    ids = firstIds n := by
  have length : (firstIds n).length = n := by rw [firstIds, List.length_map, List.length_range']
  have perm : ids.Perm (firstIds n) :=
    (List.subperm_of_subset (nodup_of_increasing increasing) within).perm_of_length_le (by
      rw [length]
      exact enough)
  apply perm.eq_of_pairwise _ increasing (firstIds_increasing small)
  intro a b _ _ below above
  exact absurd above (UInt32.lt_asymm below)

section

variable {qh : Option QueueHandle} {ops : List FifoOp}

/-- Over a run that announces the first ids, verdicts name held packets. -/
theorem namesHeld_of_firstIds {n : Nat} (small : n < 2 ^ 32) (first : idsOf ops = firstIds n) :
    NamesHeld (fifoRun { fifoInit with qh := qh } ops).2 := by
  intro before v after split
  have announced := announcedIds_run { fifoInit with qh := qh } ops
  rw [split, announcedIds_append, first] at announced
  have sequential := @Counts.sequential_run _ 0 0 ops (Counts.init qh)
  rw [split] at sequential
  obtain ⟨earlier, named, held, _⟩ := sequential_append.mp sequential
  rw [Nat.zero_add, Nat.zero_add] at held
  rw [Nat.zero_add] at named
  -- What was announced before are the first ids, up to the number of announcements.
  have isPrefix : announcedIds before <+: firstIds n := ⟨_, announced⟩
  have atMost : (announcedIds before).length ≤ n := by
    have bound := isPrefix.length_le
    rw [firstIds, List.length_map, List.length_range'] at bound
    exact bound
  have before_eq : announcedIds before = firstIds (announcedIds before).length := by
    rw [firstIds_split atMost] at announced
    refine (List.append_inj announced ?_).1
    rw [firstIds, List.length_map, List.length_range']
  refine ⟨?_, ?_⟩
  · rw [before_eq, named]
    exact (mem_firstIds (by omega) (by omega)).mpr ⟨by omega, by omega⟩
  · rw [earlier.ids, Nat.zero_add, named]
    exact fun again => absurd ((mem_firstIds (by omega) (by omega)).mp again).2 (by omega)

/-- Once it is drained, such a run has settled every packet. -/
theorem settledOnce_of_firstIds {n : Nat} (small : n < 2 ^ 32) (first : idsOf ops = firstIds n)
    (drained : Drained (fifoRun { fifoInit with qh := qh } ops).1) :
    SettledOnce (fifoRun { fifoInit with qh := qh } ops).2 := by
  have counts := @Counts.run _ 0 0 ops (Counts.init qh)
  have sequential := @Counts.sequential_run _ 0 0 ops (Counts.init qh)
  have announced := announcedIds_run { fifoInit with qh := qh } ops
  rw [first] at announced
  have length : (announcedIds (fifoRun { fifoInit with qh := qh } ops).2).length = n := by
    rw [announced, firstIds, List.length_map, List.length_range']
  rw [length, Nat.zero_add, Nat.zero_add] at counts
  -- The guard fails below the wrap, so nothing is left.
  have stopped : ¬(verdictsOf (fifoRun { fifoInit with qh := qh } ops).2).length < n := by
    intro left
    have guard := counts.guard_iff.mpr ((WrapCounter.wrapped_lt_iff counts.ordered small).mpr left)
    exact (fifoSendPacket_verdicts _).mpr guard drained
  have all : (verdictsOf (fifoRun { fifoInit with qh := qh } ops).2).length = n :=
    Nat.le_antisymm counts.ordered (Nat.le_of_not_lt stopped)
  intro id member
  rw [sequential.ids, all]
  rw [announced] at member
  exact List.count_eq_one_of_mem (nodup_of_increasing (firstIds_increasing small)) member

theorem fifoDelete_drained (queue : Fifo) : Drained (fifoDelete queue).1 := by
  induction queue using fifoDelete.induct with
  | case1 queue guard ih =>
      rw [fifoDelete, dif_pos guard]
      exact ih
  | case2 queue guard =>
      rw [fifoDelete, dif_neg guard]
      exact congrArg Prod.snd (if_neg guard)

/-- A run that settles every announced packet announces the first ids. -/
theorem firstIds_of_settledOnce (increasing : (idsOf ops).Pairwise (· < ·))
    (settled : SettledOnce (fifoRun { fifoInit with qh := qh } ops).2) :
    idsOf ops = firstIds (idsOf ops).length := by
  have counts := @Counts.run _ 0 0 ops (Counts.init qh)
  have sequential := @Counts.sequential_run _ 0 0 ops (Counts.init qh)
  have announced := announcedIds_run { fifoInit with qh := qh } ops
  rw [announced, Nat.zero_add, Nat.zero_add] at counts
  have ids := sequential.ids
  rw [Nat.zero_add] at ids
  generalize given_eq : (verdictsOf (fifoRun { fifoInit with qh := qh } ops).2).length = given at *
  have within : idsOf ops ⊆ firstIds given := by
    intro id member
    have once := settled id (announced ▸ member)
    rw [ids] at once
    exact List.count_pos_iff.mp (by rw [firstIds, once]; exact Nat.one_pos)
  have same := eq_firstIds counts.cycle increasing within counts.ordered
  have length := congrArg List.length same
  rw [firstIds, List.length_map, List.length_range'] at length
  rw [length]
  exact same

end

/-- For increasing ids, a run of announcements, sends, drops and deletions follows the kernel's ids if
    and only if the announced ids are 1, 2, ..., n, none skipped. -/
theorem ids_followed_iff (qh : Option QueueHandle) (ops : List FifoOp)
    (increasing : (idsOf ops).Pairwise (· < ·)) :
    IdsFollowed qh ops ↔ idsOf ops = firstIds (idsOf ops).length := by
  have sameIds : ∀ more, idsOf more = [] → idsOf (ops ++ more) = idsOf ops := by
    intro more none_
    rw [idsOf, List.filterMap_append, ← idsOf, ← idsOf, none_, List.append_nil]
  constructor
  · rintro ⟨_, settled⟩
    have drained : Drained (fifoRun { fifoInit with qh := qh } (ops ++ [.delete])).1 := by
      rw [fifoRun_append]
      exact fifoDelete_drained _
    have finished := firstIds_of_settledOnce (by rw [sameIds [.delete] rfl]; exact increasing)
      (settled [.delete] rfl drained)
    rw [sameIds [.delete] rfl] at finished
    exact finished
  · intro first
    have small := small_of_increasing (first ▸ increasing)
    refine ⟨namesHeld_of_firstIds small first, ?_⟩
    intro more none_ drained
    exact settledOnce_of_firstIds small (by rw [sameIds more none_]; exact first) drained

theorem ids_followed_without_gap : IdsFollowed (some 7) [.add 1, .send, .add 2, .add 3, .drop] :=
  (ids_followed_iff (some 7) [.add 1, .send, .add 2, .add 3, .drop] (by decide)).mpr (by decide)

/-- The kernel drops the notification of packet 2: the second verdict names packet 2, which was not
    announced, and packet 3 never gets one. -/
theorem ids_drift_after_gap : ¬IdsFollowed (some 7) [.add 1, .add 3, .send, .send] := by
  rintro ⟨named, _⟩
  have second := named [.announced 1, .announced 3, .verdict ⟨some 7, 1, .accept⟩]
    ⟨some 7, 2, .accept⟩ [] rfl
  exact absurd second.1 (by decide)

end Bprd
