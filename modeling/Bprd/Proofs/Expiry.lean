/-
Module: Bprd.Proofs.Expiry
Layer: Proofs
Purpose: When the expiry of a neighbour is exact. The elapsed time and the timeout are both kept modulo
  2^32 microseconds, so the test compares remainders: it is exact when both lie in the same block of 2^32
  microseconds, and otherwise only when the remainders happen to be in the right order.
Imports: Bprd.Model.Config, Bprd.Proofs.HelloTable, Bprd.Lib.WrapCounter
Trusted boundary: none
Main exports: elapsedUsec, condNExpired_iff, mem_listRemoveCond_iff, expiry_exact_iff,
  stale_neighbor_kept
-/
import Bprd.Model.Config
import Bprd.Proofs.HelloTable
import Bprd.Lib.WrapCounter

namespace Bprd

/-- The microseconds from one clock reading to another. -/
def elapsedUsec (t0 t1 : Timeval) : Int :=
  (t1.tvSec - t0.tvSec) * 1000000 + (t1.tvUsec - t0.tvUsec)

theorem toNat_ofInt32 (x : Int) : ((UInt32.ofInt x).toNat : Int) = x % 2 ^ 32 := by
  have bound : (x % 2 ^ 32).toNat < 2 ^ 32 := by omega
  show ((UInt32.ofNat (x % 2 ^ 32).toNat).toNat : Int) = x % 2 ^ 32
  rw [UInt32.toNat_ofNat', Nat.mod_eq_of_lt bound]
  omega

/-- The timeout is five intervals, modulo 2^32. -/
theorem neighborTimeoutOf_option (m : Int) :
    ((neighborTimeoutOf (helloIntervalOption m)).toNat : Int) = 5 * m * 1000 % 2 ^ 32 := by
  have value := toNat_ofInt32 m
  rw [neighborTimeoutOf, helloIntervalOption, UInt32.toNat_mul, UInt32.toNat_mul]
  have five : bprdDefaultNeighborTimeout.toNat = 5 := rfl
  have thousand : usecPerMsec.toNat = 1000 := rfl
  rw [five, thousand]
  omega

/-- The test compares the elapsed time, modulo 2^32, with the timeout. -/
theorem condNExpired_iff (timeout : UInt32) (now : Timeval) (n : Neighbor) :
    condNExpired timeout now n = true ↔
      (timeout.toNat : Int) < elapsedUsec n.updateTime now % 2 ^ 32 := by
  unfold condNExpired
  rw [decide_eq_true_iff, gt_iff_lt, UInt32.lt_iff_toNat_lt, ← Int.ofNat_lt, toNat_ofInt32,
    toNat_ofInt32, Int.emod_add_emod]
  rfl

/-- A refresh removes the neighbour at a position exactly when its test holds at the reading for that
    position. -/
theorem mem_listRemoveCond_iff {cond : Nat → Neighbor → Bool} :
    ∀ {nlist : List Neighbor} {k i : Nat} {n : Neighbor}, (nlist.map Neighbor.addr).Nodup →
      nlist[i]? = some n → (n ∈ listRemoveCond cond k nlist ↔ cond (k + i) n = false)
  | [], k, i, n, _, at_i => by cases at_i
  | m :: nlist, k, i, n, keyed, at_i => by
      rw [List.map_cons, List.nodup_cons] at keyed
      cases i with
      | zero =>
          cases at_i
          have absent : m ∉ listRemoveCond cond (k + 1) nlist := fun kept =>
            keyed.1 (List.mem_map_of_mem ((listRemoveCond_sublist cond (k + 1) nlist).subset kept))
          rw [listRemoveCond, Nat.add_zero]
          split
          · rename_i removed
            exact iff_of_false absent fun kept => Bool.false_ne_true (kept.symm.trans removed)
          · rename_i kept
            exact iff_of_true (List.mem_cons_self ..) (Bool.eq_false_iff.mpr kept)
      | succ i =>
          have later := @mem_listRemoveCond_iff cond nlist (k + 1) i n keyed.2 at_i
          have other : n ≠ m := fun same =>
            keyed.1 (same ▸ List.mem_map_of_mem (List.mem_of_getElem? at_i))
          rw [Nat.add_right_comm, Nat.add_assoc] at later
          rw [listRemoveCond, ← later]
          split
          · rfl
          · rw [List.mem_cons]
            exact or_iff_right other

/-- For an interval of `m` milliseconds, a refresh removes a neighbour exactly when it has been silent for
    more than five intervals, if and only if the timeout and the silence lie in the same block of 2^32
    microseconds, or the later of the two also has the remainder that the test needs. -/
theorem expiry_exact_iff {nlist : List Neighbor} {i : Nat} {n : Neighbor}
    (keyed : (nlist.map Neighbor.addr).Nodup) (at_i : nlist[i]? = some n) (m : Int)
    (clock : Nat → Timeval) :
    (n ∉ ntableRefresh (neighborTimeoutOf (helloIntervalOption m)) clock nlist ↔
        5 * m * 1000 < elapsedUsec n.updateTime (clock i)) ↔
      5 * m * 1000 / 2 ^ 32 = elapsedUsec n.updateTime (clock i) / 2 ^ 32 ∨
        5 * m * 1000 / 2 ^ 32 < elapsedUsec n.updateTime (clock i) / 2 ^ 32 ∧
          5 * m * 1000 % 2 ^ 32 < elapsedUsec n.updateTime (clock i) % 2 ^ 32 ∨
        elapsedUsec n.updateTime (clock i) / 2 ^ 32 < 5 * m * 1000 / 2 ^ 32 ∧
          elapsedUsec n.updateTime (clock i) % 2 ^ 32 ≤ 5 * m * 1000 % 2 ^ 32 := by
  have removed : n ∉ ntableRefresh (neighborTimeoutOf (helloIntervalOption m)) clock nlist ↔
      5 * m * 1000 % 2 ^ 32 < elapsedUsec n.updateTime (clock i) % 2 ^ 32 := by
    rw [ntableRefresh, mem_listRemoveCond_iff keyed at_i, Nat.zero_add, Bool.not_eq_false,
      condNExpired_iff, neighborTimeoutOf_option]
  rw [removed]
  exact WrapCounter.emod_lt_emod_iff_lt_iff (by omega)

/-- A neighbour heard at time 0. -/
def silentNeighbor : Neighbor :=
  { addr := host4 [10, 0, 0, 2], bidir := 1, updateTime := ⟨0, 0⟩, clist := [] }

/-- With the interval of 100 ms, a neighbour that has been silent for 0.6 s is removed. -/
theorem expiry_exact_after_silence :
    silentNeighbor ∉ ntableRefresh (neighborTimeoutOf (helloIntervalOption 100))
      (fun _ => ⟨0, 600000⟩) [silentNeighbor] :=
  ((@expiry_exact_iff [silentNeighbor] 0 silentNeighbor (by decide) rfl 100
    fun _ => ⟨0, 600000⟩).mpr (by decide)).mpr (by decide)

/-- After 4295 s of silence it is kept: the elapsed time wraps to 32704 microseconds. -/
theorem stale_neighbor_kept :
    silentNeighbor ∈ ntableRefresh (neighborTimeoutOf (helloIntervalOption 100)) (fun _ => ⟨4295, 0⟩)
      [silentNeighbor] ∧
      5 * 100 * 1000 < elapsedUsec silentNeighbor.updateTime ⟨4295, 0⟩ := by
  decide

end Bprd
