/-
Module: Bprd.Proofs.Release
Layer: Proofs
Purpose: Packet release against stored differentials. A release sends from the first commodity with the
  largest stored differential, as many packets as its count, the bound of the differential and the
  counters allow; differentials do not change between updates, so every release of a period has the same
  target.
Imports: Bprd.Proofs.RouterUpdate
Trusted boundary: none
Main exports: shown, sendLoop_accepts, releaseSearch_spec, IsTarget, storedDiffs,
  backloggerPacketRelease_target
-/
import Bprd.Proofs.RouterUpdate

namespace Bprd

/-! ### What the counters show -/

/-- The packets of a queue as its counters show them. -/
def shown (queue : Fifo) : Nat := queue.tail.toNat - queue.head.toNat

theorem toNat_fifoLength (queue : Fifo) : (fifoLength queue).toNat = shown queue := by
  unfold fifoLength shown
  split
  · rename_i guard
    exact UInt32.toNat_sub_of_le _ _ (UInt32.le_of_lt guard)
  · rename_i noGuard
    have above : queue.tail.toNat ≤ queue.head.toNat :=
      UInt32.le_iff_toNat_le.mp (UInt32.not_lt.mp noGuard)
    rw [UInt32.toNat_zero]
    omega

theorem shown_pos_iff {queue : Fifo} : 0 < shown queue ↔ queue.head < queue.tail := by
  rw [UInt32.lt_iff_toNat_lt, shown]
  omega

theorem fifoVerdict_shown (verdict : NfVerdict) (queue : Fifo) :
    (fifoVerdict verdict queue).2.length = min 1 (shown queue) ∧
      shown (fifoVerdict verdict queue).1 = shown queue - 1 := by
  unfold fifoVerdict
  by_cases guard : queue.head < queue.tail
  · have some_shown := shown_pos_iff.mpr guard
    rw [if_pos guard]
    refine ⟨?_, ?_⟩
    · rw [List.length_singleton]
      omega
    · simp only [shown, fifo_head_succ guard]
      omega
  · have none_shown : shown queue = 0 := by
      by_contra some_shown
      exact guard (shown_pos_iff.mp (Nat.pos_of_ne_zero some_shown))
    rw [if_neg guard, none_shown]
    exact ⟨rfl, rfl⟩

/-- A loop of sends gives as many verdicts as asked for, as long as packets are shown. -/
theorem sendLoop_shown : ∀ (count : Nat) (queue : Fifo),
    (sendLoop count queue).2.length = min count (shown queue) ∧
      shown (sendLoop count queue).1 = shown queue - count
  | 0, queue => by
      rw [sendLoop]
      exact ⟨(Nat.zero_min _).symm, rfl⟩
  | count + 1, queue => by
      obtain ⟨sentLength, sentShown⟩ := fifoVerdict_shown .accept queue
      obtain ⟨restLength, restShown⟩ := sendLoop_shown count (fifoSendPacket queue).1
      simp only [fifoSendPacket] at restLength restShown
      rw [sendLoop]
      simp only [fifoSendPacket, List.length_append, sentLength, restLength, restShown, sentShown]
      omega

theorem sendLoop_accepts : ∀ (count : Nat) (queue : Fifo),
    ∀ v ∈ (sendLoop count queue).2, v.qh = queue.qh ∧ v.verdict = .accept
  | 0, queue, v, member => by
      cases member
  | count + 1, queue, v, member => by
      have sent : ∀ v ∈ (fifoSendPacket queue).2, v.qh = queue.qh ∧ v.verdict = .accept := by
        unfold fifoSendPacket fifoVerdict
        split <;> simp
      have handle : (fifoSendPacket queue).1.qh = queue.qh := (fifoVerdict_qh .accept queue).1
      rcases List.mem_append.mp member with early | late
      · exact sent v early
      · have rest := sendLoop_accepts count (fifoSendPacket queue).1 v late
        exact ⟨rest.1.trans handle, rest.2⟩

theorem toNat_releaseCount (d count : UInt32) :
    (releaseCount d count).toNat = min count.toNat ((d + 1) / 2).toNat := by
  unfold releaseCount
  split
  · rename_i capped
    have := UInt32.lt_iff_toNat_lt.mp capped
    omega
  · rename_i asked
    have := UInt32.le_iff_toNat_le.mp (UInt32.not_lt.mp asked)
    omega

theorem releaseBound_eq {d : UInt32} (small : d.toNat < 2 ^ 32 - 1) :
    ((d + 1) / 2).toNat = (d.toNat + 1) / 2 := by
  have fits : d.toNat + 1 < 4294967296 := by omega
  rw [UInt32.toNat_div, UInt32.toNat_add]
  simp [Nat.mod_eq_of_lt fits]

/-! ### The target of a release -/

/-- Position `i` holds the first commodity with the largest stored differential, which is `d` > 0. -/
structure IsTarget (diffs : List UInt32) (i : Nat) (d : UInt32) : Prop where
  at_i : diffs[i]? = some d
  positive : 0 < d
  upper : ∀ d' ∈ diffs, d' ≤ d
  first : ∀ j < i, ∀ d', diffs[j]? = some d' → d' < d

/-- A smaller differential in front leaves the target in place. -/
theorem IsTarget.cons {diffs : List UInt32} {i : Nat} {d first : UInt32} (target : IsTarget diffs i d)
    (smaller : first < d) : IsTarget (first :: diffs) (i + 1) d where
  at_i := target.at_i
  positive := target.positive
  upper := by
    intro d' member
    rcases List.mem_cons.mp member with rfl | behind
    · exact UInt32.le_of_lt smaller
    · exact target.upper d' behind
  first := by
    intro j below d' at_j
    cases j with
    | zero =>
        cases at_j
        exact smaller
    | succ j => exact target.first j (Nat.lt_of_succ_lt_succ below) d' at_j

/-- The search over the rest of the list, from the best found so far. -/
theorem releaseSearch_spec : ∀ (clist : List Commodity) (i : Nat) (p : Option Nat) (d : UInt32),
    (releaseSearch clist i p d = (p, d) ∧ ∀ c ∈ clist, c.backdiff ≤ d) ∨
      ∃ j d', releaseSearch clist i p d = (some (i + j), d') ∧ d < d' ∧
        IsTarget (clist.map Commodity.backdiff) j d'
  | [], i, p, d => .inl ⟨rfl, by simp⟩
  | c :: clist, i, p, d => by
      rw [releaseSearch]
      by_cases better : c.backdiff > d
      · rw [if_pos better]
        rcases releaseSearch_spec clist (i + 1) (some i) c.backdiff with
          ⟨unchanged, small⟩ | ⟨j, d', found, larger, target⟩
        · refine .inr ⟨0, c.backdiff, unchanged, better, rfl, ?_, ?_, ?_⟩
          · exact UInt32.lt_of_le_of_lt (UInt32.zero_le) better
          · intro d' member
            rcases List.mem_cons.mp member with rfl | behind
            · exact UInt32.le_refl _
            · obtain ⟨f, isMember, rfl⟩ := List.mem_map.mp behind
              exact small f isMember
          · intro j below
            exact absurd below (Nat.not_lt_zero j)
        · refine .inr ⟨j + 1, d', ?_, UInt32.lt_trans better larger, target.cons larger⟩
          rw [found, Nat.add_right_comm, Nat.add_assoc]
      · rw [if_neg better]
        have small₀ : c.backdiff ≤ d := UInt32.not_lt.mp better
        rcases releaseSearch_spec clist (i + 1) p d with
          ⟨unchanged, small⟩ | ⟨j, d', found, larger, target⟩
        · refine .inl ⟨unchanged, ?_⟩
          intro f member
          rcases List.mem_cons.mp member with rfl | behind
          · exact small₀
          · exact small f behind
        · have below₀ : c.backdiff < d' := UInt32.lt_of_le_of_lt small₀ larger
          refine .inr ⟨j + 1, d', ?_, larger, target.cons below₀⟩
          rw [found, Nat.add_right_comm, Nat.add_assoc]

/-- The stored differentials of the own commodities. -/
def storedDiffs (clist : List Commodity) : List UInt32 := clist.map Commodity.backdiff

/-- There is one target at most. -/
theorem IsTarget.unique {diffs : List UInt32} {i i' : Nat} {d d' : UInt32}
    (target : IsTarget diffs i d) (target' : IsTarget diffs i' d') : i = i' ∧ d = d' := by
  have same : d = d' := UInt32.le_antisymm (target'.upper d (List.mem_of_getElem? target.at_i))
    (target.upper d' (List.mem_of_getElem? target'.at_i))
  subst same
  refine ⟨?_, rfl⟩
  rcases Nat.lt_trichotomy i i' with before | equal | after
  · exact absurd (target'.first i before d target.at_i) (UInt32.lt_irrefl d)
  · exact equal
  · exact absurd (target.first i' after d target'.at_i) (UInt32.lt_irrefl d)

/-- A release sends from the target, or does nothing when no differential is stored. -/
theorem backloggerPacketRelease_target (count : UInt32) (clist : List Commodity) :
    ((∀ d ∈ storedDiffs clist, d = 0) ∧ backloggerPacketRelease count clist = (clist, [])) ∨
      ∃ i d, IsTarget (storedDiffs clist) i d ∧
        backloggerPacketRelease count clist =
          onCommodity (onQueue (sendLoop (releaseCount d count).toNat)) i clist := by
  unfold backloggerPacketRelease
  rcases releaseSearch_spec clist 0 none 0 with ⟨nothing, small⟩ | ⟨j, d, found, _, target⟩
  · refine .inl ⟨?_, ?_⟩
    · intro d member
      obtain ⟨c, isMember, rfl⟩ := List.mem_map.mp member
      exact UInt32.le_antisymm (small c isMember) (UInt32.zero_le)
    · rw [nothing]
  · refine .inr ⟨j, d, target, ?_⟩
    rw [found, Nat.zero_add]

theorem storedDiffs_onQueue (act : Fifo → Fifo × List Verdict) (i : Nat) (clist : List Commodity) :
    storedDiffs (onCommodity (onQueue act) i clist).1 = storedDiffs clist :=
  map_onQueue (fun _ _ => rfl) act i clist

end Bprd
