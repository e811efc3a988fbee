/-
Module: Bprd.Lib.WrapCounter
Layer: Lib
Purpose: Two unbounded event counts observed only through counters that wrap at a modulus. The consumed
  count must never pass the produced count; the guard compares the wrapped counters by magnitude. The
  guard is sound at every distance (`lt_of_wrapped_lt`), and it is exact as long as neither count has
  reached the modulus (`wrapped_lt_iff`). Two counts that lie less than half a modulus apart are ordered by
  the distance between their counters (`ahead_iff`).
Imports: Mathlib.Data.Nat.ModEq
Trusted boundary: none
Main exports: WrapCounter.lt_of_wrapped_lt, WrapCounter.wrapped_lt_iff_cycle,
  WrapCounter.wrapped_lt_iff, WrapCounter.ahead_iff, WrapCounter.emod_lt_emod_iff_lt_iff
-/
import Mathlib.Data.Nat.ModEq

namespace WrapCounter

variable {modulus consumed produced : Nat}

/-- The magnitude guard on wrapped counters never passes when nothing is outstanding. -/
theorem lt_of_wrapped_lt (ordered : consumed ≤ produced)
    (guard : consumed % modulus < produced % modulus) : consumed < produced := by
  rcases Nat.lt_or_eq_of_le ordered with strict | equal
  · exact strict
  · subst equal
    exact absurd guard (Nat.lt_irrefl _)

/-- A consumer in its first cycle, less than a cycle behind: the guard passes exactly when something is
    outstanding and the produced count is still in its first cycle too. -/
theorem wrapped_lt_iff_cycle (cycle : consumed < modulus) (ordered : consumed ≤ produced)
    (near : produced - consumed < modulus) :
    consumed % modulus < produced % modulus ↔ consumed < produced ∧ produced < modulus := by
  rw [Nat.mod_eq_of_lt cycle]
  by_cases wrapped : produced < modulus
  · rw [Nat.mod_eq_of_lt wrapped]
    exact ⟨fun guard => ⟨guard, wrapped⟩, fun both => both.1⟩
  · have once : produced % modulus = produced - modulus := by
      rw [Nat.mod_eq_sub_mod (Nat.le_of_not_lt wrapped), Nat.mod_eq_of_lt (by omega)]
    rw [once]
    constructor
    · intro guard
      omega
    · intro both
      exact absurd both.2 wrapped

/-- Before either count reaches the modulus the wrapped guard is the true comparison. -/
theorem wrapped_lt_iff (ordered : consumed ≤ produced) (small : produced < modulus) :
    consumed % modulus < produced % modulus ↔ consumed < produced := by
  rw [Nat.mod_eq_of_lt small, Nat.mod_eq_of_lt (Nat.lt_of_le_of_lt ordered small)]

/-- How far the second of two wrapped counters is ahead of the first. -/
theorem ahead_add (count distance : Nat) (positive : 0 < modulus) :
    (modulus - count % modulus + (count + distance) % modulus) % modulus = distance % modulus := by
  have parts := Nat.div_add_mod count modulus
  have small := Nat.mod_lt count positive
  calc (modulus - count % modulus + (count + distance) % modulus) % modulus
      = (modulus - count % modulus + (count + distance)) % modulus := Nat.add_mod_mod _ _ _
    _ = (distance + modulus * (count / modulus + 1)) % modulus := by
        congr 1
        rw [Nat.mul_add, Nat.mul_one]
        omega
    _ = distance % modulus := Nat.add_mul_mod_self_left _ _ _

/-- How far it is ahead when it is behind: the rest of a cycle. -/
theorem ahead_of_behind (count distance : Nat) (behind : 0 < distance) (near : distance < modulus) :
    (modulus - (count + distance) % modulus + count % modulus) % modulus = modulus - distance := by
  have positive : 0 < modulus := Nat.lt_of_le_of_lt (Nat.zero_le _) near
  have parts := Nat.div_add_mod (count + distance) modulus
  have small := Nat.mod_lt (count + distance) positive
  calc (modulus - (count + distance) % modulus + count % modulus) % modulus
      = (modulus - (count + distance) % modulus + count) % modulus := Nat.add_mod_mod _ _ _
    _ = (modulus - distance + modulus * ((count + distance) / modulus)) % modulus := by
        congr 1
        omega
    _ = (modulus - distance) % modulus := Nat.add_mul_mod_self_left _ _ _
    _ = modulus - distance := Nat.mod_eq_of_lt (Nat.sub_lt positive behind)

/-- Of two counts less than half a modulus apart, the second is larger exactly when its counter is ahead by
    less than half a modulus. -/
theorem ahead_iff {first second half : Nat} (room : 2 * half ≤ modulus)
    (near : first < second + half) (near' : second < first + half) :
    0 < (modulus - first % modulus + second % modulus) % modulus ∧
        (modulus - first % modulus + second % modulus) % modulus < half ↔ first < second := by
  have positive : 0 < modulus := by omega
  rcases Nat.lt_or_ge second first with behind | ahead
  · obtain ⟨distance, rfl⟩ := Nat.exists_eq_add_of_lt behind
    rw [Nat.add_assoc, ahead_of_behind _ _ (Nat.succ_pos _) (by omega)]
    omega
  · obtain ⟨distance, rfl⟩ := Nat.exists_eq_add_of_le ahead
    rw [ahead_add _ _ positive, Nat.mod_eq_of_lt (by omega)]
    omega

/-- Comparing remainders gives the comparison of two integers when they lie in the same block, or when
    the one in the later block also has the larger remainder, and only then. -/
theorem emod_lt_emod_iff_lt_iff {block x y : Int} (positive : 0 < block) :
    (x % block < y % block ↔ x < y) ↔
      x / block = y / block ∨ x / block < y / block ∧ x % block < y % block ∨
        y / block < x / block ∧ y % block ≤ x % block := by
  have parts_x := Int.mul_ediv_add_emod x block
  have parts_y := Int.mul_ediv_add_emod y block
  rcases Int.lt_trichotomy (x / block) (y / block) with earlier | same | later
  · have below : x < y := by
      by_contra above
      have := Int.ediv_le_ediv positive (Int.not_lt.mp above)
      omega
    constructor
    · intro agree
      exact .inr (.inl ⟨earlier, agree.mpr below⟩)
    · rintro (equal | ⟨_, remainder⟩ | ⟨later, _⟩)
      · omega
      · exact iff_of_true remainder below
      · omega
  · refine iff_of_true ?_ (.inl same)
    rw [same] at parts_x
    omega
  · have above : y ≤ x := by
      by_contra below
      have := Int.ediv_le_ediv positive (Int.le_of_lt (Int.not_le.mp below))
      omega
    constructor
    · intro agree
      exact .inr (.inr ⟨later, Int.not_lt.mp (mt agree.mp (Int.not_lt.mpr above))⟩)
    · rintro (equal | ⟨earlier, _⟩ | ⟨_, remainder⟩)
      · omega
      · omega
      · exact iff_of_false (Int.not_lt.mpr remainder) (Int.not_lt.mpr above)

end WrapCounter
