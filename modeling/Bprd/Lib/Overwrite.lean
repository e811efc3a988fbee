/-
Module: Bprd.Lib.Overwrite
Layer: Lib
Purpose: A register that every delivery overwrites, against the newest message delivered. Messages are named
  by stamps in a linear order, and may be delivered in any order and any number of times. The register
  follows the newest message all along exactly when no delivery is outdated: none brings, behind a newer
  message, another value than that one (`follows_iff`).
Imports: Mathlib.Data.List.Basic, Mathlib.Data.List.Induction, Mathlib.Order.MinMax
Trusted boundary: none
Main exports: Overwrite.shown, Overwrite.newest, Overwrite.NoneOutdated, Overwrite.max?_concat,
  Overwrite.follows_concat_iff, Overwrite.follows_iff
-/
import Mathlib.Data.List.Basic
import Mathlib.Data.List.Induction
import Mathlib.Order.MinMax

namespace Overwrite

variable {κ β : Type} [LinearOrder κ]

/-- The value that the register shows: that of the last delivery. -/
def shown (value : κ → β) (deliveries : List κ) : Option β := deliveries.getLast?.map value

/-- The value of the newest message delivered. -/
def newest (value : κ → β) (deliveries : List κ) : Option β := deliveries.max?.map value

/-- A delivery after some others is outdated if one of them is newer and the newest has another value. -/
def Outdated (value : κ → β) (earlier : List κ) (k : κ) : Prop :=
  ∃ m, earlier.max? = some m ∧ k < m ∧ value k ≠ value m

/-- No delivery is outdated when it comes. -/
def NoneOutdated (value : κ → β) (deliveries : List κ) : Prop :=
  ∀ earlier k later, deliveries = earlier ++ k :: later → ¬Outdated value earlier k

variable {value value' : κ → β} {deliveries : List κ} {k : κ}

/-! ### One more delivery -/

omit [LinearOrder κ] in
theorem shown_concat : shown value (deliveries ++ [k]) = some (value k) := by
  rw [shown, List.getLast?_concat, Option.map_some]

theorem max?_concat : (deliveries ++ [k]).max? = some (deliveries.max?.elim k (max · k)) := by
  cases deliveries with
  | nil => rfl
  | cons x deliveries => rw [List.cons_append, List.max?_cons', List.foldl_append, List.max?_cons']; rfl

/-- After one more delivery the register shows the newest value, unless the delivery is outdated. -/
theorem follows_concat_iff :
    shown value (deliveries ++ [k]) = newest value (deliveries ++ [k]) ↔
      ¬Outdated value deliveries k := by
  rw [shown_concat, newest, max?_concat, Option.map_some, Option.some_inj]
  unfold Outdated
  cases before : deliveries.max? with
  | none => simp
  | some m =>
      by_cases older : k < m
      · simp [older, max_eq_left (le_of_lt older)]
      · simp [older, max_eq_right (not_lt.mp older)]

theorem noneOutdated_nil : NoneOutdated value [] := by
  intro earlier k later shape
  exact absurd shape.symm (List.append_ne_nil_of_right_ne_nil _ (List.cons_ne_nil _ _))

theorem noneOutdated_concat_iff :
    NoneOutdated value (deliveries ++ [k]) ↔
      NoneOutdated value deliveries ∧ ¬Outdated value deliveries k := by
  constructor
  · intro noneOutdated
    refine ⟨?_, noneOutdated deliveries k [] rfl⟩
    rintro earlier k' later rfl
    apply noneOutdated earlier k' (later ++ [k])
    rw [List.append_assoc, List.cons_append]
  · rintro ⟨before, last⟩ earlier k' later shape
    rcases List.eq_nil_or_concat' later with rfl | ⟨later', k'', rfl⟩
    · obtain ⟨rfl, same⟩ := List.append_inj' shape rfl
      cases same
      exact last
    · rw [← List.cons_append, ← List.append_assoc] at shape
      exact before earlier k' later' (List.append_inj' shape rfl).1

/-! ### Sequences of deliveries -/

/-- The register shows the newest value after every delivery exactly when no delivery is outdated. -/
theorem follows_iff :
    (∀ sofar, sofar <+: deliveries → shown value sofar = newest value sofar) ↔
      NoneOutdated value deliveries := by
  induction deliveries using List.reverseRecOn with
  | nil =>
      refine iff_of_true ?_ noneOutdated_nil
      intro sofar isPrefix
      rw [List.prefix_nil.mp isPrefix]
      rfl
  | append_singleton deliveries k ih =>
      rw [noneOutdated_concat_iff, ← ih, ← follows_concat_iff]
      constructor
      · intro follows
        exact ⟨fun sofar isPrefix => follows sofar (isPrefix.trans (List.prefix_append _ _)),
          follows _ (List.prefix_refl _)⟩
      · rintro ⟨before, last⟩ sofar isPrefix
        rcases List.prefix_concat_iff.mp isPrefix with rfl | shorter
        · exact last
        · exact before sofar shorter

/-! ### Values that agree on the deliveries -/

omit [LinearOrder κ] in
theorem shown_congr (same : ∀ k ∈ deliveries, value k = value' k) :
    shown value deliveries = shown value' deliveries := by
  rw [shown, shown]
  cases last : deliveries.getLast? with
  | none => rfl
  | some k => rw [Option.map_some, Option.map_some, same k (List.mem_of_getLast? last)]

theorem newest_congr (same : ∀ k ∈ deliveries, value k = value' k) :
    newest value deliveries = newest value' deliveries := by
  rw [newest, newest]
  cases largest : deliveries.max? with
  | none => rfl
  | some k => rw [Option.map_some, Option.map_some, same k (List.max?_mem largest)]

end Overwrite
