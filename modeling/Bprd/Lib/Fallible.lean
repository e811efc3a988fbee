/-
Module: Bprd.Lib.Fallible
Layer: Lib
Purpose: What is known when a computation that may fail has succeeded: a sequence of two succeeded in both
  parts, and a traversal succeeded at every element, which relates the two lists position by position.
Imports: Mathlib.Data.List.Forall2
Trusted boundary: none
Main exports: Fallible.bind_eq_ok_iff, Fallible.mapM_eq_ok_iff, Fallible.mapM_eq_some_iff,
  Fallible.mapM_map_eq, Fallible.exists_mapM, Fallible.related_getElem?, Fallible.related_mem,
  Fallible.related_mem_left
-/
import Mathlib.Data.List.Forall2

namespace Fallible

variable {ε α β γ : Type}

theorem ok_bind (a : α) (f : α → Except ε β) : (Except.ok a >>= f) = f a := rfl

theorem bind_eq_ok_iff {x : Except ε α} {f : α → Except ε β} {b : β} :
    x >>= f = .ok b ↔ ∃ a, x = .ok a ∧ f a = .ok b := by
  cases x with
  | error e =>
      constructor
      · intro ran
        cases ran
      · rintro ⟨_, ok, _⟩
        cases ok
  | ok a =>
      constructor
      · intro ran
        exact ⟨a, rfl, ran⟩
      · rintro ⟨_, ok, ran⟩
        cases ok
        exact ran

/-- A traversal succeeds exactly when every element does, with the results in order. -/
theorem mapM_eq_ok_iff {f : α → Except ε β} : ∀ {xs : List α} {ys : List β},
    xs.mapM f = .ok ys ↔ List.Forall₂ (fun x y => f x = .ok y) xs ys
  | [], ys => by
      rw [List.mapM_nil, List.forall₂_nil_left_iff]
      constructor
      · intro ran
        cases ran
        rfl
      · rintro rfl
        rfl
  | x :: xs, ys => by
      rw [List.mapM_cons, bind_eq_ok_iff, List.forall₂_cons_left_iff]
      constructor
      · rintro ⟨y, head, tail⟩
        obtain ⟨ys', rest, result⟩ := bind_eq_ok_iff.mp tail
        cases result
        exact ⟨y, ys', head, mapM_eq_ok_iff.mp rest, rfl⟩
      · rintro ⟨y, ys', head, rest, rfl⟩
        exact ⟨y, head, bind_eq_ok_iff.mpr ⟨ys', mapM_eq_ok_iff.mpr rest, rfl⟩⟩

theorem mapM_eq_some_iff {f : α → Option β} : ∀ {xs : List α} {ys : List β},
    xs.mapM f = some ys ↔ List.Forall₂ (fun x y => f x = some y) xs ys
  | [], ys => by
      rw [List.mapM_nil, List.forall₂_nil_left_iff]
      constructor
      · intro ran
        cases ran
        rfl
      · rintro rfl
        rfl
  | x :: xs, ys => by
      rw [List.mapM_cons, Option.bind_eq_bind, Option.bind_eq_some_iff, List.forall₂_cons_left_iff]
      constructor
      · rintro ⟨y, head, tail⟩
        obtain ⟨ys', rest, result⟩ := Option.bind_eq_some_iff.mp tail
        cases result
        exact ⟨y, ys', head, mapM_eq_some_iff.mp rest, rfl⟩
      · rintro ⟨y, ys', head, rest, rfl⟩
        exact ⟨y, head, Option.bind_eq_some_iff.mpr ⟨ys', mapM_eq_some_iff.mpr rest, rfl⟩⟩

/-- A projection that the function preserves is preserved by the traversal. -/
theorem mapM_map_eq {f : α → Except ε β} {p : α → γ} {q : β → γ}
    (keeps : ∀ {x y}, f x = .ok y → q y = p x) {xs : List α} {ys : List β}
    (ran : xs.mapM f = .ok ys) : ys.map q = xs.map p := by
  have pointwise := mapM_eq_ok_iff.mp ran
  induction pointwise with
  | nil => rfl
  | cons head tail ih =>
      rw [List.map_cons, List.map_cons, keeps head, ih (mapM_eq_ok_iff.mpr tail)]

/-- A traversal succeeds when the function does at every element. -/
theorem exists_mapM {f : α → Except ε β} : ∀ {xs : List α},
    (∀ x ∈ xs, ∃ y, f x = .ok y) → ∃ ys, xs.mapM f = .ok ys
  | [], _ => ⟨[], mapM_eq_ok_iff.mpr .nil⟩
  | x :: xs, total => by
      obtain ⟨y, head⟩ := total x (List.mem_cons_self ..)
      obtain ⟨ys, tail⟩ := exists_mapM fun z member => total z (List.mem_cons_of_mem _ member)
      exact ⟨y :: ys, mapM_eq_ok_iff.mpr (.cons head (mapM_eq_ok_iff.mp tail))⟩

/-- A traversal fails with the error of one of its elements. -/
theorem mapM_error {f : α → Except ε β} {e : ε} : ∀ {xs : List α},
    xs.mapM f = .error e → ∃ x ∈ xs, f x = .error e
  | [], failed => by cases failed
  | x :: xs, failed => by
      rw [List.mapM_cons] at failed
      cases head : f x with
      | error e' =>
          rw [head] at failed
          cases failed
          exact ⟨x, List.mem_cons_self .., head⟩
      | ok y =>
          rw [head, ok_bind] at failed
          cases tail : xs.mapM f with
          | error e' =>
              rw [tail] at failed
              cases failed
              obtain ⟨z, member, here⟩ := mapM_error tail
              exact ⟨z, List.mem_cons_of_mem _ member, here⟩
          | ok ys =>
              rw [tail] at failed
              cases failed

section Related

variable {R : α → β → Prop}

/-- The partner of an element of the second list. -/
theorem related_getElem? : ∀ {xs : List α} {ys : List β}, List.Forall₂ R xs ys →
    ∀ {i : Nat} {y : β}, ys[i]? = some y → ∃ x, xs[i]? = some x ∧ R x y
  | _, _, .nil, i, y, at_i => by
      cases at_i
  | x :: _, _, .cons head tail, 0, y, at_i => by
      cases at_i
      exact ⟨x, rfl, head⟩
  | _ :: _, _, .cons _ tail, i + 1, y, at_i => related_getElem? tail at_i

theorem related_mem {xs : List α} {ys : List β} (related : List.Forall₂ R xs ys) {y : β}
    (member : y ∈ ys) : ∃ x ∈ xs, R x y := by
  obtain ⟨i, at_i⟩ := List.mem_iff_getElem?.mp member
  obtain ⟨x, at_i', holds⟩ := related_getElem? related at_i
  exact ⟨x, List.mem_of_getElem? at_i', holds⟩

theorem related_mem_left {xs : List α} {ys : List β} (related : List.Forall₂ R xs ys) {x : α}
    (member : x ∈ xs) : ∃ y ∈ ys, R x y :=
  related_mem (R := fun y x => R x y) related.flip member

end Related

end Fallible
