/-
Module: Bprd.Lib.KeyedList
Layer: Lib
Purpose: Lists searched by a key: the first element with a key is the one that is found, and `upsert`
  changes it in place or puts a new element at the head. Both keep the keys distinct, and as far as
  lookups can tell the list is a finite map.
Imports: Mathlib.Data.List.Nodup
Trusted boundary: none
Main exports: KeyedList.lookup, KeyedList.upsert, KeyedList.Distinct, KeyedList.upsert_cases,
  KeyedList.lookup_upsert_self, KeyedList.lookup_upsert_other, KeyedList.Distinct.upsert,
  KeyedList.Distinct.lookup_eq_some_iff
-/
import Mathlib.Data.List.Nodup

namespace KeyedList

variable {α κ : Type} [DecidableEq κ] (key : α → κ)

/-- The first element with a key. -/
def lookup (k : κ) (l : List α) : Option α := l.find? fun x => decide (key x = k)

/-- The position of the first element with a key. -/
def position (k : κ) (l : List α) : Option Nat := l.findIdx? fun x => decide (key x = k)

/-- Apply `f` to the first element with key `k`, or put `f fresh` at the head when there is none. -/
def upsert (k : κ) (fresh : α) (f : α → α) (l : List α) : List α :=
  match position key k l with
  | some i => l.modify i f
  | none => f fresh :: l

/-- No two elements have the same key. -/
def Distinct (l : List α) : Prop := (l.map key).Nodup

variable {key} {k : κ} {l : List α}

theorem position_cases :
    (∃ before x after, l = before ++ x :: after ∧ (∀ y ∈ before, key y ≠ k) ∧ key x = k ∧
      position key k l = some before.length) ∨
    ((∀ y ∈ l, key y ≠ k) ∧ position key k l = none) := by
  induction l with
  | nil => exact .inr ⟨by simp, rfl⟩
  | cons x l ih =>
      by_cases here : key x = k
      · exact .inl ⟨[], x, l, rfl, by simp, here, by simp [position, List.findIdx?_cons, here]⟩
      · rcases ih with ⟨before, y, after, rfl, others, found, at_y⟩ | ⟨none_, absent⟩
        · refine .inl ⟨x :: before, y, after, rfl, ?_, found, ?_⟩
          · intro z member
            rcases List.mem_cons.mp member with rfl | inside
            · exact here
            · exact others z inside
          · rw [position] at at_y ⊢
            simp [List.findIdx?_cons, here, at_y]
        · refine .inr ⟨?_, ?_⟩
          · intro z member
            rcases List.mem_cons.mp member with rfl | inside
            · exact here
            · exact none_ z inside
          · rw [position] at absent ⊢
            simp [List.findIdx?_cons, here, absent]

theorem modify_middle (before : List α) (x : α) (after : List α) (f : α → α) :
    (before ++ x :: after).modify before.length f = before ++ f x :: after := by
  induction before with
  | nil => rfl
  | cons y before ih => simp [ih]

/-- The two outcomes of an `upsert`. -/
theorem upsert_cases (fresh : α) (f : α → α) :
    (∃ before x after, l = before ++ x :: after ∧ (∀ y ∈ before, key y ≠ k) ∧ key x = k ∧
      upsert key k fresh f l = before ++ f x :: after) ∨
    ((∀ y ∈ l, key y ≠ k) ∧ upsert key k fresh f l = f fresh :: l) := by
  rcases @position_cases _ _ _ key k l with
    ⟨before, x, after, shape, others, found, at_x⟩ | ⟨none_, absent⟩
  · refine .inl ⟨before, x, after, shape, others, found, ?_⟩
    rw [upsert, at_x, shape]
    exact modify_middle before x after f
  · refine .inr ⟨none_, ?_⟩
    rw [upsert, absent]

section Lookup

theorem lookup_middle {before after : List α} {x : α} (others : ∀ y ∈ before, key y ≠ k)
    (found : key x = k) : lookup key k (before ++ x :: after) = some x := by
  induction before with
  | nil => simp [lookup, found]
  | cons y before ih =>
      have ne : key y ≠ k := others y (List.mem_cons_self ..)
      have later := ih fun z member => others z (List.mem_cons_of_mem _ member)
      rw [lookup] at later ⊢
      simpa [ne] using later

theorem lookup_eq_none_iff : lookup key k l = none ↔ ∀ y ∈ l, key y ≠ k := by
  rw [lookup, List.find?_eq_none]
  simp

theorem lookup_key {x : α} (found : lookup key k l = some x) : key x = k := by
  simpa using List.find?_some found

theorem lookup_mem {x : α} (found : lookup key k l = some x) : x ∈ l :=
  List.mem_of_find?_eq_some found

/-- Replacing an element by one with the same key does not change what other keys find. -/
theorem lookup_replace {k' : κ} (before after : List α) {x y : α} (same : key y = key x)
    (other : key x ≠ k') :
    lookup key k' (before ++ y :: after) = lookup key k' (before ++ x :: after) := by
  have other' : key y ≠ k' := fun equal => other (same ▸ equal)
  simp [lookup, List.find?_append, other, other']

theorem lookup_upsert_self (fresh : α) {f : α → α} (keeps : ∀ x, key (f x) = key x)
    (isKey : key fresh = k) :
    lookup key k (upsert key k fresh f l) = some (f ((lookup key k l).getD fresh)) := by
  rcases @upsert_cases _ _ _ key k l fresh f with
    ⟨before, x, after, rfl, others, found, result⟩ | ⟨none_, result⟩
  · rw [result, lookup_middle others found, lookup_middle others ((keeps x).trans found)]
    rfl
  · rw [result, lookup_eq_none_iff.mpr none_]
    simp [lookup, keeps, isKey]

theorem lookup_upsert_other {k' : κ} (fresh : α) {f : α → α} (keeps : ∀ x, key (f x) = key x)
    (isKey : key fresh = k) (other : k' ≠ k) :
    lookup key k' (upsert key k fresh f l) = lookup key k' l := by
  rcases @upsert_cases _ _ _ key k l fresh f with
    ⟨before, x, after, rfl, _, found, result⟩ | ⟨_, result⟩
  · rw [result]
    exact lookup_replace before after (keeps x) (found ▸ other.symm)
  · have miss : key (f fresh) ≠ k' := (keeps fresh).trans isKey ▸ other.symm
    rw [result]
    simp [lookup, miss]

/-- Lists whose elements are related one by one, with equal keys, find related elements. -/
theorem lookup_related {β : Type} {key' : β → κ} {R : α → β → Prop} {l' : List β}
    (related : List.Forall₂ R l l') (keys : ∀ x y, R x y → key' y = key x) (k : κ) :
    (lookup key k l = none ∧ lookup key' k l' = none) ∨
      ∃ x y, lookup key k l = some x ∧ lookup key' k l' = some y ∧ R x y := by
  induction related with
  | nil => exact .inl ⟨rfl, rfl⟩
  | @cons x y _ _ head _ ih =>
      by_cases here : key x = k
      · have here' : key' y = k := (keys _ _ head).trans here
        exact .inr ⟨x, y, by simp [lookup, here], by simp [lookup, here'], head⟩
      · have other : key' y ≠ k := fun same => here ((keys _ _ head).symm.trans same)
        simpa [lookup, here, other] using ih

omit [DecidableEq κ] in
theorem map_related {β : Type} {key' : β → κ} {R : α → β → Prop} {l' : List β}
    (related : List.Forall₂ R l l') (keys : ∀ x y, R x y → key' y = key x) :
    l'.map key' = l.map key := by
  induction related with
  | nil => rfl
  | cons head _ ih => rw [List.map_cons, List.map_cons, keys _ _ head, ih]

end Lookup

section Distinct

/-- With distinct keys, an element is found exactly when it is in the list. -/
theorem Distinct.lookup_eq_some_iff (distinct : Distinct key l) {x : α} :
    lookup key k l = some x ↔ x ∈ l ∧ key x = k := by
  constructor
  · exact fun found => ⟨lookup_mem found, lookup_key found⟩
  · rintro ⟨member, isKey⟩
    obtain ⟨before, after, rfl⟩ := List.append_of_mem member
    apply lookup_middle _ isKey
    intro y earlier same
    rw [Distinct, List.map_append, List.nodup_append] at distinct
    exact distinct.2.2 (key y) (List.mem_map_of_mem earlier) (key x) (by simp)
      (same.trans isKey.symm)

omit [DecidableEq κ] in
theorem Distinct.sublist {l' : List α} (distinct : Distinct key l) (sublist : l'.Sublist l) :
    Distinct key l' :=
  List.Nodup.sublist (sublist.map key) distinct

theorem Distinct.upsert (distinct : Distinct key l) (fresh : α) {f : α → α}
    (keeps : ∀ x, key (f x) = key x) (isKey : key fresh = k) :
    Distinct key (upsert key k fresh f l) := by
  rcases @upsert_cases _ _ _ key k l fresh f with
    ⟨before, x, after, rfl, _, _, result⟩ | ⟨none_, result⟩
  · rw [result]
    rw [Distinct, List.map_append, List.map_cons] at distinct ⊢
    rw [keeps]
    exact distinct
  · rw [result]
    rw [Distinct, List.map_cons, List.nodup_cons, keeps, isKey]
    refine ⟨?_, distinct⟩
    intro member
    obtain ⟨y, inside, same⟩ := List.mem_map.mp member
    exact none_ y inside same

end Distinct

end KeyedList
