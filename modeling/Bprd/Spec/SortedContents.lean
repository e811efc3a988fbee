/-
Module: Bprd.Spec.SortedContents
Layer: Spec
Purpose: What a tree of lib/common/avl.c is for: a list of entries in the order of their keys, equal keys in
  the order of their insertion, and without equal keys where duplicates are not allowed.
Imports: Bprd.Model.Avl, Mathlib.Data.List.Sort
Trusted boundary: human-reviewed spec
Main exports: Entry, putEntry, dropEntry, contentsStep, contentsRun,
  LegalCall, Legal
-/
import Bprd.Model.Avl
import Mathlib.Data.List.Sort

namespace Bprd

variable {κ ρ ℓ : Type} [LinearOrder ℓ]

/-- A node with its key. -/
abbrev Entry (κ ρ : Type) := ρ × κ

/-- An entry with the key is there. -/
def Present (rank : κ → ℓ) (key : κ) (xs : List (Entry κ ρ)) : Prop := ∃ e ∈ xs, rank e.2 = rank key

instance (rank : κ → ℓ) (key : κ) (xs : List (Entry κ ρ)) : Decidable (Present rank key xs) :=
  inferInstanceAs (Decidable (∃ e ∈ xs, rank e.2 = rank key))

/-- Put an entry behind all with a key that is not greater. -/
def putEntry (rank : κ → ℓ) (allowDups : Bool) (e : Entry κ ρ) (xs : List (Entry κ ρ)) :
    Int × List (Entry κ ρ) :=
  if allowDups = false ∧ Present rank e.2 xs then (-1, xs)
  else (0, xs.orderedInsert (fun a b => rank a.2 < rank b.2) e)

/-- Take the entry of a node out. -/
def dropEntry [DecidableEq ρ] (r : ρ) (xs : List (Entry κ ρ)) : List (Entry κ ρ) := xs.filter (·.1 ≠ r)

variable [DecidableEq ρ]

/-- The result code and the contents after a call. -/
def contentsStep (rank : κ → ℓ) (allowDups : Bool) (xs : List (Entry κ ρ)) :
    AvlCall κ ρ → Int × List (Entry κ ρ)
  | .insert r key => putEntry rank allowDups (r, key) xs
  | .remove r => (0, dropEntry r xs)

/-- The result codes and the contents after some calls. -/
def contentsRun (rank : κ → ℓ) (allowDups : Bool) (xs : List (Entry κ ρ)) :
    List (AvlCall κ ρ) → List Int × List (Entry κ ρ)
  | [] => ([], xs)
  | call :: calls =>
      let (code, xs) := contentsStep rank allowDups xs call
      let (codes, xs) := contentsRun rank allowDups xs calls
      (code :: codes, xs)

/-- A node that is inserted is not there, and one that is removed is. -/
def LegalCall (xs : List (Entry κ ρ)) : AvlCall κ ρ → Prop
  | .insert r _ => r ∉ xs.map Prod.fst
  | .remove r => r ∈ xs.map Prod.fst

instance decidableLegalCall (xs : List (Entry κ ρ)) (call : AvlCall κ ρ) : Decidable (LegalCall xs call) :=
  match call with
  | .insert r _ => inferInstanceAs (Decidable (r ∉ xs.map Prod.fst))
  | .remove r => inferInstanceAs (Decidable (r ∈ xs.map Prod.fst))

/-- Every call is legal where it comes. -/
def Legal (rank : κ → ℓ) (allowDups : Bool) (xs : List (Entry κ ρ)) : List (AvlCall κ ρ) → Prop
  | [] => True
  | call :: calls => LegalCall xs call ∧ Legal rank allowDups (contentsStep rank allowDups xs call).2 calls

instance decidableLegal (rank : κ → ℓ) (allowDups : Bool) (xs : List (Entry κ ρ)) :
    (calls : List (AvlCall κ ρ)) → Decidable (Legal rank allowDups xs calls)
  | [] => .isTrue trivial
  | call :: calls =>
      haveI := decidableLegal rank allowDups (contentsStep rank allowDups xs call).2 calls
      inferInstanceAs (Decidable (LegalCall xs call ∧
        Legal rank allowDups (contentsStep rank allowDups xs call).2 calls))

end Bprd
