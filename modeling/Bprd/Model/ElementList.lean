/-
Module: Bprd.Model.ElementList
Layer: Model
Purpose: The element lists of the daemon in linked memory (src/list.c): the loops of `list_remove_cond`,
  `list_free` and `list_find` with their cursors, and `list_insert`. The callbacks act on a state of their
  own, from which the expiry test reads the clock and into which a destructor releases its data; every call
  is recorded. A loop takes a number of iterations that it may make; an access to an element that is not
  allocated, or too few iterations, have no result.
Imports: Bprd.Lib.LinkedList, Bprd.Model.Ntable
Trusted boundary: human-reviewed spec
Main exports: Linked.Call, Linked.State, Linked.listInit, Linked.listInsert, Linked.removeElm,
  Linked.listFree, Linked.listFind, Linked.listRemoveCond, Linked.ntableRefresh
-/
import Bprd.Lib.LinkedList
import Bprd.Model.Ntable

namespace Bprd.Linked

open LinkedList

/-- A call that a list function makes. -/
inductive Call (ρ α : Type) where
  /-- `cond_data(data)` and whether it held. -/
  | condData (data : α) (met : Bool)
  /-- `del_data(data)`. -/
  | delData (data : α)
  /-- `free(e)`. -/
  | free (e : ρ)
deriving DecidableEq

/-- The memory of the lists, the state of the callbacks, and the calls made so far. -/
structure State (κ ρ α σ : Type) where
  heap : Heap κ ρ α
  world : σ
  calls : List (Call ρ α)

variable {κ ρ α σ : Type} [DecidableEq κ] [DecidableEq ρ]

/-- `list_init`. -/
def listInit (heap : Heap κ ρ α) (l : κ) : Heap κ ρ α := heap.setFirst l none

/-- `list_insert`, for the element `e` that `malloc` returned and `memset` cleared. -/
def listInsert (heap : Heap κ ρ α) (l : κ) (data : α) (e : ρ) : Option (Heap κ ρ α) :=
  listInsertHead (heap.put e { data := data, leNext := none, lePrev := none }) l e

/-- `LIST_REMOVE(e, elms); del_data(e->data); free(e);` -/
def removeElm (delData : α → σ → σ) (e : ρ) (s : State κ ρ α σ) : Option (State κ ρ α σ) := do
  let heap ← listRemove s.heap e
  let c ← heap.elm e
  let heap ← heap.free e
  return { heap := heap, world := delData c.data s.world, calls := s.calls ++ [.delData c.data, .free e] }

/-- `list_free`. -/
def listFree (delData : α → σ → σ) (l : κ) : Nat → State κ ρ α σ → Option (State κ ρ α σ)
  | fuel, s =>
      match listFirst s.heap l with
      | none => some s
      | some e =>
          match fuel with
          | 0 => none
          | fuel + 1 => do
              let s ← removeElm delData e s
              listFree delData l fuel s

/-- `list_find`, from the element `f` on. -/
def listFindFrom (heap : Heap κ ρ α) (data : α) (cmpData : α → α → Int) :
    Nat → Option ρ → Option (Option ρ)
  | _, none => some none
  | 0, some _ => none
  | fuel + 1, some f => do
      let c ← heap.elm f
      if cmpData data c.data = 0 then some (some f)
      else listFindFrom heap data cmpData fuel (← listNext heap f)

/-- `list_find`. -/
def listFind (heap : Heap κ ρ α) (l : κ) (data : α) (cmpData : α → α → Int) (fuel : Nat) :
    Option (Option ρ) :=
  listFindFrom heap data cmpData fuel (listFirst heap l)

/-- The loop of `list_remove_cond`: `eprev` is the last element kept so far, `ecur` the next one. -/
def removeCondLoop (condData : α → σ → Bool × σ) (delData : α → σ → σ) (l : κ) :
    Nat → Option ρ → Option ρ → State κ ρ α σ → Option (State κ ρ α σ)
  | _, _, none, s => some s
  | 0, _, some _, _ => none
  | fuel + 1, eprev, some ecur, s => do
      let c ← s.heap.elm ecur
      let (met, world) := condData c.data s.world
      let s := { s with world := world, calls := s.calls ++ [.condData c.data met] }
      if met then
        let s ← removeElm delData ecur s
        match eprev with
        | none => removeCondLoop condData delData l fuel none (listFirst s.heap l) s
        | some e => removeCondLoop condData delData l fuel (some e) (← listNext s.heap e) s
      else
        removeCondLoop condData delData l fuel (some ecur) (← listNext s.heap ecur) s

/-- `list_remove_cond`. -/
def listRemoveCond (condData : α → σ → Bool × σ) (delData : α → σ → σ) (l : κ) (fuel : Nat)
    (s : State κ ρ α σ) : Option (State κ ρ α σ) :=
  removeCondLoop condData delData l fuel none (listFirst s.heap l) s

/-- `ntable_refresh`: each evaluation of `cond_n_expired` reads the clock once, and `del_data_n` does not
    read it. -/
def ntableRefresh (neighborTimeout : UInt32) (clock : Nat → Timeval) (l : κ) (fuel : Nat)
    (s : State κ ρ Neighbor Nat) : Option (State κ ρ Neighbor Nat) :=
  listRemoveCond (fun n readings => (condNExpired neighborTimeout (clock readings) n, readings + 1))
    (fun _ readings => readings) l fuel s

end Bprd.Linked
