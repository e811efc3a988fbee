/-
Module: Bprd.Spec.KernelRoutes
Layer: Spec
Purpose: The kernel's routing table as far as this daemon changes it. A route is known by its family and
  the bytes of its destination; adding one replaces what was there, and deleting one leaves nothing. A
  table is the result of all changes made so far, so its entries are those of the last changes. What a
  change has to say to set the route to one address through another is stated on the address bytes.
Imports: Bprd.Model.Router, Mathlib.Logic.Function.Basic, Mathlib.Data.List.Induction
Trusted boundary: human-reviewed spec
Main exports: addressBytes, SetsRoute, RouteUpdate.key, KernelRoutes, KernelRoutes.change,
  KernelRoutes.changeAll,
  KernelRoutes.changeAll_cases
-/
import Bprd.Model.Router
import Mathlib.Logic.Function.Basic
import Mathlib.Data.List.Induction

namespace Bprd

/-- The bytes of an address in the routes of a family: as many of its own as the family's routes hold. -/
def addressBytes (ipver : UInt8) (addr : Netaddr) : List UInt8 :=
  let held := if ipver = afInet6 then 16 else 4
  if addr.type = afInet then addr.addr.toList.take (min held 4)
  else if addr.type = afInet6 then addr.addr.toList.take held
  else []

/-- A change sets the route to `dest` through `gateway`, on the daemon's interface. -/
structure SetsRoute (bprd : BprdT) (dest gateway : Netaddr) (route : RouteUpdate) : Prop where
  family : route.family = bprd.ipver
  ifindex : route.ifindex = bprd.ifIndex
  dst : route.dst = addressBytes bprd.ipver dest
  nh : route.nh = some (addressBytes bprd.ipver gateway)

/-- Family and destination of a route. -/
def RouteUpdate.key (update : RouteUpdate) : UInt8 × List UInt8 := (update.family, update.dst)

/-- The gateway of every route that this daemon has installed. -/
def KernelRoutes := UInt8 × List UInt8 → Option (List UInt8)

namespace KernelRoutes

/-- The daemon has installed no route. -/
def empty : KernelRoutes := fun _ => none

/-- `rtnl_route_add` with `NLM_F_REPLACE`, or `rtnl_route_delete`, both successful. -/
def change (routes : KernelRoutes) (update : RouteUpdate) : KernelRoutes :=
  Function.update routes update.key update.nh

/-- Changes one after the other. -/
def changeAll (routes : KernelRoutes) (updates : List RouteUpdate) : KernelRoutes :=
  updates.foldl change routes

@[simp] theorem changeAll_nil (routes : KernelRoutes) : routes.changeAll [] = routes := rfl

theorem changeAll_append (routes : KernelRoutes) (updates later : List RouteUpdate) :
    routes.changeAll (updates ++ later) = (routes.changeAll updates).changeAll later :=
  List.foldl_append

/-- An entry is either untouched, or it is that of one of the changes. -/
theorem changeAll_cases (routes : KernelRoutes) (key : UInt8 × List UInt8) (updates : List RouteUpdate) :
    ((∀ update ∈ updates, update.key ≠ key) ∧ routes.changeAll updates key = routes key) ∨
      ∃ update ∈ updates, update.key = key ∧ routes.changeAll updates key = update.nh := by
  induction updates using List.reverseRecOn with
  | nil => exact .inl ⟨fun _ member => absurd member List.not_mem_nil, rfl⟩
  | append_singleton updates last ih =>
      rw [show routes.changeAll (updates ++ [last]) = (routes.changeAll updates).change last from
        changeAll_append routes updates [last]]
      by_cases here : last.key = key
      · refine .inr ⟨last, List.mem_append_right _ (List.mem_singleton.mpr rfl), here, ?_⟩
        rw [← here]
        exact Function.update_self _ _ _
      · have kept : (routes.changeAll updates).change last key = routes.changeAll updates key :=
          Function.update_of_ne (Ne.symm here) _ _
        rw [kept]
        rcases ih with ⟨others, untouched⟩ | ⟨update, member, isKey, value⟩
        · refine .inl ⟨?_, untouched⟩
          intro update member
          rcases List.mem_append.mp member with before | isLast
          · exact others update before
          · rw [List.mem_singleton.mp isLast]
            exact here
        · exact .inr ⟨update, List.mem_append_left _ member, isKey, value⟩

end KernelRoutes

end Bprd
