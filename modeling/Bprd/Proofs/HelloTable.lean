/-
Module: Bprd.Proofs.HelloTable
Layer: Proofs
Purpose: The neighbour list refines the table of Bprd.Spec.HelloHistory: a hello on the list is a hello on
  the table it stands for, and a refresh expires the entries whose expiry test holds when it is made. Both
  keep the addresses of the neighbours and the destinations of every neighbour distinct.
Imports: Bprd.Proofs.HelloMessage, Bprd.Model.Ntable
Trusted boundary: none
Main exports: tableView, WellKept, tableView_heardHello, expiredBy, tableView_ntableRefresh,
  wellKept_heardHello, wellKept_ntableRefresh
-/
import Bprd.Proofs.HelloMessage
import Bprd.Model.Ntable

namespace Bprd

/-- The destination of a commodity. -/
def Commodity.dest (c : Commodity) : Netaddr := c.cdata.addr

/-- What an entry knows. -/
def Neighbor.view (n : Neighbor) : NeighborView :=
  { bidir := n.bidir
    updateTime := n.updateTime
    backlog := fun d => (KeyedList.lookup Commodity.dest d n.clist).map fun c => c.cdata.backlog }

/-- The table a neighbour list stands for. -/
def tableView (nlist : List Neighbor) : TableView :=
  fun a => (KeyedList.lookup Neighbor.addr a nlist).map Neighbor.view

/-- One entry for an address, and in every entry one commodity for a destination. -/
structure WellKept (nlist : List Neighbor) : Prop where
  neighbors : KeyedList.Distinct Neighbor.addr nlist
  commodities : ∀ n ∈ nlist, KeyedList.Distinct Commodity.dest n.clist

/-! ### Commodities of an entry -/

/-- The record that a new destination gets. -/
def heardCommodity (cdata : CommodityShort) : Commodity :=
  { cdata := cdata, backdiff := 0, nfqId := 0, queue := none }

/-- Store a backlog. -/
def setBacklog (backlog : UInt32) (c : Commodity) : Commodity :=
  { c with cdata := { c.cdata with backlog := backlog } }

theorem setBacklog_dest (backlog : UInt32) (c : Commodity) : (setBacklog backlog c).dest = c.dest := rfl

theorem heardCommodity_dest (cdata : CommodityShort) : (heardCommodity cdata).dest = cdata.addr := rfl

theorem recordCommodity_eq_upsert (cdata : CommodityShort) (clist : List Commodity) :
    recordCommodity cdata clist =
      KeyedList.upsert Commodity.dest cdata.addr (heardCommodity cdata) (setBacklog cdata.backlog)
        clist := by
  rw [recordCommodity, clistFind_eq]
  rfl

theorem lookup_recordCommodity (cdata : CommodityShort) (clist : List Commodity) (d : Netaddr) :
    (KeyedList.lookup Commodity.dest d (recordCommodity cdata clist)).map (fun c => c.cdata.backlog) =
      (lastBacklog d [cdata]).or
        ((KeyedList.lookup Commodity.dest d clist).map fun c => c.cdata.backlog) := by
  rw [recordCommodity_eq_upsert, lastBacklog_singleton]
  by_cases here : cdata.addr = d
  · subst here
    rw [KeyedList.lookup_upsert_self _ (setBacklog_dest _) (heardCommodity_dest _), if_pos rfl]
    rfl
  · rw [KeyedList.lookup_upsert_other _ (setBacklog_dest _) (heardCommodity_dest _) (Ne.symm here),
      if_neg here, Option.none_or]

/-- After recording, an entry has the last backlog of every destination carried, and what it had before
    of the others. -/
theorem lookup_recordCommodities (commodities : List CommodityShort) (clist : List Commodity)
    (d : Netaddr) :
    (KeyedList.lookup Commodity.dest d (recordCommodities commodities clist)).map
        (fun c => c.cdata.backlog) =
      (lastBacklog d commodities).or
        ((KeyedList.lookup Commodity.dest d clist).map fun c => c.cdata.backlog) := by
  induction commodities generalizing clist with
  | nil => exact (Option.none_or).symm
  | cons cdata commodities ih =>
      show Option.map _ (KeyedList.lookup Commodity.dest d
        (recordCommodities commodities (recordCommodity cdata clist))) = _
      have split : cdata :: commodities = [cdata] ++ commodities := rfl
      rw [ih, lookup_recordCommodity, split, lastBacklog_append, Option.or_assoc]

theorem distinct_recordCommodities (commodities : List CommodityShort) {clist : List Commodity}
    (distinct : KeyedList.Distinct Commodity.dest clist) :
    KeyedList.Distinct Commodity.dest (recordCommodities commodities clist) := by
  induction commodities generalizing clist with
  | nil => exact distinct
  | cons cdata commodities ih =>
      apply ih
      show KeyedList.Distinct Commodity.dest (recordCommodity cdata clist)
      rw [recordCommodity_eq_upsert]
      exact distinct.upsert _ (setBacklog_dest _) (heardCommodity_dest _)

/-! ### Hellos -/

section

variable {own : Netaddr} {time : Timeval} {hello : Hello} {nlist : List Neighbor}

theorem view_absorb (own : Netaddr) (time : Timeval) (hello : Hello) (n : Neighbor) :
    (n.absorb own time hello).view = n.view.absorb own time hello := by
  simp only [Neighbor.view, Neighbor.absorb, NeighborView.absorb, lookup_recordCommodities]

theorem absorb_addr (own : Netaddr) (time : Timeval) (hello : Hello) (n : Neighbor) :
    (n.absorb own time hello).addr = n.addr := rfl

theorem newNeighbor_addr (addr : Netaddr) (time : Timeval) : (newNeighbor addr time).addr = addr := rfl

/-- A hello on the list is a hello on the table. -/
theorem tableView_heardHello (own : Netaddr) (time : Timeval) (hello : Hello)
    (nlist : List Neighbor) :
    tableView (heardHello own time hello nlist) = (tableView nlist).hear own time hello := by
  funext a
  rw [tableView, heardHello, TableView.hear]
  by_cases here : a = hello.sender
  · subst here
    rw [KeyedList.lookup_upsert_self _ (absorb_addr own time hello) (newNeighbor_addr _ time),
      Function.update_self, Option.map_some, view_absorb]
    cases found : KeyedList.lookup Neighbor.addr hello.sender nlist with
    | none =>
        rw [tableView, found]
        rfl
    | some n =>
        rw [tableView, found]
        rfl
  · rw [KeyedList.lookup_upsert_other _ (absorb_addr own time hello) (newNeighbor_addr _ time) here,
      Function.update_of_ne here]
    rfl

theorem wellKept_heardHello (wellKept : WellKept nlist) :
    WellKept (heardHello own time hello nlist) := by
  refine ⟨wellKept.neighbors.upsert _ (absorb_addr own time hello) (newNeighbor_addr _ time), ?_⟩
  intro n member
  rw [heardHello] at member
  rcases @KeyedList.upsert_cases _ _ _ Neighbor.addr hello.sender nlist
      (newNeighbor hello.sender time) (Neighbor.absorb own time hello) with
    ⟨before, n₀, after, shape, _, _, result⟩ | ⟨_, result⟩
  · rw [result] at member
    have others : ∀ m, m ∈ before ∨ m ∈ after → m ∈ nlist := by
      rintro m (inBefore | inAfter)
      · rw [shape]
        exact List.mem_append_left _ inBefore
      · rw [shape]
        exact List.mem_append_right _ (List.mem_cons_of_mem _ inAfter)
    rcases List.mem_append.mp member with inBefore | behind
    · exact wellKept.commodities n (others n (.inl inBefore))
    · rcases List.mem_cons.mp behind with rfl | inAfter
      · apply distinct_recordCommodities
        apply wellKept.commodities n₀
        rw [shape]
        exact List.mem_append_right _ (List.mem_cons_self ..)
      · exact wellKept.commodities n (others n (.inr inAfter))
  · rw [result] at member
    rcases List.mem_cons.mp member with rfl | inside
    · exact distinct_recordCommodities _ List.nodup_nil
    · exact wellKept.commodities n inside

end

/-! ### Refreshes -/

theorem listRemoveCond_sublist {α : Type} (cond : Nat → α → Bool) : ∀ (k : Nat) (l : List α),
    (listRemoveCond cond k l).Sublist l
  | _, [] => List.Sublist.slnil
  | k, x :: l => by
      rw [listRemoveCond]
      split
      · exact (listRemoveCond_sublist cond (k + 1) l).cons x
      · exact (listRemoveCond_sublist cond (k + 1) l).cons_cons x

/-- Whether the element with a key is removed: the condition is evaluated at its position. -/
def removedAt {α κ : Type} [DecidableEq κ] (key : α → κ) (cond : Nat → α → Bool) (a : κ) :
    Nat → List α → Bool
  | _, [] => false
  | k, x :: l => (decide (key x = a) && cond k x) || removedAt key cond a (k + 1) l

theorem lookup_listRemoveCond {α κ : Type} [DecidableEq κ] {key : α → κ} (cond : Nat → α → Bool)
    (a : κ) : ∀ {k : Nat} {l : List α}, KeyedList.Distinct key l →
      KeyedList.lookup key a (listRemoveCond cond k l) =
        if removedAt key cond a k l then none else KeyedList.lookup key a l
  | _, [], _ => rfl
  | k, x :: l, distinct => by
      rw [KeyedList.Distinct, List.map_cons, List.nodup_cons] at distinct
      have ih := @lookup_listRemoveCond _ _ _ _ cond a (k + 1) l distinct.2
      rw [listRemoveCond, removedAt]
      by_cases here : key x = a
      · have absent : KeyedList.lookup key a l = none := by
          rw [KeyedList.lookup_eq_none_iff]
          intro y member same
          exact distinct.1 (List.mem_map.mpr ⟨y, member, same.trans here.symm⟩)
        have kept : removedAt key cond a (k + 1) l = false ∨
            KeyedList.lookup key a (listRemoveCond cond (k + 1) l) = none := by
          cases removed : removedAt key cond a (k + 1) l with
          | false => exact .inl rfl
          | true =>
              rw [ih, removed]
              exact .inr rfl
        cases removes : cond k x with
        | true =>
            rw [if_pos rfl, ih, absent]
            simp [here]
        | false =>
            have later : removedAt key cond a (k + 1) l = false := by
              clear ih kept removes
              have none_ : ∀ {j : Nat} {m : List α}, (∀ y ∈ m, key y ≠ a) →
                  removedAt key cond a j m = false := by
                intro j m others
                induction m generalizing j with
                | nil => rfl
                | cons y m ih =>
                    rw [removedAt, ih fun z inside => others z (List.mem_cons_of_mem _ inside)]
                    simp [others y (List.mem_cons_self ..)]
              exact none_ (KeyedList.lookup_eq_none_iff.mp absent)
            simp [later, KeyedList.lookup, here]
      · cases removes : cond k x with
        | true =>
            rw [if_pos rfl, ih]
            simp [here, KeyedList.lookup]
        | false =>
            rw [KeyedList.lookup] at ih
            simp only [Bool.false_eq_true, if_false, KeyedList.lookup, here, decide_false,
              Bool.false_and, Bool.false_or, List.find?_cons_of_neg, not_false_eq_true] at ih ⊢
            exact ih

/-- The addresses whose entries a refresh removes. -/
def expiredBy (neighborTimeout : UInt32) (clock : Nat → Timeval) (nlist : List Neighbor)
    (a : Netaddr) : Bool :=
  removedAt Neighbor.addr (fun k n => condNExpired neighborTimeout (clock k) n) a 0 nlist

/-- A refresh expires the entries whose test holds. -/
theorem tableView_ntableRefresh {nlist : List Neighbor} (wellKept : WellKept nlist)
    (neighborTimeout : UInt32) (clock : Nat → Timeval) :
    tableView (ntableRefresh neighborTimeout clock nlist) =
      (tableView nlist).expire (expiredBy neighborTimeout clock nlist) := by
  funext a
  rw [tableView, ntableRefresh, lookup_listRemoveCond _ a wellKept.neighbors, TableView.expire,
    expiredBy]
  split
  · rfl
  · rfl

theorem wellKept_ntableRefresh {nlist : List Neighbor} (wellKept : WellKept nlist)
    (neighborTimeout : UInt32) (clock : Nat → Timeval) :
    WellKept (ntableRefresh neighborTimeout clock nlist) :=
  ⟨wellKept.neighbors.sublist (listRemoveCond_sublist _ _ _),
    fun n member => wellKept.commodities n ((listRemoveCond_sublist _ _ _).subset member)⟩

end Bprd
