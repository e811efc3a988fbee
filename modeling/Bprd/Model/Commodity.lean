/-
Module: Bprd.Model.Commodity
Layer: Model
Purpose: The element lists of the daemon and what they hold (src/list.c, commodity.h/.c, neighbor.h/.c).
  A `list_t` is a list of elements, newest first; a pointer to an element is its position, which is stable
  as long as nothing is inserted or removed. The two typed searches compare addresses with `netaddr_cmp`.
Imports: Bprd.Model.FifoQueue, Bprd.Model.Netaddr
Trusted boundary: human-reviewed spec
Main exports: CommodityShort, Commodity, Timeval, Neighbor, listFind, listInsert, listRemoveCond,
  clistFind, nlistFind, pointee, clistFind_pointee
-/
import Bprd.Model.FifoQueue
import Bprd.Model.Netaddr

namespace Bprd

/-- `commodity_s_t`: the fields shared in hello messages. -/
structure CommodityShort where
  addr : Netaddr
  backlog : UInt32
deriving DecidableEq

/-- `commodity_t`. The queue pointer is null in the lists of neighbours and, before `backlogger_init`,
    in the daemon's own list. -/
structure Commodity where
  cdata : CommodityShort
  backdiff : UInt32
  nfqId : UInt16
  queue : Option Fifo
deriving DecidableEq

/-- `struct timeval`. -/
structure Timeval where
  tvSec : Int
  tvUsec : Int
deriving DecidableEq, Repr

/-- `neighbor_t`. -/
structure Neighbor where
  addr : Netaddr
  bidir : UInt8
  updateTime : Timeval
  clist : List Commodity
deriving DecidableEq

section Lists

variable {α : Type}

/-- `list_insert`: at the head. -/
def listInsert (l : List α) (data : α) : List α := data :: l

/-- `list_find`: the first element whose data compares equal. -/
def listFind (l : List α) (data : α) (cmpData : α → α → Int) : Option Nat :=
  l.findIdx? fun f => decide (cmpData data f = 0)

/-- `list_remove_cond`: the condition is evaluated once on each element, first to last; `k` counts the
    evaluations, since the expiry test reads the clock each time. -/
def listRemoveCond (condData : Nat → α → Bool) : Nat → List α → List α
  | _, [] => []
  | k, e :: l =>
      if condData k e then listRemoveCond condData (k + 1) l
      else e :: listRemoveCond condData (k + 1) l

/-- The data behind a possibly null element pointer. -/
def pointee (l : List α) (p : Option Nat) : Option α := p.bind fun i => l[i]?

theorem pointee_listFind (l : List α) (data : α) (cmpData : α → α → Int) :
    pointee l (listFind l data cmpData) = l.find? fun f => decide (cmpData data f = 0) := by
  rw [pointee, listFind, List.find?_eq_bind_findIdx?_getElem?]

end Lists

/-- `cmp_data_c`. -/
def cmpDataC (c1 c2 : Commodity) : Int := netaddrCmp c1.cdata.addr c2.cdata.addr

/-- `cmp_data_n`. -/
def cmpDataN (n1 n2 : Neighbor) : Int := netaddrCmp n1.addr n2.addr

/-- `clist_find`. -/
def clistFind (l : List Commodity) (c : Commodity) : Option Nat := listFind l c cmpDataC

/-- `nlist_find`. -/
def nlistFind (l : List Neighbor) (n : Neighbor) : Option Nat := listFind l n cmpDataN

theorem clistFind_eq (l : List Commodity) (c : Commodity) :
    clistFind l c = l.findIdx? fun f => decide (f.cdata.addr = c.cdata.addr) := by
  simp [clistFind, listFind, cmpDataC, eq_comm]

theorem nlistFind_eq (l : List Neighbor) (n : Neighbor) :
    nlistFind l n = l.findIdx? fun f => decide (f.addr = n.addr) := by
  simp [nlistFind, listFind, cmpDataN, eq_comm]

/-- What a successful `clist_find` returns: the first commodity with the same destination. -/
theorem clistFind_pointee (l : List Commodity) (c : Commodity) :
    pointee l (clistFind l c) = l.find? fun f => decide (f.cdata.addr = c.cdata.addr) := by
  rw [clistFind, pointee_listFind]
  simp [cmpDataC, eq_comm]

end Bprd
