/-
Module: Bprd.Model.Avl
Layer: Model
Purpose: The tree of lib/common/avl.c on its pointers. The memory of the nodes is one function for each
  field; `left` and `right` are the two values of `child`, and what the source writes twice, once for each
  side, is written once here. A null pointer followed and a loop that outlasts its fuel are none.
Imports: Bprd.Lib.HeightTree, Bprd.Lib.LinkRing
Trusted boundary: human-reviewed spec
Main exports: AvlTree, avlInit, avlFind, avlFindLessequal, avlFindGreaterequal, avlInsert, avlRemove,
  avlForEach, avlForEachReverse, AvlCall, avlCalls, avlCompUint32
-/
import Bprd.Lib.HeightTree
import Bprd.Lib.LinkRing

namespace Bprd

open HeightTree (Side)
open LinkRing (Entity Links)

/-- `struct avl_tree` with the memory of its nodes, the fields of `struct avl_node`. `count` is 32 bits
    wide, `balance` a `signed char`. -/
structure AvlTree (κ ρ : Type) where
  list : Links ρ
  parent : ρ → Option ρ
  child : Side → ρ → Option ρ
  key : ρ → κ
  balance : ρ → Int
  leader : ρ → Bool
  root : Option ρ
  count : UInt32
  allowDups : Bool

/-- Conversion to `signed char`. -/
def signedChar (x : Int) : Int := x.bmod 256

variable {κ ρ : Type} [DecidableEq ρ]

/-! ### The list (lib/common/list.h) -/

namespace ListEntity

/-- `list_init_head`. -/
def listInitHead (list : Links ρ) : Links ρ :=
  { next := Function.update list.next .head (some .head)
    prev := Function.update list.prev .head (some .head) }

/-- `list_is_first`. -/
def listIsFirst (list : Links ρ) (r : ρ) : Bool := list.next .head = some (.cell r)

/-- `list_is_last`. -/
def listIsLast (list : Links ρ) (r : ρ) : Bool := list.prev .head = some (.cell r)

/-- `list_add_head`. -/
def listAddHead (list : Links ρ) (new : ρ) : Option (Links ρ) :=
  (list.next .head).map fun next => LinkRing.link .head next (.cell new) list

/-- `list_add_before`. -/
def listAddBefore (list : Links ρ) (before new : ρ) : Option (Links ρ) :=
  (list.prev (.cell before)).map fun prev => LinkRing.link prev (.cell before) (.cell new) list

/-- `list_add_after`. -/
def listAddAfter (list : Links ρ) (after new : ρ) : Option (Links ρ) :=
  (list.next (.cell after)).map fun next => LinkRing.link (.cell after) next (.cell new) list

/-- `list_remove`. -/
def listRemove (list : Links ρ) (old : ρ) : Option (Links ρ) := do
  let prev ← list.prev (.cell old)
  let next ← list.next (.cell old)
  some (LinkRing.unlink prev next (.cell old) list)

end ListEntity

open ListEntity

/-- The node that a link leads to, where the source takes a link for one. -/
def nodeOf : Option (Entity ρ) → Option ρ
  | some (.cell r) => some r
  | _ => none

/-! ### Fields -/

namespace AvlTree

def setParent (t : AvlTree κ ρ) (r : ρ) (parent : Option ρ) : AvlTree κ ρ :=
  { t with parent := Function.update t.parent r parent }

def setChild (side : Side) (t : AvlTree κ ρ) (r : ρ) (child : Option ρ) : AvlTree κ ρ :=
  { t with child := Function.update t.child side (Function.update (t.child side) r child) }

def setBalance (t : AvlTree κ ρ) (r : ρ) (balance : Int) : AvlTree κ ρ :=
  { t with balance := Function.update t.balance r balance }

/-- `if (child != NULL) child->parent = parent`. -/
def setParentOf (t : AvlTree κ ρ) (child : Option ρ) (parent : ρ) : AvlTree κ ρ :=
  match child with
  | none => t
  | some r => t.setParent r (some parent)

/-- Which child of `parent` a node is, as `node == parent->left` decides. -/
def sideOf (t : AvlTree κ ρ) (parent node : ρ) : Side :=
  if t.child .left parent = some node then .left else .right

/-- Put `new` where `parent`, or the root pointer if that is null, points to `old`. -/
def relink (t : AvlTree κ ρ) (parent : Option ρ) (old : ρ) (new : Option ρ) : AvlTree κ ρ :=
  match parent with
  | none => { t with root := new }
  | some p => t.setChild (t.sideOf p old) p new

end AvlTree

/-! ### Searching -/

/-- `avl_init`, in a memory with any content. -/
def avlInit (memory : AvlTree κ ρ) (allowDups : Bool) : AvlTree κ ρ :=
  { memory with list := listInitHead memory.list, root := none, count := 0, allowDups := allowDups }

section

variable (comp : κ → κ → Int)

/-- `_avl_find_rec`: the node at which the way down ends, and the last comparison. -/
def avlFindRec (t : AvlTree κ ρ) (key : κ) : Nat → ρ → Option (ρ × Int)
  | 0, _ => none
  | fuel + 1, node =>
      let diff := comp key (t.key node)
      if diff < 0 then
        match t.child .left node with
        | some left => avlFindRec t key fuel left
        | none => some (node, diff)
      else if diff > 0 then
        match t.child .right node with
        | some right => avlFindRec t key fuel right
        | none => some (node, diff)
      else some (node, diff)

/-- `avl_find`. -/
def avlFind (fuel : Nat) (t : AvlTree κ ρ) (key : κ) : Option (Option ρ) :=
  match t.root with
  | none => some none
  | some root =>
      (avlFindRec comp t key fuel root).map fun found => if found.2 = 0 then some found.1 else none

/-- The neighbour of a node in the list on a side. -/
def neighbor (side : Side) (list : Links ρ) (r : ρ) : Option ρ :=
  match side with
  | .left => nodeOf (list.prev (.cell r))
  | .right => nodeOf (list.next (.cell r))

/-- Whether a node is at the end of the list on a side. -/
def isEnd (side : Side) (list : Links ρ) (r : ρ) : Bool :=
  match side with
  | .left => listIsFirst list r
  | .right => listIsLast list r

/-- The first loop of `avl_find_lessequal` and `avl_find_greaterequal`: go to `side` as long as the key lies
    there; at the end of the list the function returns null. -/
def avlGoTo (side : Side) (t : AvlTree κ ρ) (key : κ) : Nat → ρ → Int → Option (Option (ρ × Int))
  | 0, _, _ => none
  | fuel + 1, node, diff =>
      if side.sign * diff > 0 then
        if isEnd side t.list node then some none
        else do
          let node ← neighbor side t.list node
          avlGoTo side t key fuel node (comp key (t.key node))
      else some (some (node, diff))

/-- The second loop: go to `side` as long as the key does not lie before the next node. -/
def avlGoOn (side : Side) (t : AvlTree κ ρ) (key : κ) : Nat → ρ → ρ → Int → Option ρ
  | 0, _, _, _ => none
  | fuel + 1, node, next, diff =>
      if side.sign * diff ≥ 0 then
        if isEnd side t.list next then some next
        else do
          let after ← neighbor side t.list next
          avlGoOn side t key fuel next after (comp key (t.key after))
      else some node

/-- `avl_find_lessequal` for the left side, `avl_find_greaterequal` for the right one. -/
def avlFindNear (side : Side) (fuel : Nat) (t : AvlTree κ ρ) (key : κ) : Option (Option ρ) :=
  match t.root with
  | none => some none
  | some root => do
      let (node, diff) ← avlFindRec comp t key fuel root
      match ← avlGoTo comp side t key fuel node diff with
      | none => some none
      | some (node, diff) => (avlGoOn comp side.flip t key fuel node node diff).map some

/-- `avl_find_lessequal`. -/
def avlFindLessequal (fuel : Nat) (t : AvlTree κ ρ) (key : κ) : Option (Option ρ) :=
  avlFindNear comp .left fuel t key

/-- `avl_find_greaterequal`. -/
def avlFindGreaterequal (fuel : Nat) (t : AvlTree κ ρ) (key : κ) : Option (Option ρ) :=
  avlFindNear comp .right fuel t key

end

/-! ### Rotations -/

/-- The end of a rotation: the balances of the node that went down, and of the one that came up. -/
def avlRotateBalances (side : Side) (t : AvlTree κ ρ) (node up : ρ) : AvlTree κ ρ :=
  let t := t.setBalance node (signedChar (t.balance node + side.sign))
  let t :=
    if side.sign * t.balance up < 0 then t.setBalance node (signedChar (t.balance node - t.balance up))
    else t
  let t := t.setBalance up (signedChar (t.balance up + side.sign))
  if side.sign * t.balance node > 0 then t.setBalance up (signedChar (t.balance up + t.balance node))
  else t

/-- `_avl_rotate_right` and `_avl_rotate_left`: rotate a node to a side, so that its other child comes up. -/
def avlRotate (side : Side) (t : AvlTree κ ρ) (node : ρ) : Option (AvlTree κ ρ) := do
  let up ← t.child side.flip node
  let parent := t.parent node
  let t := (t.setParent up parent).setParent node (some up)
  let t := t.relink parent node (some up)
  let t := t.setChild side.flip node (t.child side up)
  let t := t.setChild side up (some node)
  let t := t.setParentOf (t.child side.flip node) node
  some (avlRotateBalances side t node up)

/-! ### Insertion -/

/-- `_post_insert`. -/
def postInsert : Nat → AvlTree κ ρ → ρ → Option (AvlTree κ ρ)
  | 0, _, _ => none
  | fuel + 1, t, node =>
      match t.parent node with
      | none => some t
      | some parent =>
          let side := t.sideOf parent node
          let t := t.setBalance parent (signedChar (t.balance parent + side.sign))
          if t.balance parent = 0 then some t
          else if t.balance parent = side.sign then postInsert fuel t parent
          else if t.balance node = side.sign then avlRotate side.flip t parent
          else do
            let t ← avlRotate side t node
            let above ← t.parent node
            let top ← t.parent above
            avlRotate side.flip t top

/-- `_avl_insert_before`. -/
def avlInsertBefore (t : AvlTree κ ρ) (pos new : ρ) : Option (AvlTree κ ρ) :=
  (listAddBefore t.list pos new).map fun list => { t with list := list, count := t.count + 1 }

/-- `_avl_insert_after`. -/
def avlInsertAfter (t : AvlTree κ ρ) (pos new : ρ) : Option (AvlTree κ ρ) :=
  (listAddAfter t.list pos new).map fun list => { t with list := list, count := t.count + 1 }

/-- The loop of `avl_insert` that goes to the last node with the key of a leader. -/
def avlLast (t : AvlTree κ ρ) : Nat → ρ → Option ρ
  | 0, _ => none
  | fuel + 1, last =>
      if listIsLast t.list last then some last
      else do
        let next ← nodeOf (t.list.next (.cell last))
        if t.leader next then some last else avlLast t fuel next

/-- `node->balance = ..; new->parent = node; node->left = new` or `node->right = new`. -/
def avlAttach (side : Side) (t : AvlTree κ ρ) (node new : ρ) (balance : Int) : AvlTree κ ρ :=
  ((t.setBalance node balance).setParent new (some node)).setChild side node (some new)

/-- The fields of the new node that `avl_insert` sets first. -/
def avlBlank (t : AvlTree κ ρ) (new : ρ) : AvlTree κ ρ :=
  { t with
    parent := Function.update t.parent new none
    child := fun side => Function.update (t.child side) new none
    balance := Function.update t.balance new 0
    leader := Function.update t.leader new true }

/-- The part of `avl_insert` behind its loop: `node` is where the search has ended, and `last` the last node
    with the key of `node`. -/
def avlInsertAt (comp : κ → κ → Int) (fuel : Nat) (t : AvlTree κ ρ) (node last new : ρ) :
    Option (Int × AvlTree κ ρ) :=
  let diff := comp (t.key new) (t.key node)
  if diff = 0 then
    if t.allowDups then do
      let t ← avlInsertAfter { t with leader := Function.update t.leader new false } last new
      some (0, t)
    else some (-1, t)
  else if t.balance node = 1 then do
    let t ← avlInsertBefore t node new
    some (0, avlAttach .left t node new 0)
  else if t.balance node = -1 then do
    let t ← avlInsertAfter t last new
    some (0, avlAttach .right t node new 0)
  else if diff < 0 then do
    let t ← avlInsertBefore t node new
    let t ← postInsert fuel (avlAttach .left t node new (-1)) node
    some (0, t)
  else do
    let t ← avlInsertAfter t last new
    let t ← postInsert fuel (avlAttach .right t node new 1) node
    some (0, t)

/-- `avl_insert`: the result code, and the tree. -/
def avlInsert (comp : κ → κ → Int) (fuel : Nat) (t : AvlTree κ ρ) (new : ρ) :
    Option (Int × AvlTree κ ρ) :=
  let t := avlBlank t new
  match t.root with
  | none => do
      let list ← listAddHead t.list new
      some (0, { t with list := list, root := some new, count := 1 })
  | some root => do
      let (node, _) ← avlFindRec comp t (t.key new) fuel root
      let last ← avlLast t fuel node
      avlInsertAt comp fuel t node last new

/-! ### Removal -/

/-- What `_avl_post_remove` and the leaf case of `_avl_remove_worker` do once the subtree of `parent` on a
    side has shrunk; `postRemove` is the recursive call. The two compare the new balance in different
    orders. -/
def avlShrunk (postRemove : AvlTree κ ρ → ρ → Option (AvlTree κ ρ)) (side : Side) (t : AvlTree κ ρ)
    (parent : ρ) : Option (AvlTree κ ρ) :=
  let t := t.setBalance parent (signedChar (t.balance parent - side.sign))
  if t.balance parent = 0 then postRemove t parent
  else if t.balance parent = -side.sign then some t
  else do
    let sibling ← t.child side.flip parent
    if t.balance sibling = 0 then avlRotate side t parent
    else if t.balance sibling = -side.sign then do
      let t ← avlRotate side t parent
      postRemove t (← t.parent parent)
    else do
      let t ← avlRotate side.flip t sibling
      let t ← avlRotate side t parent
      postRemove t (← t.parent parent)

/-- `_avl_post_remove`. -/
def avlPostRemove : Nat → AvlTree κ ρ → ρ → Option (AvlTree κ ρ)
  | 0, _, _ => none
  | fuel + 1, t, node =>
      match t.parent node with
      | none => some t
      | some parent => avlShrunk (avlPostRemove fuel) (t.sideOf parent node) t parent

/-- `_avl_local_min`. -/
def avlLocalMin (t : AvlTree κ ρ) : Nat → ρ → Option ρ
  | 0, _ => none
  | fuel + 1, node =>
      match t.child .left node with
      | some left => avlLocalMin t fuel left
      | none => some node

/-- `new` takes the place of `node` in the tree, as the next node with its key does in `avl_remove`, and
    the least node to the right of it in `_avl_remove_worker`. -/
def avlTakePlace (t : AvlTree κ ρ) (node new : ρ) : AvlTree κ ρ :=
  let t := t.setBalance new (t.balance node)
  let parent := t.parent node
  let left := t.child .left node
  let right := t.child .right node
  let t := ((t.setParent new parent).setChild .left new left).setChild .right new right
  let t := t.relink parent node (some new)
  (t.setParentOf left new).setParentOf right new

/-- The cases of `_avl_remove_worker` with one child: it takes the place of its parent. -/
def avlSplice (fuel : Nat) (t : AvlTree κ ρ) (node child : ρ) : Option (AvlTree κ ρ) :=
  match t.parent node with
  | none => some (({ t with root := some child } : AvlTree κ ρ).setParent child none)
  | some parent =>
      avlPostRemove fuel ((t.setParent child (some parent)).relink (some parent) node (some child)) child

/-- `_avl_remove_worker`. -/
def avlRemoveWorker : Nat → AvlTree κ ρ → ρ → Option (AvlTree κ ρ)
  | 0, _, _ => none
  | fuel + 1, t, node =>
      match t.child .left node, t.child .right node with
      | none, none =>
          match t.parent node with
          | none => some { t with root := none }
          | some parent =>
              if t.child .left parent = some node then
                avlShrunk (avlPostRemove fuel) .left (t.setChild .left parent none) parent
              else if t.child .right parent = some node then
                avlShrunk (avlPostRemove fuel) .right (t.setChild .right parent none) parent
              else none
      | none, some right => avlSplice fuel t node right
      | some left, none => avlSplice fuel t node left
      | some _, some right => do
          let min ← avlLocalMin t fuel right
          let t ← avlRemoveWorker fuel t min
          some (avlTakePlace t node min)

/-- The next node with the key of a leader, if duplicates are allowed and there is one. -/
def avlFollower (t : AvlTree κ ρ) (node : ρ) : Option (Option ρ) :=
  if t.allowDups && !listIsLast t.list node then do
    let next ← nodeOf (t.list.next (.cell node))
    some (if t.leader next then none else some next)
  else some none

/-- The part of `avl_remove` that takes a leader out of the tree, or puts the next node with its key there. -/
def avlDetach (fuel : Nat) (t : AvlTree κ ρ) (node : ρ) : Option (AvlTree κ ρ) :=
  if t.leader node then do
    match ← avlFollower t node with
    | some next => some (avlTakePlace { t with leader := Function.update t.leader next true } node next)
    | none => avlRemoveWorker fuel t node
  else some t

/-- `_avl_remove`. -/
def avlUnlink (t : AvlTree κ ρ) (node : ρ) : Option (AvlTree κ ρ) :=
  (listRemove t.list node).map fun list => { t with list := list, count := t.count - 1 }

/-- `avl_remove`. -/
def avlRemove (fuel : Nat) (t : AvlTree κ ρ) (node : ρ) : Option (AvlTree κ ρ) := do
  let t ← avlDetach fuel t node
  avlUnlink t node

/-! ### Iteration -/

/-- The link of an entity to a side. -/
def listLink (list : Links ρ) : Side → Entity ρ → Option (Entity ρ)
  | .left => list.prev
  | .right => list.next

/-- The rounds of a loop over the list to a side, from a link on. It ends at an entity whose link against
    the direction leads to the last element, as that of the head does. -/
def listFrom (side : Side) (list : Links ρ) : Nat → Option (Entity ρ) → Option (List ρ)
  | _, none => none
  | fuel, some element =>
      if listLink list side.flip element = listLink list side.flip .head then some []
      else
        match fuel, element with
        | fuel + 1, .cell r => (listFrom side list fuel (listLink list side (.cell r))).map (r :: ·)
        | _, _ => none

/-- `avl_for_each_element`: the nodes in the order of the rounds. -/
def avlForEach (fuel : Nat) (t : AvlTree κ ρ) : Option (List ρ) :=
  listFrom .right t.list fuel (t.list.next .head)

/-- `avl_for_each_element_reverse`. -/
def avlForEachReverse (fuel : Nat) (t : AvlTree κ ρ) : Option (List ρ) :=
  listFrom .left t.list fuel (t.list.prev .head)

/-- The rounds of `avl_remove_all_elements` with a body that frees the element: `ptr` is read before the
    body runs. The links of a freed node are gone; a round on the list head would be none. -/
def removeAllLoop : Nat → Links ρ → Entity ρ → Entity ρ → Option (List ρ × Links ρ)
  | 0, list, _, _ => some ([], list)
  | _ + 1, _, .head, _ => none
  | count + 1, list, .cell r, ptr => do
      let list : Links ρ :=
        { next := Function.update list.next (.cell r) none, prev := Function.update list.prev (.cell r) none }
      let after ← list.next ptr
      let (freed, list) ← removeAllLoop count list ptr after
      some (r :: freed, list)

/-- `avl_remove_all_elements`, as `_free_tlvblock` uses it: the freed nodes in the order of the rounds. -/
def avlRemoveAll (t : AvlTree κ ρ) : Option (List ρ × AvlTree κ ρ) := do
  let element ← t.list.next .head
  let ptr ← t.list.next element
  let (freed, list) ← removeAllLoop t.count.toNat (listInitHead t.list) element ptr
  some (freed, { t with list := list, root := none, count := 0 })

/-! ### Calls -/

/-- A call of `avl_insert` with a node and the key that it has been given, or of `avl_remove`. -/
inductive AvlCall (κ ρ : Type) where
  | insert (r : ρ) (key : κ)
  | remove (r : ρ)

/-- One call. Its result code is that of `avl_insert`; `avl_remove` has none. -/
def avlCall (comp : κ → κ → Int) (fuel : Nat) (t : AvlTree κ ρ) : AvlCall κ ρ → Option (Int × AvlTree κ ρ)
  | .insert r key => avlInsert comp fuel { t with key := Function.update t.key r key } r
  | .remove r => (avlRemove fuel t r).map ((0, ·))

/-- Calls one after the other, with their result codes. -/
def avlCalls (comp : κ → κ → Int) (fuel : Nat) (t : AvlTree κ ρ) :
    List (AvlCall κ ρ) → Option (List Int × AvlTree κ ρ)
  | [] => some ([], t)
  | call :: calls => do
      let (code, t) ← avlCall comp fuel t call
      let (codes, t) ← avlCalls comp fuel t calls
      some (code :: codes, t)

/-! ### Comparators (lib/common/avl_comp.c) -/

/-- The comparison that the comparators of unsigned integers share. -/
def avlCompUnsigned (u1 u2 : Nat) : Int := if u1 > u2 then 1 else if u2 > u1 then -1 else 0

/-- `avl_comp_uint32`. -/
def avlCompUint32 (k1 k2 : UInt32) : Int := avlCompUnsigned k1.toNat k2.toNat

/-- `avl_comp_uint16`. -/
def avlCompUint16 (k1 k2 : UInt16) : Int := avlCompUnsigned k1.toNat k2.toNat

/-- `avl_comp_uint8`. -/
def avlCompUint8 (k1 k2 : UInt8) : Int := avlCompUnsigned k1.toNat k2.toNat

end Bprd
