/-
Module: Bprd.Proofs.AvlHeap
Layer: Proofs
Purpose: Trees in memory. A tree of Bprd.Lib.HeightTree stands at a place of the pointer structure when the
  pointers, balances and parents of its nodes, and those of the nodes on the way up, are as the tree has
  them. Updates elsewhere keep it; a rotation of the pointers is the rotation of the tree at its place.
Imports: Bprd.Model.Avl
Trusted boundary: none
Main exports: TreeAt, PathAt, StandsAt, PathAt.relink, SameData, StandsAt.rotate, Small
-/
import Bprd.Model.Avl

namespace Bprd

open HeightTree (Side HTree Frame Way bin plug above beside rotate rotated labels_bin_perm plug_append root_bin
  root_mem sign_within)

variable {κ ρ : Type} [DecidableEq ρ]

/-- A tree below a parent. -/
def TreeAt (t : AvlTree κ ρ) : Option ρ → HTree ρ → Prop
  | _, .nil => True
  | parent, .node left r balance right =>
      (t.parent r = parent ∧ t.balance r = balance ∧ t.leader r = true ∧
        t.child .left r = left.root ∧ t.child .right r = right.root) ∧
        TreeAt t (some r) left ∧ TreeAt t (some r) right

/-- A way up from the pointer that holds `hole`. -/
def PathAt (t : AvlTree κ ρ) : Option ρ → Way ρ → Prop
  | hole, [] => t.root = hole
  | hole, f :: path =>
      (t.parent f.label = above path ∧ t.balance f.label = f.balance ∧ t.leader f.label = true ∧
        t.child f.side f.label = hole ∧ t.child f.side.flip f.label = f.sibling.root) ∧
        TreeAt t (some f.label) f.sibling ∧ PathAt t (some f.label) path

/-- A tree stands at a place of the pointer structure. -/
structure StandsAt (t : AvlTree κ ρ) (path : Way ρ) (τ : HTree ρ) : Prop where
  nodup : (τ.labels ++ beside path).Nodup
  tree : TreeAt t (above path) τ
  rest : PathAt t τ.root path

/-- The pointers and the balance of a node are the same. -/
structure SameNode (t t' : AvlTree κ ρ) (r : ρ) : Prop where
  parent : t'.parent r = t.parent r
  child : ∀ side, t'.child side r = t.child side r
  balance : t'.balance r = t.balance r
  leader : t'.leader r = t.leader r

/-- The list, the keys and the count are the same. -/
structure SameData (t t' : AvlTree κ ρ) : Prop where
  list : t'.list = t.list
  key : t'.key = t.key
  leader : t'.leader = t.leader
  count : t'.count = t.count
  allowDups : t'.allowDups = t.allowDups

/-! ### Updates -/

section

variable {t t' t'' : AvlTree κ ρ} {r z : ρ} {side : Side}

omit [DecidableEq ρ] in
theorem SameNode.trans (first : SameNode t t' r) (second : SameNode t' t'' r) : SameNode t t'' r where
  parent := second.parent.trans first.parent
  child := fun side => (second.child side).trans (first.child side)
  balance := second.balance.trans first.balance
  leader := second.leader.trans first.leader

omit [DecidableEq ρ] in
theorem SameData.refl (t : AvlTree κ ρ) : SameData t t := ⟨rfl, rfl, rfl, rfl, rfl⟩

omit [DecidableEq ρ] in
theorem SameData.trans (first : SameData t t') (second : SameData t' t'') : SameData t t'' where
  list := second.list.trans first.list
  key := second.key.trans first.key
  leader := second.leader.trans first.leader
  count := second.count.trans first.count
  allowDups := second.allowDups.trans first.allowDups

@[simp] theorem setParent_child {p : Option ρ} : (t.setParent r p).child = t.child := rfl

@[simp] theorem setParent_self {p : Option ρ} : (t.setParent r p).parent r = p := Function.update_self ..

@[simp] theorem setChild_parent {c : Option ρ} : (t.setChild side r c).parent = t.parent := rfl

@[simp] theorem setBalance_self {b : Int} : (t.setBalance r b).balance r = b := Function.update_self ..

@[simp] theorem setParentOf_child {c : Option ρ} : (t.setParentOf c r).child = t.child := by
  cases c <;> rfl

@[simp] theorem setParentOf_balance {c : Option ρ} : (t.setParentOf c r).balance = t.balance := by
  cases c <;> rfl

@[simp] theorem setParentOf_root {c : Option ρ} : (t.setParentOf c r).root = t.root := by
  cases c <;> rfl

@[simp] theorem relink_parent {p new : Option ρ} : (t.relink p r new).parent = t.parent := by
  cases p <;> rfl

@[simp] theorem relink_balance {p new : Option ρ} : (t.relink p r new).balance = t.balance := by
  cases p <;> rfl

theorem sameNode_setParent {p : Option ρ} (other : z ≠ r) : SameNode t (t.setParent r p) z where
  parent := Function.update_of_ne other ..
  child := fun _ => rfl
  balance := rfl
  leader := rfl

theorem sameNode_setBalance {b : Int} (other : z ≠ r) : SameNode t (t.setBalance r b) z where
  parent := rfl
  child := fun _ => rfl
  balance := Function.update_of_ne other ..
  leader := rfl

@[simp] theorem setChild_self {c : Option ρ} : (t.setChild side r c).child side r = c := by
  simp [AvlTree.setChild]

@[simp] theorem setChild_flip {c : Option ρ} :
    (t.setChild side r c).child side.flip r = t.child side.flip r := by
  simp [AvlTree.setChild, Side.flip_ne]

theorem sameNode_setChild {c : Option ρ} (other : z ≠ r) : SameNode t (t.setChild side r c) z where
  parent := rfl
  child := fun side' => by
    by_cases here : side' = side
    · subst here
      simp [AvlTree.setChild, other]
    · simp [AvlTree.setChild, here]
  balance := rfl
  leader := rfl

theorem sameNode_setParentOf {c : Option ρ} (other : c ≠ some z) :
    SameNode t (t.setParentOf c r) z := by
  cases c with
  | none => exact ⟨rfl, fun _ => rfl, rfl, rfl⟩
  | some c => exact sameNode_setParent fun same => other (congrArg some same.symm)

theorem sameNode_relink {p new : Option ρ} (other : p ≠ some z) :
    SameNode t (t.relink p r new) z := by
  cases p with
  | none => exact ⟨rfl, fun _ => rfl, rfl, rfl⟩
  | some p => exact sameNode_setChild fun same => other (congrArg some same.symm)

theorem sameData_setParent {p : Option ρ} : SameData t (t.setParent r p) := ⟨rfl, rfl, rfl, rfl, rfl⟩

theorem sameData_setChild {c : Option ρ} : SameData t (t.setChild side r c) := ⟨rfl, rfl, rfl, rfl, rfl⟩

theorem sameData_setBalance {b : Int} : SameData t (t.setBalance r b) := ⟨rfl, rfl, rfl, rfl, rfl⟩

theorem sameData_setParentOf {c : Option ρ} : SameData t (t.setParentOf c r) := by
  cases c with
  | none => exact .refl t
  | some c => exact ⟨rfl, rfl, rfl, rfl, rfl⟩

theorem sameData_relink {p new : Option ρ} : SameData t (t.relink p r new) := by
  cases p with
  | none => exact ⟨rfl, rfl, rfl, rfl, rfl⟩
  | some p => exact ⟨rfl, rfl, rfl, rfl, rfl⟩

end

/-! ### Trees and ways up -/

section

variable {t t' : AvlTree κ ρ} {parent hole : Option ρ} {τ near far : HTree ρ} {path : Way ρ} {r old : ρ}
  {s : Side} {b : Int} {f : Frame ρ}

omit [DecidableEq ρ] in
theorem treeAt_bin : TreeAt t parent (bin s near r b far) ↔
    (t.parent r = parent ∧ t.balance r = b ∧ t.leader r = true ∧
      t.child s r = near.root ∧ t.child s.flip r = far.root) ∧
      TreeAt t (some r) near ∧ TreeAt t (some r) far := by
  cases s with
  | left => exact Iff.rfl
  | right =>
      rw [bin, TreeAt, and_comm (a := TreeAt t (some r) near)]
      refine and_congr_left fun _ => ?_
      rw [and_comm (a := t.child .left r = _)]
      exact Iff.rfl

omit [DecidableEq ρ] in
/-- A tree is where its nodes say it is. -/
theorem TreeAt.congr (shown : TreeAt t parent τ) (same : ∀ z ∈ τ.labels, SameNode t t' z) :
    TreeAt t' parent τ := by
  induction τ generalizing parent with
  | nil => trivial
  | node left r balance right ihLeft ihRight =>
      obtain ⟨⟨isParent, isBalance, leads, isLeft, isRight⟩, inLeft, inRight⟩ := shown
      have here := same r (List.mem_append_right _ (List.mem_cons_self ..))
      refine ⟨⟨here.parent.trans isParent, here.balance.trans isBalance, here.leader.trans leads,
        (here.child _).trans isLeft, (here.child _).trans isRight⟩, ihLeft inLeft ?_, ihRight inRight ?_⟩
      · exact fun z member => same z (List.mem_append_left _ member)
      · exact fun z member => same z (List.mem_append_right _ (List.mem_cons_of_mem _ member))

omit [DecidableEq ρ] in
theorem PathAt.congr (shown : PathAt t hole path) (root : t'.root = t.root)
    (same : ∀ z ∈ beside path, SameNode t t' z) : PathAt t' hole path := by
  induction path generalizing hole with
  | nil => exact root.trans shown
  | cons f path ih =>
      obtain ⟨⟨isParent, isBalance, leads, isHole, isSibling⟩, inSibling, rest⟩ := shown
      have here := same f.label (List.mem_cons_self ..)
      refine ⟨⟨here.parent.trans isParent, here.balance.trans isBalance, here.leader.trans leads,
        (here.child _).trans isHole, (here.child _).trans isSibling⟩, inSibling.congr ?_, ih rest ?_⟩
      · exact fun z member => same z (List.mem_cons_of_mem _ (List.mem_append_left _ member))
      · exact fun z member => same z (List.mem_cons_of_mem _ (List.mem_append_right _ member))

/-- A tree below a new parent. -/
theorem TreeAt.setParent (shown : TreeAt t parent τ) (nodup : τ.labels.Nodup) (isRoot : τ.root = some r)
    (new : Option ρ) : TreeAt (t.setParent r new) new τ := by
  cases τ with
  | nil => cases isRoot
  | node left r balance right =>
      cases isRoot
      obtain ⟨⟨_, fields⟩, inLeft, inRight⟩ := shown
      have apart := (List.nodup_middle.mp nodup)
      rw [List.nodup_cons, List.mem_append, not_or] at apart
      refine ⟨⟨setParent_self, fields⟩, inLeft.congr ?_, inRight.congr ?_⟩
      · exact fun z member => sameNode_setParent fun same => apart.1.1 (same ▸ member)
      · exact fun z member => sameNode_setParent fun same => apart.1.2 (same ▸ member)

theorem TreeAt.setParentOf (shown : TreeAt t parent τ) (nodup : τ.labels.Nodup) (new : ρ) :
    TreeAt (t.setParentOf τ.root new) (some new) τ := by
  cases τ with
  | nil => trivial
  | node left r balance right => exact shown.setParent nodup rfl (some new)

omit [DecidableEq ρ] in
theorem TreeAt.root_parent (shown : TreeAt t parent τ) (isRoot : τ.root = some r) : t.parent r = parent := by
  cases τ with
  | nil => cases isRoot
  | node left r balance right =>
      cases isRoot
      exact shown.1.1

omit [DecidableEq ρ] in
theorem TreeAt.root_balance (shown : TreeAt t parent τ) (isRoot : τ.root = some r) : t.balance r = τ.balance := by
  cases τ with
  | nil => cases isRoot
  | node left r balance right =>
      cases isRoot
      exact shown.1.2.1

omit [DecidableEq ρ] in
theorem TreeAt.leads (shown : TreeAt t parent τ) {z : ρ} (member : z ∈ τ.labels) : t.leader z = true := by
  induction τ generalizing parent with
  | nil => cases member
  | node left r balance right ihLeft ihRight =>
      rcases List.mem_append.mp member with inLeft | inRight
      · exact ihLeft shown.2.1 inLeft
      · rcases List.mem_cons.mp inRight with rfl | inRight
        · exact shown.1.2.2.1
        · exact ihRight shown.2.2 inRight

/-- The side on which the source finds a node below its parent. -/
theorem PathAt.sideOf (shown : PathAt t (some old) (f :: path)) (apart : old ∉ f.sibling.labels) :
    t.sideOf f.label old = f.side := by
  obtain ⟨⟨_, _, _, isHole, isSibling⟩, _⟩ := shown
  unfold AvlTree.sideOf
  cases side : f.side with
  | left =>
      rw [side] at isHole
      exact if_pos isHole
  | right =>
      rw [side] at isSibling
      refine if_neg ?_
      rw [show t.child .left f.label = f.sibling.root from isSibling]
      exact fun same => apart (root_mem same)

/-- Put another pointer into the hole. -/
theorem PathAt.relink (shown : PathAt t (some old) path) (nodup : (old :: beside path).Nodup)
    (new : Option ρ) : PathAt (t.relink (above path) old new) new path := by
  cases path with
  | nil => exact rfl
  | cons f path =>
      rw [beside, List.nodup_cons, List.mem_cons, List.mem_append, not_or, not_or, List.nodup_cons,
        List.mem_append, not_or] at nodup
      obtain ⟨⟨_, inSibling, _⟩, ⟨outSibling, outPath⟩, _⟩ := nodup
      have isSide := shown.sideOf inSibling
      obtain ⟨⟨isParent, isBalance, leads, _, isSibling⟩, atSibling, rest⟩ := shown
      show PathAt (t.setChild (t.sideOf f.label old) f.label new) new (f :: path)
      rw [isSide]
      refine ⟨⟨isParent, isBalance, leads, setChild_self, setChild_flip.trans isSibling⟩,
        atSibling.congr ?_, rest.congr rfl ?_⟩
      · exact fun z member => sameNode_setChild fun same => outSibling (same ▸ member)
      · exact fun z member => sameNode_setChild fun same => outPath (same ▸ member)

omit [DecidableEq ρ] in
theorem above_mem {p : ρ} (isAbove : above path = some p) : p ∈ beside path := by
  cases path with
  | nil => cases isAbove
  | cons f path =>
      cases isAbove
      exact List.mem_cons_self ..

/-! ### Places -/

omit [DecidableEq ρ] in
theorem StandsAt.congr (stands : StandsAt t path τ) (root : t'.root = t.root)
    (same : ∀ z ∈ τ.labels ++ beside path, SameNode t t' z) : StandsAt t' path τ where
  nodup := stands.nodup
  tree := stands.tree.congr fun z member => same z (List.mem_append_left _ member)
  rest := stands.rest.congr root fun z member => same z (List.mem_append_right _ member)

omit [DecidableEq ρ] in
theorem standsAt_cons : StandsAt t (f :: path) τ ↔
    StandsAt t path (bin f.side τ f.label f.balance f.sibling) := by
  have perm : (τ.labels ++ beside (f :: path)).Perm
      ((bin f.side τ f.label f.balance f.sibling).labels ++ beside path) := by
    refine (List.perm_middle.trans ?_).trans (labels_bin_perm.append_right _).symm
    rw [List.cons_append, List.append_assoc]
  constructor
  · rintro ⟨nodup, tree, ⟨isParent, isBalance, leads, isHole, isSibling⟩, inSibling, rest⟩
    refine ⟨perm.nodup_iff.mp nodup, ?_, ?_⟩
    · rw [treeAt_bin]
      exact ⟨⟨isParent, isBalance, leads, isHole, isSibling⟩, tree, inSibling⟩
    · rw [root_bin]
      exact rest
  · rintro ⟨nodup, tree, rest⟩
    rw [treeAt_bin] at tree
    rw [root_bin] at rest
    obtain ⟨fields, atNear, atFar⟩ := tree
    exact ⟨perm.nodup_iff.mpr nodup, atNear, fields, atFar, rest⟩

omit [DecidableEq ρ] in
/-- A tree at a place is a part of the whole tree. -/
theorem standsAt_plug : StandsAt t path τ ↔ StandsAt t [] (plug path τ) := by
  induction path generalizing τ with
  | nil => exact Iff.rfl
  | cons f path ih =>
      rw [standsAt_cons, ih]
      exact Iff.rfl

omit [DecidableEq ρ] in
theorem StandsAt.nodup_labels (stands : StandsAt t [] τ) : τ.labels.Nodup := by
  have nodup := stands.nodup
  rwa [beside, List.append_nil] at nodup

omit [DecidableEq ρ] in
theorem standsAt_append {path' : Way ρ} :
    StandsAt t (path ++ path') τ ↔ StandsAt t path' (plug path τ) := by
  rw [standsAt_plug, plug_append, ← standsAt_plug]

end

/-! ### Rotations -/

/-- A number that no rotation takes out of the range of a `signed char`. -/
def Small (b : Int) : Prop := -2 ≤ b ∧ b ≤ 2

theorem signedChar_eq {x : Int} (low : -128 ≤ x) (high : x < 128) : signedChar x = x := by
  rw [signedChar, Int.bmod_eq_of_le]
  · exact low
  · exact high

section

variable {t : AvlTree κ ρ} {x y z : ρ} {s : Side} {path : Way ρ} {a b c : HTree ρ} {bx balance : Int}

/-- The balances after a rotation, with no overflow. -/
theorem avlRotateBalances_eq (apart : x ≠ y) (small : Small (t.balance y)) (small' : Small (t.balance x)) :
    avlRotateBalances s.flip t y x =
      (t.setBalance y (rotated (-s.sign) (t.balance y) (t.balance x)).1).setBalance x
        (rotated (-s.sign) (t.balance y) (t.balance x)).2 := by
  obtain ⟨low, high⟩ := small
  obtain ⟨low', high'⟩ := small'
  obtain ⟨signLow, signHigh⟩ := sign_within s
  have outer : signedChar (t.balance y + -s.sign) = t.balance y + -s.sign :=
    signedChar_eq (by omega) (by omega)
  have outer' : signedChar (t.balance y + -s.sign - t.balance x) = t.balance y + -s.sign - t.balance x :=
    signedChar_eq (by omega) (by omega)
  have inner : signedChar (t.balance x + -s.sign) = t.balance x + -s.sign :=
    signedChar_eq (by omega) (by omega)
  simp only [avlRotateBalances, rotated, AvlTree.setBalance, Function.update_self,
    Function.update_of_ne apart, Function.update_of_ne apart.symm, Side.sign_flip, outer, outer']
  by_cases down : -s.sign * t.balance x < 0
  · simp only [down, if_true, Function.update_self, Function.update_of_ne apart, Function.update_idem,
      inner]
    split
    · rw [signedChar_eq (by omega) (by omega)]
    · rfl
  · simp only [down, if_false, Function.update_self, Function.update_of_ne apart, Function.update_idem,
      inner]
    split
    · rw [signedChar_eq (by omega) (by omega)]
    · rfl

/-- The pointers after a rotation, before the balances are set. -/
def turned (s : Side) (t : AvlTree κ ρ) (y x : ρ) (b : Option ρ) : AvlTree κ ρ :=
  (((((t.setParent x (t.parent y)).setParent y (some x)).relink (t.parent y) y (some x)).setChild s y
    b).setChild s.flip x (some y)).setParentOf b y

theorem avlRotate_eq (apart : x ≠ y) (isUp : t.child s y = some x) (below : t.parent y ≠ some x) :
    avlRotate s.flip t y =
      some (avlRotateBalances s.flip (turned s t y x (t.child s.flip x)) y x) := by
  have kept : ((((t.setParent x (t.parent y)).setParent y (some x)).relink (t.parent y) y
      (some x)).child s.flip x) = t.child s.flip x :=
    (sameNode_relink below).child s.flip
  have hung : ∀ t' : AvlTree κ ρ, ((t'.setChild s y (t.child s.flip x)).setChild s.flip x
      (some y)).child s y = t.child s.flip x := by
    intro t'
    rw [(sameNode_setChild apart.symm).child, setChild_self]
  rw [avlRotate, Side.flip_flip, isUp]
  simp only [Option.bind_eq_bind, Option.bind_some, kept, hung, turned]

/-- A rotation changes the pointers of the two nodes, of the middle subtree and of the parent. -/
theorem sameNode_turned {b : Option ρ} (notX : z ≠ x) (notY : z ≠ y) (notB : b ≠ some z)
    (notParent : t.parent y ≠ some z) : SameNode t (turned s t y x b) z := by
  apply SameNode.trans _ (sameNode_setParentOf notB)
  apply SameNode.trans _ (sameNode_setChild notX)
  apply SameNode.trans _ (sameNode_setChild notY)
  apply SameNode.trans _ (sameNode_relink notParent)
  exact (sameNode_setParent notX).trans (sameNode_setParent notY)

theorem sameData_turned {b : Option ρ} : SameData t (turned s t y x b) := by
  apply SameData.trans _ sameData_setParentOf
  have linked : SameData ((t.setParent x (t.parent y)).setParent y (some x))
      (((t.setParent x (t.parent y)).setParent y (some x)).relink (t.parent y) y (some x)) :=
    sameData_relink
  exact ⟨linked.list, linked.key, linked.leader, linked.count, linked.allowDups⟩

theorem turned_balance {b : Option ρ} : (turned s t y x b).balance = t.balance := by
  rw [turned, setParentOf_balance]
  exact relink_balance

/-- The node that goes down. -/
theorem turned_lower {b : Option ρ} (apart : x ≠ y) (notB : b ≠ some y) (notParent : t.parent y ≠ some y) :
    (turned s t y x b).parent y = some x ∧ (turned s t y x b).child s y = b ∧
      (turned s t y x b).child s.flip y = t.child s.flip y := by
  refine ⟨?_, ?_, ?_⟩
  · rw [turned, (sameNode_setParentOf notB).parent]
    simp
  · rw [turned, setParentOf_child, (sameNode_setChild apart.symm).child]
    simp
  · rw [turned, setParentOf_child, (sameNode_setChild apart.symm).child, setChild_flip]
    exact (sameNode_relink notParent).child s.flip

/-- The node that comes up. -/
theorem turned_upper {b : Option ρ} (apart : x ≠ y) (notB : b ≠ some x) (notParent : t.parent y ≠ some x) :
    (turned s t y x b).parent x = t.parent y ∧ (turned s t y x b).child s x = t.child s x ∧
      (turned s t y x b).child s.flip x = some y := by
  refine ⟨?_, ?_, ?_⟩
  · rw [turned, (sameNode_setParentOf notB).parent, setChild_parent, setChild_parent, relink_parent,
      (sameNode_setParent apart).parent]
    exact setParent_self
  · have other : ∀ t' : AvlTree κ ρ, (t'.setChild s.flip x (some y)).child s x = t'.child s x := by
      intro t'
      simp [AvlTree.setChild, (Side.flip_ne s).symm]
    rw [turned, setParentOf_child, other, (sameNode_setChild apart).child]
    exact (sameNode_relink notParent).child s
  · rw [turned, setParentOf_child]
    exact setChild_self

/-- The rotation of the pointers is the rotation of the tree at its place. -/
theorem StandsAt.rotate (stands : StandsAt t path (bin s (bin s a x bx b) y balance c))
    (small : Small balance) (small' : Small bx) :
    ∃ t', avlRotate s.flip t y = some t' ∧ SameData t t' ∧
      StandsAt t' path (rotate s (bin s (bin s a x bx b) y balance c)) := by
  obtain ⟨nodup, tree, rest⟩ := stands
  obtain ⟨⟨parentY, balanceY, leadsY, nearY, farY⟩, atX, atC⟩ := treeAt_bin.mp tree
  obtain ⟨⟨parentX, balanceX, leadsX, nearX, farX⟩, atA, atB⟩ := treeAt_bin.mp atX
  rw [root_bin] at nearY rest
  have perm : ((bin s (bin s a x bx b) y balance c).labels ++ beside path).Perm
      (y :: x :: (a.labels ++ b.labels ++ (c.labels ++ beside path))) := by
    refine (labels_bin_perm.append_right _).trans (.cons y ?_)
    show ((bin s a x bx b).labels ++ c.labels ++ beside path).Perm _
    rw [List.append_assoc]
    exact labels_bin_perm.append_right _
  have nodup' := perm.nodup_iff.mp nodup
  simp only [List.nodup_cons, List.mem_cons, List.mem_append, not_or, List.nodup_append] at nodup'
  obtain ⟨⟨apart, ⟨yA, yB⟩, yC, yPath⟩, ⟨⟨xA, xB⟩, xC, xPath⟩, ⟨_, nodupB, apartAB⟩, ⟨_, nodupPath, apartCP⟩,
    apartABCP⟩ := nodup'
  have notParent : ∀ z, z ∉ beside path → t.parent y ≠ some z := by
    intro z outside same
    exact outside (above_mem (parentY.symm.trans same))
  have notB : ∀ z, z ∉ b.labels → b.root ≠ some z := fun z outside same => outside (root_mem same)
  have turnedY := @turned_lower κ ρ _ t x y s b.root (Ne.symm apart) (notB y yB) (notParent y yPath)
  have turnedX := @turned_upper κ ρ _ t x y s b.root (Ne.symm apart) (notB x xB) (notParent x xPath)
  rw [parentY, nearX] at turnedX
  rw [farY] at turnedY
  set t₁ := turned s t y x b.root with isTurned
  set down := (HeightTree.rotated (-s.sign) balance bx).1
  set up := (HeightTree.rotated (-s.sign) balance bx).2
  set t' := (t₁.setBalance y down).setBalance x up with isT'
  have frame : ∀ z, z ≠ x → z ≠ y → SameNode t₁ t' z := fun z notX notY =>
    (sameNode_setBalance notY).trans (sameNode_setBalance notX)
  have frame' : ∀ z, z ≠ x → z ≠ y → b.root ≠ some z → t.parent y ≠ some z → SameNode t t' z :=
    fun z notX notY outB outParent =>
      (sameNode_turned notX notY outB outParent).trans (frame z notX notY)
  refine ⟨t', ?_, ?_, ?_⟩
  · rw [avlRotate_eq (Ne.symm apart) nearY (notParent x xPath), farX, ← isTurned]
    rw [avlRotateBalances_eq (Ne.symm apart), isTurned, turned_balance, balanceY, balanceX]
    · rw [isTurned, turned_balance, balanceY]
      exact small
    · rw [isTurned, turned_balance, balanceX]
      exact small'
  · have linked : SameData t t₁ := sameData_turned
    exact ⟨linked.list, linked.key, linked.leader, linked.count, linked.allowDups⟩
  · have leads : t'.leader = t.leader := (@sameData_turned κ ρ _ t x y s b.root).leader
    rw [HeightTree.rotate_bin]
    refine ⟨?_, ?_, ?_⟩
    · rw [← HeightTree.rotate_bin, HeightTree.labels_rotate]
      exact nodup
    · rw [treeAt_bin, treeAt_bin, root_bin]
      refine ⟨⟨turnedX.1, setBalance_self, ?_, turnedX.2⟩, atA.congr ?_, ⟨turnedY.1, ?_, ?_, turnedY.2⟩,
        ?_, atC.congr ?_⟩
      · rw [leads]
        exact leadsX
      · intro z member
        apply frame' z (fun same => xA (same ▸ member)) (fun same => yA (same ▸ member))
        · exact notB z fun inB => apartAB z member z inB rfl
        · exact notParent z fun inPath => apartABCP z (.inl member) z (.inr inPath) rfl
      · exact (Function.update_of_ne apart ..).trans setBalance_self
      · rw [leads]
        exact leadsY
      · -- The middle subtree hangs below another parent.
        have moved : TreeAt t₁ (some y) b := by
          refine TreeAt.setParentOf (?_ : TreeAt _ (some x) b) nodupB _
          apply atB.congr
          intro z member
          have notX : z ≠ x := fun same => xB (same ▸ member)
          have notY : z ≠ y := fun same => yB (same ▸ member)
          apply SameNode.trans _ (sameNode_setChild notX)
          apply SameNode.trans _ (sameNode_setChild notY)
          apply SameNode.trans _ (sameNode_relink ?_)
          · exact (sameNode_setParent notX).trans (sameNode_setParent notY)
          · exact notParent z fun inPath => apartABCP z (.inr member) z (.inr inPath) rfl
        apply moved.congr
        exact fun z member => frame z (fun same => xB (same ▸ member)) fun same => yB (same ▸ member)
      · intro z member
        apply frame' z (fun same => xC (same ▸ member)) (fun same => yC (same ▸ member))
        · exact notB z fun inB => apartABCP z (.inr inB) z (.inl member) rfl
        · exact notParent z fun inPath => apartCP z member z inPath rfl
    · have linked : PathAt ((t.setParent x (above path)).setParent y (some x)) (some y) path := by
        refine rest.congr rfl fun z member => ?_
        apply SameNode.trans (sameNode_setParent ?_) (sameNode_setParent ?_)
        · exact fun same => xPath (same ▸ member)
        · exact fun same => yPath (same ▸ member)
      have crossed := linked.relink (List.nodup_cons.mpr ⟨yPath, nodupPath⟩) (some x)
      rw [root_bin]
      apply crossed.congr
      · rw [isT', isTurned, turned, parentY]
        exact setParentOf_root
      · intro z member
        have notX : z ≠ x := fun same => xPath (same ▸ member)
        have notY : z ≠ y := fun same => yPath (same ▸ member)
        rw [isT', isTurned, turned, parentY]
        apply SameNode.trans _ ((sameNode_setBalance notY).trans (sameNode_setBalance notX))
        apply SameNode.trans _ (sameNode_setParentOf ?_)
        · exact (sameNode_setChild notY).trans (sameNode_setChild notX)
        · exact notB z fun inB => apartABCP z (.inr inB) z (.inr member) rfl

end

end Bprd
