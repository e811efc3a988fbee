/-
Module: Bprd.Proofs.AvlRemoval
Layer: Proofs
Purpose: What removal from the tree of avl.c does to the tree that stands in memory. A node with at most one
  child is cut out and the tree shrunk from there on; a node with two is replaced by the least node to the
  right of it, which is cut out first. The result is balanced and has all other labels in their order.
Imports: Bprd.Proofs.AvlAscent
Trusted boundary: none
Main exports: StandsAt.cutOut, StandsAt.takePlace, StandsAt.removeWorker
-/
import Bprd.Proofs.AvlAscent

namespace Bprd

open HeightTree (Side HTree Frame Way bin plug above before after beside shrunk root_bin root_mem
  labels_bin_perm labels_plug labels_shrunk)

variable {κ ρ : Type} [DecidableEq ρ]

section

variable {t : AvlTree κ ρ} {x child : ρ} {s : Side} {path : Way ρ} {far tree : HTree ρ} {b : Int} {n : Nat}

/-- A child takes the place of its parent. -/
theorem StandsAt.splice (stands : StandsAt t path (bin s .nil x b far)) (isRoot : far.root = some child) :
    StandsAt ((t.setParent child (above path)).relink (above path) x (some child)) path far := by
  obtain ⟨_, notFar, notBeside⟩ := stands.notMem
  obtain ⟨nodup, tree, rest⟩ := stands
  have smaller : (far.labels ++ beside path).Nodup := by
    have perm := (labels_bin_perm.append_right (beside path)).nodup_iff.mp nodup
    exact (List.nodup_cons.mp perm).2
  obtain ⟨nodupFar, nodupBeside, apart⟩ := List.nodup_append.mp smaller
  have outside : ∀ z ∈ beside path, z ≠ child := fun z member same =>
    apart z (same ▸ root_mem isRoot) z member rfl
  obtain ⟨_, _, atFar⟩ := treeAt_bin.mp tree
  refine ⟨smaller, ?_, ?_⟩
  · apply (atFar.setParent nodupFar isRoot (above path)).congr
    intro z member
    apply sameNode_relink
    exact fun same => apart z member z (above_mem same) rfl
  · rw [root_bin] at rest
    rw [isRoot]
    apply PathAt.relink _ (List.nodup_cons.mpr ⟨notBeside, nodupBeside⟩)
    exact rest.congr rfl fun z member => sameNode_setParent (outside z member)

/-- The cases of `_avl_remove_worker` with one child. -/
theorem StandsAt.avlSplice (stands : StandsAt t path (bin s .nil x b far)) (isRoot : far.root = some child)
    (sound : ∀ f ∈ path, Sound f) (fuel : path.length < n) :
    ∃ t', avlSplice n t x child = some t' ∧ SameData t t' ∧ StandsAt t' [] (shrunk path far) := by
  have spliced := stands.splice isRoot
  have isParent : t.parent x = above path := stands.tree.root_parent root_bin
  rw [Bprd.avlSplice, isParent]
  cases path with
  | nil => exact ⟨_, rfl, ⟨rfl, rfl, rfl, rfl, rfl⟩, spliced⟩
  | cons f path =>
      obtain ⟨t', runs, same, stands'⟩ := ascends_postRemove sound fuel _ _ _ spliced isRoot
      exact ⟨t', runs, (sameData_setParent.trans sameData_relink).trans same, stands'⟩

/-- A leaf is cut off. -/
theorem StandsAt.cutLeaf (stands : StandsAt t path (.node .nil x b .nil)) :
    StandsAt (t.relink (above path) x none) path .nil := by
  obtain ⟨_, _, notBeside⟩ := StandsAt.notMem (s := .left) stands
  have nodup := (List.nodup_cons.mp stands.nodup).2
  exact ⟨nodup, trivial, PathAt.relink stands.rest (List.nodup_cons.mpr ⟨notBeside, nodup⟩) none⟩

/-- `_avl_remove_worker` at a node with at most one child. -/
theorem StandsAt.cutOut (stands : StandsAt t path (bin s .nil x b far)) (sound : ∀ f ∈ path, Sound f)
    (fuel : path.length < n) :
    ∃ t', avlRemoveWorker (n + 1) t x = some t' ∧ SameData t t' ∧ StandsAt t' [] (shrunk path far) := by
  obtain ⟨⟨isParent, _, _, isNear, isFar⟩, _⟩ := treeAt_bin.mp stands.tree
  cases isRoot : far.root with
  | none =>
      rw [HeightTree.root_eq_none_iff] at isRoot
      subst isRoot
      have leaf : StandsAt t path (.node .nil x b .nil) := by
        cases s <;> exact stands
      have isLeft : t.child .left x = none := leaf.tree.1.2.2.2.1
      have isRight : t.child .right x = none := leaf.tree.1.2.2.2.2
      have cut := leaf.cutLeaf
      rw [avlRemoveWorker, isLeft, isRight, isParent]
      cases path with
      | nil => exact ⟨_, rfl, ⟨rfl, rfl, rfl, rfl, rfl⟩, cut⟩
      | cons f path =>
          obtain ⟨_, isSide⟩ := leaf.parent_side rfl
          have isHole : t.child f.side f.label = some x := leaf.rest.1.2.2.2.1
          have unlinked : StandsAt (t.setChild f.side f.label none) (f :: path) .nil := by
            rw [← isSide]
            exact cut
          obtain ⟨t', runs, same, stands'⟩ := unlinked.shrinks (sound f (List.mem_cons_self ..))
            (ascends_postRemove (fun g member => sound g (List.mem_cons_of_mem _ member))
              (Nat.lt_of_succ_lt fuel))
          refine ⟨t', ?_, sameData_setChild.trans same, stands'⟩
          rw [← runs]
          cases side : f.side with
          | left =>
              rw [side] at isHole
              exact if_pos isHole
          | right =>
              rw [side] at isHole isSide
              have notLeft : t.child .left f.label ≠ some x := by
                intro isLeftHole
                rw [AvlTree.sideOf, if_pos isLeftHole] at isSide
                cases isSide
              exact (if_neg notLeft).trans (if_pos isHole)
  | some child =>
      obtain ⟨t', runs, same, stands'⟩ := stands.avlSplice isRoot sound fuel
      refine ⟨t', ?_, same, stands'⟩
      rw [← runs]
      rw [isRoot] at isFar
      cases s with
      | left =>
          rw [avlRemoveWorker, isNear, show t.child .right x = some child from isFar]
          rfl
      | right =>
          rw [avlRemoveWorker, isNear, show t.child .left x = some child from isFar]
          rfl

end

section

variable {t : AvlTree κ ρ} {x new : ρ} {path : Way ρ} {l r tree : HTree ρ} {b : Int} {n : Nat}

theorem sameData_takePlace : SameData t (avlTakePlace t x new) := by
  unfold avlTakePlace
  apply SameData.trans _ sameData_setParentOf
  apply SameData.trans _ sameData_setParentOf
  apply SameData.trans _ sameData_relink
  exact ⟨rfl, rfl, rfl, rfl, rfl⟩

/-- A node from outside takes the place of another. -/
theorem StandsAt.takePlace (stands : StandsAt t path (.node l x b r)) (leads : t.leader new = true)
    (fresh : new ∉ (HTree.node l x b r).labels ++ beside path) :
    StandsAt (avlTakePlace t x new) path (.node l new b r) := by
  obtain ⟨notLeft, notRight, notBeside⟩ := StandsAt.notMem (s := .left) stands
  obtain ⟨nodup, ⟨⟨isParent, isBalance, _, isLeft, isRight⟩, atLeft, atRight⟩, rest⟩ := stands
  simp only [HTree.labels, List.append_assoc, List.cons_append, List.mem_append, List.mem_cons, not_or]
    at fresh
  obtain ⟨freshLeft, other, freshRight, freshBeside⟩ := fresh
  have nodup' := (List.perm_middle.append_right (beside path)).nodup_iff.mp nodup
  simp only [List.nodup_cons, List.mem_append, not_or, List.cons_append, List.nodup_append] at nodup'
  obtain ⟨_, ⟨nodupLeft, nodupRight, apart⟩, nodupBeside, apart'⟩ := nodup'
  set t₁ := (((t.setBalance new b).setParent new (above path)).setChild .left new l.root).setChild .right new
    r.root with isT₁
  set t₂ := t₁.relink (above path) x (some new) with isT₂
  have isSame : avlTakePlace t x new = (t₂.setParentOf l.root new).setParentOf r.root new := by
    rw [isT₂, isT₁, ← isBalance, ← isParent, ← isLeft, ← isRight]
    rfl
  have keeps₁ : ∀ z, z ≠ new → SameNode t t₁ z := fun z notNew =>
    (((sameNode_setBalance notNew).trans (sameNode_setParent notNew)).trans
      (sameNode_setChild notNew)).trans (sameNode_setChild notNew)
  have keeps₂ : ∀ z, above path ≠ some z → SameNode t₁ t₂ z := fun z notAbove => sameNode_relink notAbove
  have outLeft : ∀ z, z ∉ l.labels → l.root ≠ some z := fun z outside same => outside (root_mem same)
  have outRight : ∀ z, z ∉ r.labels → r.root ≠ some z := fun z outside same => outside (root_mem same)
  have outPath : ∀ z, z ∉ beside path → above path ≠ some z := fun z outside same => outside (above_mem same)
  have notNew : ∀ z, (z ∈ l.labels ∨ z ∈ r.labels) ∨ z ∈ beside path → z ≠ new := by
    rintro z ((member | member) | member) rfl
    · exact freshLeft member
    · exact freshRight member
    · exact freshBeside member
  have leads' : (avlTakePlace t x new).leader new = true := by
    rw [sameData_takePlace.leader]
    exact leads
  rw [isSame] at leads' ⊢
  have here : SameNode t₁ ((t₂.setParentOf l.root new).setParentOf r.root new) new :=
    ((keeps₂ new (outPath new freshBeside)).trans (sameNode_setParentOf (outLeft new freshLeft))).trans
      (sameNode_setParentOf (outRight new freshRight))
  refine ⟨?_, ⟨⟨?_, ?_, leads', ?_, ?_⟩, ?_, ?_⟩, ?_⟩
  · have perm : ((HTree.node l new b r).labels ++ beside path).Perm
        (new :: (l.labels ++ r.labels ++ beside path)) := List.perm_middle.append_right _
    rw [perm.nodup_iff, List.nodup_cons]
    refine ⟨?_, ((List.perm_middle.append_right (beside path)).nodup_iff.mp nodup).of_cons⟩
    simp [freshLeft, freshRight, freshBeside]
  · exact here.parent.trans setParent_self
  · exact here.balance.trans setBalance_self
  · rw [here.child, isT₁]
    simp [AvlTree.setChild]
  · exact (here.child .right).trans setChild_self
  · have moved : TreeAt (t₂.setParentOf l.root new) (some new) l := by
      refine TreeAt.setParentOf (?_ : TreeAt _ (some x) l) nodupLeft _
      apply atLeft.congr
      intro z member
      exact (keeps₁ z (notNew z (.inl (.inl member)))).trans
        (keeps₂ z (outPath z fun inPath => apart' z (.inl member) z inPath rfl))
    apply moved.congr
    intro z member
    exact sameNode_setParentOf (outRight z fun inRight => apart z member z inRight rfl)
  · refine TreeAt.setParentOf (?_ : TreeAt _ (some x) r) nodupRight _
    apply atRight.congr
    intro z member
    apply SameNode.trans ((keeps₁ z (notNew z (.inl (.inr member)))).trans (keeps₂ z _))
    · exact sameNode_setParentOf (outLeft z fun inLeft => apart z inLeft z member rfl)
    · exact outPath z fun inPath => apart' z (.inr member) z inPath rfl
  · have linked : PathAt t₁ (some x) path :=
      PathAt.congr rest rfl fun z member => keeps₁ z (notNew z (.inr member))
    apply (linked.relink (List.nodup_cons.mpr ⟨notBeside, nodupBeside⟩) (some new)).congr
    · rw [setParentOf_root, setParentOf_root]
    · intro z member
      apply SameNode.trans (sameNode_setParentOf _) (sameNode_setParentOf _)
      · exact outLeft z fun inLeft => apart' z (.inl inLeft) z member rfl
      · exact outRight z fun inRight => apart' z (.inr inRight) z member rfl

omit [DecidableEq ρ] in
/-- `_avl_local_min` finds the leftmost node, which has no child on the left. -/
theorem localMin_spec {parent : Option ρ} {root : ρ} (shown : TreeAt t parent tree)
    (isRoot : tree.root = some root) (fuel : tree.height ≤ n) :
    ∃ path z bz rz, tree = plug path (.node .nil z bz rz) ∧ before path = [] ∧
      avlLocalMin t n root = some z := by
  induction tree generalizing parent root n with
  | nil => cases isRoot
  | node left y b right ihLeft _ =>
      cases isRoot
      obtain ⟨⟨_, _, _, isLeft, _⟩, atLeft, _⟩ := shown
      rw [HTree.height] at fuel
      obtain ⟨n, rfl⟩ := Nat.exists_eq_succ_of_ne_zero (Nat.ne_of_gt (by omega : 0 < n))
      rw [avlLocalMin, isLeft]
      cases left with
      | nil => exact ⟨[], y, b, right, rfl, rfl, rfl⟩
      | node l z c r =>
          obtain ⟨path, z', bz, rz, same, first, isMin⟩ := ihLeft atLeft rfl (n := n) (by omega)
          refine ⟨path ++ [⟨.left, y, b, right⟩], z', bz, rz, ?_, ?_, isMin⟩
          · rw [HeightTree.plug_append, ← same]
            rfl
          · rw [HeightTree.before_append, first]
            rfl

theorem labels_erase (nodup : (plug path (HTree.node l x b r)).labels.Nodup) :
    (plug path (HTree.node l x b r)).labels.erase x =
      before path ++ (l.labels ++ r.labels) ++ after path := by
  have split : (plug path (HTree.node l x b r)).labels =
      (before path ++ l.labels) ++ x :: (r.labels ++ after path) := by
    simp [labels_plug, HTree.labels]
  rw [split] at nodup ⊢
  have fresh := (List.nodup_cons.mp (List.nodup_middle.mp nodup)).1
  rw [List.erase_append_right _ fun member => fresh (List.mem_append_left _ member), List.erase_cons_head]
  simp

/-- `_avl_remove_worker` takes a node out of a balanced tree. -/
theorem StandsAt.removeWorker (stands : StandsAt t [] tree) (balanced : HeightTree.Balanced tree)
    (member : x ∈ tree.labels) (fuel : tree.height < n) :
    ∃ t' tree', avlRemoveWorker (n + 1) t x = some t' ∧ SameData t t' ∧ StandsAt t' [] tree' ∧
      HeightTree.Balanced tree' ∧ tree'.labels = tree.labels.erase x := by
  obtain ⟨path, l, b, r, rfl⟩ := HeightTree.exists_place member
  have place : StandsAt t path (.node l x b r) := standsAt_plug.mpr stands
  obtain ⟨balancedNode, balancedPath⟩ := HeightTree.balanced_plug.mp balanced
  obtain ⟨weight, low, high, balancedLeft, balancedRight⟩ := balancedNode
  have long := @HeightTree.length_add_height_le ρ path (.node l x b r)
  rw [HTree.height] at long balancedPath
  have short : path.length < n := by omega
  have nodup := stands.nodup_labels
  rw [labels_erase nodup]
  cases isLeft : l.root with
  | none =>
      rw [HeightTree.root_eq_none_iff] at isLeft
      subst isLeft
      obtain ⟨t', runs, same, stands'⟩ := StandsAt.cutOut (s := .left) place
        (sound_of_pathBalanced balancedPath) short
      refine ⟨t', shrunk path r, runs, same, stands', ?_, labels_shrunk⟩
      apply HeightTree.shrunk_balanced balancedRight
      simpa [HTree.height, Nat.add_comm] using balancedPath
  | some left =>
      cases isRight : r.root with
      | none =>
          rw [HeightTree.root_eq_none_iff] at isRight
          subst isRight
          obtain ⟨t', runs, same, stands'⟩ := StandsAt.cutOut (s := .right) place
            (sound_of_pathBalanced balancedPath) short
          refine ⟨t', shrunk path l, runs, same, stands', ?_, ?_⟩
          · apply HeightTree.shrunk_balanced balancedLeft
            simpa [HTree.height, Nat.add_comm] using balancedPath
          · rw [labels_shrunk, HTree.labels, List.append_nil]
      | some right =>
          obtain ⟨⟨_, _, _, holdsLeft, holdsRight⟩, _, atRight⟩ := place.tree
          obtain ⟨n, rfl⟩ := Nat.exists_eq_succ_of_ne_zero (Nat.ne_of_gt (Nat.zero_lt_of_lt fuel))
          obtain ⟨inner, z, bz, rz, rfl, first, isMin⟩ := localMin_spec (n := n + 1) atRight isRight (by omega)
          -- The least node to the right is cut out first.
          have whole : plug path (.node l x b (plug inner (.node .nil z bz rz))) =
              plug (inner ++ ⟨.right, x, b, l⟩ :: path) (.node .nil z bz rz) := by
            rw [HeightTree.plug_append]
            rfl
          have lower : StandsAt t (inner ++ ⟨.right, x, b, l⟩ :: path) (bin .left .nil z bz rz) :=
            standsAt_append.mpr (standsAt_cons.mpr place)
          rw [whole] at balanced fuel nodup
          obtain ⟨balancedMin, balancedInner⟩ := HeightTree.balanced_plug.mp balanced
          have deep := @HeightTree.length_add_height_le ρ (inner ++ ⟨.right, x, b, l⟩ :: path)
            (.node .nil z bz rz)
          rw [HTree.height] at deep balancedInner
          obtain ⟨t₁, runs, same, stands₁⟩ := lower.cutOut (n := n) (sound_of_pathBalanced balancedInner)
            (by omega)
          have balanced₁ : HeightTree.Balanced (shrunk (inner ++ ⟨.right, x, b, l⟩ :: path) rz) := by
            apply HeightTree.shrunk_balanced balancedMin.2.2.2.2
            simpa [HTree.height, Nat.add_comm] using balancedInner
          have labels₁ : (shrunk (inner ++ ⟨.right, x, b, l⟩ :: path) rz).labels =
              (before path ++ l.labels) ++ x :: (rz.labels ++ after inner ++ after path) := by
            rw [labels_shrunk, HeightTree.before_append, HeightTree.after_append, first]
            simp [before, after, Frame.before, Frame.after]
          -- It then takes the place of the node.
          have split : (plug (inner ++ ⟨.right, x, b, l⟩ :: path) (.node .nil z bz rz)).labels =
              (before path ++ l.labels) ++ x :: z :: (rz.labels ++ after inner ++ after path) := by
            rw [labels_plug, HeightTree.before_append, HeightTree.after_append, first]
            simp [before, after, Frame.before, Frame.after, HTree.labels]
          rw [split] at nodup
          have only : z ∉ (before path ++ l.labels) ++ x :: (rz.labels ++ after inner ++ after path) := by
            have nodup' := List.nodup_middle.mp nodup
            rw [List.nodup_cons, List.nodup_middle, List.nodup_cons] at nodup'
            have other : z ≠ x := by
              rintro rfl
              exact nodup'.1 (List.mem_append_right _ (List.mem_cons_self ..))
            simpa [other] using nodup'.2.1
          obtain ⟨path', l', b', r', isPlace, isBefore, isAfter⟩ :=
            HeightTree.exists_place_at labels₁ stands₁.nodup_labels
          rw [← labels₁, isPlace] at only
          rw [isPlace] at stands₁ balanced₁
          have leads : t₁.leader z = true := by
            rw [same.leader]
            apply atRight.leads
            simp [labels_plug, HTree.labels]
          have taken := (standsAt_plug.mpr stands₁).takePlace leads fun member =>
            only (HeightTree.labels_plug_perm.mem_iff.mpr member)
          refine ⟨avlTakePlace t₁ x z, plug path' (.node l' z b' r'), ?_, same.trans sameData_takePlace,
            standsAt_plug.mp taken, ?_, ?_⟩
          · rw [avlRemoveWorker, holdsLeft, isLeft, holdsRight, isRight]
            simp only [isMin, runs, Option.bind_eq_bind, Option.bind_some]
          · obtain ⟨atNode, onPath⟩ := HeightTree.balanced_plug.mp balanced₁
            exact HeightTree.balanced_plug.mpr ⟨atNode, onPath⟩
          · have relabelled : (plug path' (HTree.node l' z b' r')).labels =
                (before path' ++ l'.labels) ++ z :: (r'.labels ++ after path') := by
              simp [labels_plug, HTree.labels]
            rw [relabelled, isBefore, isAfter, labels_plug, first]
            simp [HTree.labels]

end

end Bprd
