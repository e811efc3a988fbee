/-
Module: Bprd.Proofs.AvlInsertion
Layer: Proofs
Purpose: What insertion into the tree of avl.c does to the tree that stands in memory. The new node becomes a
  leaf below a node that has room on a side; if that node was level, the tree is grown. The result is
  balanced, with the new label next to the old one.
Imports: Bprd.Proofs.AvlAscent
Trusted boundary: none
Main exports: Blank, leaf, StandsAt.attach, StandsAt.attachLeaning, StandsAt.attachLevel, labelsWith,
  StandsAt.newLeaf
-/
import Bprd.Proofs.AvlAscent

namespace Bprd

open HeightTree (Side HTree Frame Way bin plug above before after beside grown root_bin root_mem
  labels_bin_perm labels_plug labels_grown sign_cases)

variable {κ ρ : Type} [DecidableEq ρ]

/-! ### A new leaf -/

section

variable {t : AvlTree κ ρ} {x new : ρ} {s : Side} {path : Way ρ} {far tree : HTree ρ} {b b' : Int} {n : Nat}

/-- A node as `avl_insert` leaves it before it looks for a place. -/
structure Blank (t : AvlTree κ ρ) (new : ρ) : Prop where
  child : ∀ side, t.child side new = none
  balance : t.balance new = 0
  leads : t.leader new = true

/-- The tree of one node. -/
def leaf (new : ρ) : HTree ρ := .node .nil new 0 .nil

/-- A blank node becomes a leaf below a node that has room on a side. -/
theorem StandsAt.attach (stands : StandsAt t path (bin s .nil x b far)) (blank : Blank t new)
    (fresh : new ∉ (bin s .nil x b far).labels ++ beside path) (b' : Int) :
    StandsAt (avlAttach s t x new b') path (bin s (leaf new) x b' far) := by
  obtain ⟨_, notFar, notBeside⟩ := stands.notMem
  obtain ⟨nodup, tree, rest⟩ := stands
  obtain ⟨⟨isParent, _, leads, _, isFar⟩, _, atFar⟩ := treeAt_bin.mp tree
  have perm : ((bin s .nil x b far).labels ++ beside path).Perm (x :: (far.labels ++ beside path)) :=
    labels_bin_perm.append_right _
  rw [perm.mem_iff, List.mem_cons, List.mem_append, not_or, not_or] at fresh
  obtain ⟨other, freshFar, freshBeside⟩ := fresh
  have keeps : ∀ z, z ≠ x → z ≠ new → SameNode t (avlAttach s t x new b') z := fun z notX notNew =>
    ((sameNode_setBalance notX).trans (sameNode_setParent notNew)).trans (sameNode_setChild notX)
  have apart : ∀ z, z ∈ far.labels ∨ z ∈ beside path → z ≠ x ∧ z ≠ new := by
    rintro z (member | member)
    · exact ⟨fun same => notFar (same ▸ member), fun same => freshFar (same ▸ member)⟩
    · exact ⟨fun same => notBeside (same ▸ member), fun same => freshBeside (same ▸ member)⟩
  refine ⟨?_, ?_, ?_⟩
  · have perm' : ((bin s (leaf new) x b' far).labels ++ beside path).Perm
        (new :: x :: (far.labels ++ beside path)) := by
      refine (labels_bin_perm.append_right _).trans ?_
      exact List.Perm.swap ..
    rw [perm'.nodup_iff, List.nodup_cons]
    refine ⟨?_, perm.nodup_iff.mp nodup⟩
    simp [other, freshFar, freshBeside]
  · rw [treeAt_bin]
    refine ⟨⟨?_, ?_, leads, setChild_self, setChild_flip.trans isFar⟩, ?_, atFar.congr ?_⟩
    · exact (Function.update_of_ne (Ne.symm other) ..).trans isParent
    · exact setBalance_self
    · have blank' : ∀ side, (avlAttach s t x new b').child side new = none := fun side =>
        ((sameNode_setChild other).child side).trans (blank.child side)
      refine ⟨⟨setParent_self, ?_, blank.leads, blank' .left, blank' .right⟩, trivial, trivial⟩
      exact (Function.update_of_ne other ..).trans blank.balance
    · exact fun z member => keeps z (apart z (.inl member)).1 (apart z (.inl member)).2
  · rw [root_bin] at rest ⊢
    exact PathAt.congr rest rfl fun z member =>
      keeps z (apart z (.inr member)).1 (apart z (.inr member)).2

/-- A new leaf under a node of a balanced tree that leans to the other side. -/
theorem StandsAt.attachLeaning (stands : StandsAt t path (bin s .nil x s.flip.sign far))
    (balanced : HeightTree.Balanced (plug path (bin s .nil x s.flip.sign far))) (blank : Blank t new)
    (fresh : new ∉ (bin s .nil x s.flip.sign far).labels ++ beside path) :
    StandsAt (avlAttach s t x new 0) [] (plug path (bin s (leaf new) x 0 far)) ∧
      HeightTree.Balanced (plug path (bin s (leaf new) x 0 far)) := by
  refine ⟨standsAt_plug.mp (stands.attach blank fresh 0), ?_⟩
  obtain ⟨node, onPath⟩ := HeightTree.balanced_plug.mp balanced
  obtain ⟨weight, _, _, _, balancedFar⟩ := HeightTree.balanced_bin.mp node
  have height : far.height = 1 := by
    rw [Side.sign_flip, HTree.height] at weight
    rcases sign_cases s with sign | sign
    · rw [sign] at weight
      omega
    · rw [sign] at weight
      omega
  rw [HeightTree.height_bin, height] at onPath
  rw [HeightTree.balanced_plug, HeightTree.balanced_bin, HeightTree.height_bin, height]
  refine ⟨⟨?_, by decide, by decide, ⟨rfl, by decide, by decide, trivial, trivial⟩, balancedFar⟩, onPath⟩
  exact (mul_zero _).symm

/-- A new leaf under a level node of a balanced tree, which is then grown. -/
theorem StandsAt.attachLevel (stands : StandsAt t path (bin s .nil x 0 far))
    (balanced : HeightTree.Balanced (plug path (bin s .nil x 0 far))) (blank : Blank t new)
    (fresh : new ∉ (bin s .nil x 0 far).labels ++ beside path) (fuel : path.length < n) :
    ∃ t', Bprd.postInsert n (avlAttach s t x new s.sign) x = some t' ∧
      SameData (avlAttach s t x new s.sign) t' ∧
      StandsAt t' [] (grown path (bin s (leaf new) x s.sign far)) ∧
      HeightTree.Balanced (grown path (bin s (leaf new) x s.sign far)) := by
  obtain ⟨node, onPath⟩ := HeightTree.balanced_plug.mp balanced
  obtain ⟨weight, _, _, _, balancedFar⟩ := HeightTree.balanced_bin.mp node
  have height : far.height = 0 := by
    rw [HTree.height] at weight
    rcases sign_cases s with sign | sign
    · rw [sign] at weight
      omega
    · rw [sign] at weight
      omega
  have leans : Leans (bin s (leaf new) x s.sign far) :=
    ⟨s, leaf new, x, far, rfl, by simp [leaf], by simp [leaf, HTree.balance], by simp [leaf, HTree.balance]⟩
  have within : ∀ f ∈ path, -1 ≤ f.balance ∧ f.balance ≤ 1 := fun f member =>
    ⟨(sound_of_pathBalanced onPath f member).low, (sound_of_pathBalanced onPath f member).high⟩
  obtain ⟨t', runs, same, stands'⟩ := (stands.attach blank fresh s.sign).postInsert leans root_bin within fuel
  refine ⟨t', runs, same, stands', ?_⟩
  rw [HeightTree.height_bin, height] at onPath
  apply HeightTree.grown_balanced _ onPath
  · rw [HeightTree.height_bin, height]
    rfl
  · rw [HeightTree.balance_bin]
    cases s <;> decide
  · rw [HeightTree.balanced_bin, height]
    refine ⟨?_, (HeightTree.sign_within s).1, (HeightTree.sign_within s).2,
      ⟨rfl, by decide, by decide, trivial, trivial⟩, balancedFar⟩
    exact (mul_one _).symm

/-- The labels after a new leaf. -/
def labelsWith (s : Side) (path : Way ρ) (new x : ρ) (far : HTree ρ) : List ρ :=
  before path ++ (bin s (leaf new) x 0 far).labels ++ after path

/-- A new leaf under a node with room on a side: the node leans to the other side, or it is level and the
    tree is grown. -/
theorem StandsAt.newLeaf (stands : StandsAt t path (bin s .nil x b far))
    (balanced : HeightTree.Balanced (plug path (bin s .nil x b far))) (blank : Blank t new)
    (fresh : new ∉ (bin s .nil x b far).labels ++ beside path) (fuel : path.length < n) :
    (t.balance x = s.flip.sign ∧ ∃ tree, StandsAt (avlAttach s t x new 0) [] tree ∧
      HeightTree.Balanced tree ∧ tree.labels = labelsWith s path new x far) ∨
    (t.balance x = 0 ∧ ∃ t' tree, Bprd.postInsert n (avlAttach s t x new s.sign) x = some t' ∧
      SameData (avlAttach s t x new s.sign) t' ∧ StandsAt t' [] tree ∧ HeightTree.Balanced tree ∧
      tree.labels = labelsWith s path new x far) := by
  have isBalance : t.balance x = b := (treeAt_bin.mp stands.tree).1.2.1
  obtain ⟨weight, low, high, _⟩ := HeightTree.balanced_bin.mp (HeightTree.balanced_plug.mp balanced).1
  have cases : b = s.flip.sign ∨ b = 0 := by
    rw [Side.sign_flip]
    rw [HTree.height] at weight
    rcases sign_cases s with sign | sign
    · rw [sign] at weight ⊢
      omega
    · rw [sign] at weight ⊢
      omega
  have same : ∀ b', (bin s (leaf new) x b' far).labels = (bin s (leaf new) x 0 far).labels := by
    cases s <;> exact fun _ => rfl
  rcases cases with rfl | rfl
  · obtain ⟨stands', balanced'⟩ := stands.attachLeaning balanced blank fresh
    exact .inl ⟨isBalance, _, stands', balanced', labels_plug⟩
  · obtain ⟨t', runs, sameData, stands', balanced'⟩ := stands.attachLevel balanced blank fresh fuel
    refine .inr ⟨isBalance, t', _, runs, sameData, stands', balanced', ?_⟩
    rw [labels_grown, same, labelsWith]

end

end Bprd
