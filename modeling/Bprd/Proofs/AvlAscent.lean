/-
Module: Bprd.Proofs.AvlAscent
Layer: Proofs
Purpose: The two ascents of avl.c on the pointers are those of Bprd.Lib.HeightTree on the tree that stands
  there: `_post_insert` grows it, and `_avl_post_remove`, with the leaf case of `_avl_remove_worker` that
  repeats its body, shrinks it. No balance leaves the range of a `signed char` on the way.
Imports: Bprd.Proofs.AvlHeap
Trusted boundary: none
Main exports: StandsAt.setBalance, Leans, StandsAt.postInsert, Sound, sound_of_pathBalanced, StandsAt.shrinks,
  Ascends, ascends_postRemove
-/
import Bprd.Proofs.AvlHeap

namespace Bprd

open HeightTree (Side HTree Frame Way bin plug above beside grown shrunk root_bin root_mem bin_flip exists_bin
  sign_cases sign_within labels_bin_perm)

variable {κ ρ : Type} [DecidableEq ρ]

/-! ### Insertion -/

section

variable {t : AvlTree κ ρ} {y node : ρ} {s : Side} {path : Way ρ} {near far tree : HTree ρ} {b b' : Int}

omit [DecidableEq ρ] in
/-- A node is nowhere else. -/
theorem StandsAt.notMem (stands : StandsAt t path (bin s near y b far)) :
    y ∉ near.labels ∧ y ∉ far.labels ∧ y ∉ beside path := by
  have nodup := (labels_bin_perm.append_right (beside path)).nodup_iff.mp stands.nodup
  have apart := (List.nodup_cons.mp nodup).1
  simpa [and_assoc] using apart

/-- A new balance of a node. -/
theorem StandsAt.setBalance (stands : StandsAt t path (bin s near y b far)) (b' : Int) :
    StandsAt (t.setBalance y b') path (bin s near y b' far) := by
  obtain ⟨notNear, notFar, notBeside⟩ := stands.notMem
  obtain ⟨nodup, tree, rest⟩ := stands
  obtain ⟨⟨isParent, _, leads, children⟩, atNear, atFar⟩ := treeAt_bin.mp tree
  refine ⟨?_, ?_, ?_⟩
  · have perm : (bin s near y b far).labels.Perm (bin s near y b' far).labels :=
      labels_bin_perm.trans labels_bin_perm.symm
    exact (perm.append_right _).nodup_iff.mp nodup
  · rw [treeAt_bin]
    refine ⟨⟨isParent, setBalance_self, leads, children⟩, atNear.congr ?_, atFar.congr ?_⟩
    · exact fun z member => sameNode_setBalance fun same => notNear (same ▸ member)
    · exact fun z member => sameNode_setBalance fun same => notFar (same ▸ member)
  · rw [root_bin] at rest ⊢
    exact rest.congr rfl fun z member => sameNode_setBalance fun same => notBeside (same ▸ member)

/-- A tree that is higher on one side, by a subtree that is not far from level. -/
def Leans (tree : HTree ρ) : Prop :=
  ∃ s near x far, tree = bin s near x s.sign far ∧ near ≠ .nil ∧ -1 ≤ near.balance ∧ near.balance ≤ 1

omit [DecidableEq ρ] in
theorem Leans.bin (leans : Leans tree) : Leans (bin s tree y s.sign far) := by
  obtain ⟨s', near, x, far', rfl, _⟩ := leans
  refine ⟨s, _, y, far, rfl, ?_, ?_⟩
  · cases s' <;> simp [HeightTree.bin]
  · rw [HeightTree.balance_bin]
    exact sign_within s'

/-- What a node finds at its parent. -/
theorem StandsAt.parent_side {f : Frame ρ} (stands : StandsAt t (f :: path) tree)
    (isRoot : tree.root = some node) : t.parent node = some f.label ∧ t.sideOf f.label node = f.side := by
  have apart := (List.nodup_append.mp stands.nodup).2.2
  have outside : node ∉ f.sibling.labels := by
    intro member
    refine apart node (root_mem isRoot) node ?_ rfl
    exact List.mem_cons_of_mem _ (List.mem_append_left _ member)
  have hole := stands.rest
  rw [isRoot] at hole
  exact ⟨stands.tree.root_parent isRoot, hole.sideOf outside⟩

/-- The balance of the node that a rotation towards the higher side brings up. -/
theorem rotated_small (low : -1 ≤ b) (high : b ≤ 1) : Small (HeightTree.rotated (-s.sign) s.sign b).2 := by
  unfold Small HeightTree.rotated
  rcases sign_cases s with sign | sign
  · rw [sign]
    dsimp only
    constructor
    · split_ifs <;> omega
    · split_ifs <;> omega
  · rw [sign]
    dsimp only
    constructor
    · split_ifs <;> omega
    · split_ifs <;> omega

theorem small_sign (s : Side) : Small s.sign := by
  cases s <;> exact ⟨by decide, by decide⟩

/-- The inner grandchild comes up twice: first above its parent, then above the node over both. -/
theorem StandsAt.rotateTwice {o : Side} {x z : ρ} {a c d : HTree ρ} {tilt : Int} (opposite : o = s.flip)
    (stands : StandsAt t path (bin s (bin o (bin o a z b near) x o.sign far) y tilt c))
    (steep : Small tilt) (low : -1 ≤ b) (high : b ≤ 1)
    (isWhole : d = HeightTree.rotate s
      (bin s (HeightTree.rotate o (bin o (bin o a z b near) x o.sign far)) y tilt c)) :
    ∃ t₁ t₂, avlRotate s t x = some t₁ ∧ t₁.parent x = some z ∧ t₁.parent z = some y ∧
      avlRotate o t₁ y = some t₂ ∧ t₂.parent y = some z ∧ d.root = some z ∧ SameData t t₂ ∧
      StandsAt t₂ path d := by
  subst opposite
  -- The first rotation is at the place of the lower node.
  have inner : StandsAt t (⟨s, y, tilt, c⟩ :: path) (bin s.flip (bin s.flip a z b near) x s.flip.sign far) :=
    standsAt_cons.mpr stands
  obtain ⟨t₁, runs₁, same₁, stands₁⟩ := inner.rotate (small_sign _) ⟨by omega, by omega⟩
  have outer := standsAt_cons.mp stands₁
  rw [HeightTree.rotate_bin] at stands₁ outer isWhole
  have parentUp : t₁.parent z = some y := stands₁.tree.root_parent root_bin
  have parentNode : t₁.parent x = some z := ((treeAt_bin.mp stands₁.tree).2.2).root_parent root_bin
  rw [Side.flip_flip] at runs₁
  rw [bin_flip] at outer isWhole
  obtain ⟨t₂, runs₂, same₂, stands₂⟩ := outer.rotate steep (rotated_small low high)
  rw [← isWhole] at stands₂
  rw [HeightTree.rotate_bin] at isWhole
  have isRoot : d.root = some z := by
    rw [isWhole]
    exact root_bin
  have parentDown : t₂.parent y = some z := by
    rw [isWhole] at stands₂
    exact ((treeAt_bin.mp stands₂.tree).2.2).root_parent root_bin
  exact ⟨t₁, t₂, runs₁, parentNode, parentUp, runs₂, parentDown, isRoot, same₁.trans same₂, stands₂⟩

theorem sign_injective {s s' : Side} (same : s.sign = s'.sign) : s = s' := by
  cases s <;> cases s' <;> first | rfl | cases same

/-- `_post_insert` grows the tree in place. -/
theorem StandsAt.postInsert {n : Nat} (stands : StandsAt t path tree) (leans : Leans tree)
    (isRoot : tree.root = some node) (within : ∀ f ∈ path, -1 ≤ f.balance ∧ f.balance ≤ 1)
    (fuel : path.length < n) :
    ∃ t', postInsert n t node = some t' ∧ SameData t t' ∧ StandsAt t' [] (grown path tree) := by
  induction path generalizing t tree node n with
  | nil =>
      obtain ⟨n, rfl⟩ := Nat.exists_eq_succ_of_ne_zero (Nat.ne_of_gt fuel)
      refine ⟨t, ?_, .refl t, stands⟩
      rw [Bprd.postInsert, stands.tree.root_parent isRoot]
      rfl
  | cons f path ih =>
      obtain ⟨n, rfl⟩ := Nat.exists_eq_succ_of_ne_zero (Nat.ne_of_gt (Nat.zero_lt_of_lt fuel))
      obtain ⟨low, high⟩ := within f (List.mem_cons_self ..)
      obtain ⟨signLow, signHigh⟩ := sign_within f.side
      obtain ⟨isParent, isSide⟩ := stands.parent_side isRoot
      have isBalance : t.balance f.label = f.balance := stands.rest.1.2.1
      have inRange : signedChar (f.balance + f.side.sign) = f.balance + f.side.sign :=
        signedChar_eq (by omega) (by omega)
      have whole := (standsAt_cons.mp stands).setBalance (f.balance + f.side.sign)
      have apart : node ≠ f.label := fun same => (standsAt_cons.mp stands).notMem.1 (same ▸ root_mem isRoot)
      have sameBalance : (t.setBalance f.label (f.balance + f.side.sign)).balance node = tree.balance :=
        (sameNode_setBalance apart).balance.trans (stands.tree.root_balance isRoot)
      have sameData : SameData t (t.setBalance f.label (f.balance + f.side.sign)) :=
        sameData_setBalance
      rw [Bprd.postInsert, isParent, grown]
      simp only [isSide, isBalance, inRange, setBalance_self]
      split
      · exact ⟨_, rfl, sameData, standsAt_plug.mp whole⟩
      · split
        · rename_i tips
          rw [tips] at whole sameData ⊢
          obtain ⟨t', runs, same, stands'⟩ := ih whole leans.bin root_bin
            (fun f member => within f (List.mem_cons_of_mem _ member)) (Nat.lt_of_succ_lt_succ fuel)
          exact ⟨t', runs, sameData.trans same, stands'⟩
        · rename_i level tips
          obtain ⟨s, near, x, far, rfl, nonempty, low', high'⟩ := leans
          rw [root_bin] at isRoot
          cases isRoot
          have steep : Small (f.balance + f.side.sign) := by
            unfold Small
            omega
          rw [sameBalance, HeightTree.balance_bin]
          split
          · rename_i straight
            have isNear : s = f.side := sign_injective straight
            subst isNear
            obtain ⟨a, z, bz, b, rfl⟩ := exists_bin f.side nonempty
            obtain ⟨t', runs, same, stands'⟩ := whole.rotate steep (small_sign f.side)
            exact ⟨t', runs, sameData.trans same, standsAt_plug.mp stands'⟩
          · rename_i bent
            have isFar : s = f.side.flip := by
              rcases Side.eq_or_eq_flip f.side s with same | same
              · exact absurd (congrArg Side.sign same) bent
              · exact same
            subst isFar
            obtain ⟨a, z, bz, b, rfl⟩ := exists_bin f.side.flip nonempty
            rw [HeightTree.balance_bin] at low' high'
            obtain ⟨t₁, t', runs₁, parentNode, parentUp, runs, _, _, same, stands'⟩ :=
              whole.rotateTwice rfl steep low' high' rfl
            refine ⟨t', ?_, sameData.trans same, standsAt_plug.mp stands'⟩
            rw [runs₁]
            simp only [Option.bind_eq_bind, Option.bind_some, parentNode, parentUp, runs]

end

/-! ### Removal -/

/-- A frame below which a subtree may shrink. -/
structure Sound (f : Frame ρ) : Prop where
  low : -1 ≤ f.balance
  high : f.balance ≤ 1
  sibling : HeightTree.Balanced f.sibling
  nonempty : f.balance = -f.side.sign → f.sibling ≠ .nil

omit [DecidableEq ρ] in
theorem sound_of_pathBalanced {path : Way ρ} {h : Nat} (balanced : HeightTree.PathBalanced path h) :
    ∀ f ∈ path, Sound f := by
  induction path generalizing h with
  | nil => exact fun _ member => absurd member (List.not_mem_nil)
  | cons f path ih =>
      obtain ⟨weight, low, high, sibling, rest⟩ := balanced
      intro g member
      rcases List.mem_cons.mp member with rfl | member
      · refine ⟨low, high, sibling, fun tips empty => ?_⟩
        rw [empty, HTree.height] at weight
        rcases sign_cases g.side with sign | sign
        · rw [sign] at weight tips
          omega
        · rw [sign] at weight tips
          omega
      · exact ih rest g member

section

variable {t : AvlTree κ ρ} {f : Frame ρ} {path : Way ρ} {tree : HTree ρ}

/-- A function shrinks the trees at a place. -/
def Ascends (postRemove : AvlTree κ ρ → ρ → Option (AvlTree κ ρ)) (path : Way ρ) : Prop :=
  ∀ t tree node, StandsAt t path tree → tree.root = some node →
    ∃ t', postRemove t node = some t' ∧ SameData t t' ∧ StandsAt t' [] (shrunk path tree)

/-- A subtree that has shrunk is shrunk in place, if the ascent from the next place does so. -/
theorem StandsAt.shrinks {postRemove : AvlTree κ ρ → ρ → Option (AvlTree κ ρ)}
    (stands : StandsAt t (f :: path) tree) (sound : Sound f)
    (ascends : Ascends postRemove path) :
    ∃ t', avlShrunk postRemove f.side t f.label = some t' ∧ SameData t t' ∧
      StandsAt t' [] (shrunk (f :: path) tree) := by
  obtain ⟨low, high, balanced, nonempty⟩ := sound
  obtain ⟨signLow, signHigh⟩ := sign_within f.side
  have isBalance : t.balance f.label = f.balance := stands.rest.1.2.1
  have inRange : signedChar (f.balance - f.side.sign) = f.balance - f.side.sign :=
    signedChar_eq (by omega) (by omega)
  have whole := (standsAt_cons.mp stands).setBalance (f.balance - f.side.sign)
  have sameData : SameData t (t.setBalance f.label (f.balance - f.side.sign)) :=
    sameData_setBalance
  have isSibling := (treeAt_bin.mp whole.tree).1.2.2.2.2
  rw [avlShrunk, shrunk]
  simp only [isBalance, inRange, setBalance_self]
  split
  · obtain ⟨t', runs, same, stands'⟩ := ascends _ _ _ whole root_bin
    exact ⟨t', runs, sameData.trans same, stands'⟩
  · split
    · exact ⟨_, rfl, sameData, standsAt_plug.mp whole⟩
    · rename_i level tips
      have tilted : f.balance = -f.side.sign := by
        rcases sign_cases f.side with sign | sign
        · rw [sign] at level tips ⊢
          omega
        · rw [sign] at level tips ⊢
          omega
      have steep : Small (f.balance - f.side.sign) := by
        unfold Small
        omega
      obtain ⟨a, x, bx, b, isBin⟩ := exists_bin f.side.flip (nonempty tilted)
      rw [isBin] at whole isSibling balanced ⊢
      rw [root_bin] at isSibling
      obtain ⟨weight, inLow, inHigh, balancedA, balancedB⟩ := HeightTree.balanced_bin.mp balanced
      have turned := whole
      rw [← bin_flip] at turned
      have siblingBalance : (t.setBalance f.label (f.balance - f.side.sign)).balance x = bx := by
        have inside := (treeAt_bin.mp turned.tree).2.1
        exact (treeAt_bin.mp inside).1.2.1
      simp only [isSibling, Option.bind_eq_bind, Option.bind_some, siblingBalance, HeightTree.balance_bin]
      split
      · -- The sibling is level: one rotation, and the whole keeps its height.
        obtain ⟨t', runs, same, stands'⟩ := turned.rotate steep ⟨by omega, by omega⟩
        rw [Side.flip_flip] at runs
        rw [bin_flip] at stands'
        exact ⟨t', runs, sameData.trans same, standsAt_plug.mp stands'⟩
      · split
        · -- The sibling leans outwards: one rotation, and the whole shrinks.
          obtain ⟨t₁, runs₁, same₁, stands₁⟩ := turned.rotate steep ⟨by omega, by omega⟩
          rw [Side.flip_flip] at runs₁
          have parentDown : t₁.parent f.label = some x := by
            rw [HeightTree.rotate_bin] at stands₁
            exact ((treeAt_bin.mp stands₁.tree).2.2).root_parent root_bin
          rw [bin_flip] at stands₁
          obtain ⟨t', runs, same, stands'⟩ := ascends t₁ _ x stands₁ (by
            rw [← bin_flip, HeightTree.rotate_bin, root_bin])
          refine ⟨t', ?_, sameData.trans (same₁.trans same), stands'⟩
          rw [runs₁, Option.bind_some, parentDown, Option.bind_some]
          exact runs
        · -- The sibling leans inwards: its child on that side comes up twice.
          rename_i notLevel notOutwards
          have inwards : bx = f.side.sign := by
            rcases sign_cases f.side with sign | sign
            · rw [sign] at notOutwards ⊢
              omega
            · rw [sign] at notOutwards ⊢
              omega
          subst inwards
          have tall : b ≠ .nil := by
            rintro rfl
            rw [Side.sign_flip, HTree.height] at weight
            rcases sign_cases f.side with sign | sign
            · rw [sign] at weight
              omega
            · rw [sign] at weight
              omega
          obtain ⟨d, z, bz, e, rfl⟩ := exists_bin f.side tall
          obtain ⟨_, inLow', inHigh', _⟩ := HeightTree.balanced_bin.mp balancedB
          rw [bin_flip, ← bin_flip] at whole
          obtain ⟨t₁, t₂, runs₁, _, _, runs₂, parentDown, isRoot, same₁, stands₁⟩ :=
            whole.rotateTwice (Side.flip_flip f.side).symm steep inLow' inHigh' rfl
          obtain ⟨t', runs, same, stands'⟩ := ascends t₂ _ z stands₁ isRoot
          rw [bin_flip] at stands'
          refine ⟨t', ?_, sameData.trans (same₁.trans same), ?_⟩
          · rw [runs₁, Option.bind_some, runs₂, Option.bind_some, parentDown, Option.bind_some]
            exact runs
          · rw [bin_flip]
            exact stands'

/-- `_avl_post_remove` shrinks the tree in place. -/
theorem ascends_postRemove {n : Nat} (sound : ∀ f ∈ path, Sound f) (fuel : path.length < n) :
    Ascends (κ := κ) (avlPostRemove n) path := by
  induction path generalizing n with
  | nil =>
      intro t tree node stands isRoot
      obtain ⟨n, rfl⟩ := Nat.exists_eq_succ_of_ne_zero (Nat.ne_of_gt fuel)
      refine ⟨t, ?_, .refl t, stands⟩
      rw [avlPostRemove, stands.tree.root_parent isRoot]
      rfl
  | cons f path ih =>
      intro t tree node stands isRoot
      obtain ⟨n, rfl⟩ := Nat.exists_eq_succ_of_ne_zero (Nat.ne_of_gt (Nat.zero_lt_of_lt fuel))
      obtain ⟨isParent, isSide⟩ := stands.parent_side isRoot
      rw [avlPostRemove, isParent]
      simp only [isSide]
      apply stands.shrinks (sound f (List.mem_cons_self ..))
      exact ih (fun f member => sound f (List.mem_cons_of_mem _ member)) (Nat.lt_of_succ_lt_succ fuel)

end

end Bprd
