/-
Module: Bprd.Lib.HeightTree
Layer: Lib
Purpose: Binary trees that store at every node the height of its right child minus that of its left one,
  and keep it within one. A place in a tree is a path of frames, innermost first. Two ascents restore the
  balance along a path: after a subtree has grown by one, and after it has shrunk by one. Both keep the
  labels in order. The height of a balanced tree is logarithmic in its size.
Imports: Mathlib.Data.Nat.Fib.Basic
Trusted boundary: none
Main exports: HeightTree.Side, HeightTree.HTree, HeightTree.bin, HeightTree.rotate, HeightTree.Frame,
  HeightTree.plug, HeightTree.Balanced, HeightTree.PathBalanced, HeightTree.grown, HeightTree.shrunk,
  HeightTree.grown_balanced, HeightTree.shrunk_balanced, HeightTree.labels_grown,
  HeightTree.labels_shrunk, HeightTree.fib_height_le, HeightTree.height_le_of_lt_fib
-/
import Mathlib.Data.Nat.Fib.Basic

namespace HeightTree

/-- The two children of a node. -/
inductive Side where
  | left
  | right
deriving DecidableEq, Repr

namespace Side

/-- The other side. -/
def flip : Side → Side
  | left => right
  | right => left

/-- The sign with which a side counts in a balance. -/
def sign : Side → Int
  | left => -1
  | right => 1

@[simp] theorem flip_flip (s : Side) : s.flip.flip = s := by
  cases s <;> rfl

@[simp] theorem sign_flip (s : Side) : s.flip.sign = -s.sign := by
  cases s <;> rfl

theorem flip_ne (s : Side) : s.flip ≠ s := by
  cases s <;> decide

theorem eq_or_eq_flip (s s' : Side) : s' = s ∨ s' = s.flip := by
  cases s <;> cases s' <;> simp [flip]

end Side

/-- A tree with a balance at each node. -/
inductive HTree (α : Type) where
  | nil
  | node (left : HTree α) (label : α) (balance : Int) (right : HTree α)

variable {α : Type}

namespace HTree

/-- The labels, left to right. -/
def labels : HTree α → List α
  | nil => []
  | node left label _ right => left.labels ++ label :: right.labels

/-- The number of nodes on a longest way down. -/
def height : HTree α → Nat
  | nil => 0
  | node left _ _ right => 1 + max left.height right.height

/-- The label of the root. -/
def root : HTree α → Option α
  | nil => none
  | node _ label _ _ => some label

/-- The balance of the root. -/
def balance : HTree α → Int
  | nil => 0
  | node _ _ balance _ => balance

end HTree

open HTree (nil node)

/-- A node by its child on one side and its child on the other. -/
def bin : Side → HTree α → α → Int → HTree α → HTree α
  | .left, near, label, balance, far => node near label balance far
  | .right, near, label, balance, far => node far label balance near

section

variable {s : Side} {near far : HTree α} {label : α} {balance : Int}

theorem bin_flip : bin s.flip near label balance far = bin s far label balance near := by
  cases s <;> rfl

/-- A tree with a node, seen from either side. -/
theorem exists_bin (s : Side) {t : HTree α} (nonempty : t ≠ nil) :
    ∃ near label balance far, t = bin s near label balance far := by
  cases t with
  | nil => exact absurd rfl nonempty
  | node left label balance right =>
      cases s with
      | left => exact ⟨left, label, balance, right, rfl⟩
      | right => exact ⟨right, label, balance, left, rfl⟩

@[simp] theorem root_bin : (bin s near label balance far).root = some label := by
  cases s <;> rfl

@[simp] theorem balance_bin : (bin s near label balance far).balance = balance := by
  cases s <;> rfl

@[simp] theorem height_bin : (bin s near label balance far).height = 1 + max near.height far.height := by
  cases s with
  | left => rfl
  | right => exact congrArg (1 + ·) (Nat.max_comm _ _)

theorem labels_bin_perm :
    (bin s near label balance far).labels.Perm (label :: (near.labels ++ far.labels)) := by
  cases s with
  | left => exact List.perm_middle
  | right => exact List.perm_middle.trans (List.perm_append_comm.cons label)

theorem root_eq_none_iff {t : HTree α} : t.root = none ↔ t = nil := by
  cases t with
  | nil => exact iff_of_true rfl rfl
  | node _ _ _ _ => exact iff_of_false (Option.some_ne_none _) (by simp)

theorem root_mem {t : HTree α} {x : α} (isRoot : t.root = some x) : x ∈ t.labels := by
  cases t with
  | nil => cases isRoot
  | node left label balance right =>
      cases isRoot
      exact List.mem_append_right _ (List.mem_cons_self ..)

end

/-! ### Rotations -/

/-- The balances of the outer and the inner node after a rotation. -/
def rotated (sign outer inner : Int) : Int × Int :=
  let outer' := if sign * inner < 0 then outer + sign - inner else outer + sign
  (outer', if sign * outer' > 0 then inner + sign + outer' else inner + sign)

/-- Bring the child of a side up. -/
def rotate : Side → HTree α → HTree α
  | .left, node (node a x bx b) y by_ c =>
      node a x (rotated 1 by_ bx).2 (node b y (rotated 1 by_ bx).1 c)
  | .right, node c y by_ (node b x bx a) =>
      node (node c y (rotated (-1) by_ bx).1 b) x (rotated (-1) by_ bx).2 a
  | _, t => t

@[simp] theorem rotate_bin {s : Side} {a b c : HTree α} {x y : α} {bx by_ : Int} :
    rotate s (bin s (bin s a x bx b) y by_ c) =
      bin s a x (rotated (-s.sign) by_ bx).2 (bin s b y (rotated (-s.sign) by_ bx).1 c) := by
  cases s <;> rfl

@[simp] theorem labels_rotate (s : Side) (t : HTree α) : (rotate s t).labels = t.labels := by
  unfold rotate
  split
  · simp [HTree.labels]
  · simp [HTree.labels]
  · rfl

/-! ### Places -/

/-- One step up from a place: the node above it, on which side of the node the place is, and the child on
    the other side. -/
structure Frame (α : Type) where
  side : Side
  label : α
  balance : Int
  sibling : HTree α

/-- The way up from a place, innermost frame first. -/
abbrev Way (α : Type) := List (Frame α)

/-- Put a tree at a place. -/
def plug : Way α → HTree α → HTree α
  | [], t => t
  | f :: path, t => plug path (bin f.side t f.label f.balance f.sibling)

/-- The node above a place. -/
def above (path : Way α) : Option α := path.head?.map Frame.label

/-- The labels that a frame has to the left of the place. -/
def Frame.before (f : Frame α) : List α :=
  match f.side with
  | .left => []
  | .right => f.sibling.labels ++ [f.label]

/-- The labels that a frame has to the right of the place. -/
def Frame.after (f : Frame α) : List α :=
  match f.side with
  | .left => f.label :: f.sibling.labels
  | .right => []

/-- The labels to the left of a place. -/
def before : Way α → List α
  | [] => []
  | f :: path => before path ++ f.before

/-- The labels to the right of a place. -/
def after : Way α → List α
  | [] => []
  | f :: path => f.after ++ after path

/-- The labels beside a place. -/
def beside : Way α → List α
  | [] => []
  | f :: path => f.label :: (f.sibling.labels ++ beside path)

section

variable {path path' : Way α} {t : HTree α} {f : Frame α}

theorem labels_plug_perm : (plug path t).labels.Perm (t.labels ++ beside path) := by
  induction path generalizing t with
  | nil => rw [plug, beside, List.append_nil]
  | cons f path ih =>
      rw [plug, beside]
      refine ih.trans ((labels_bin_perm.append_right _).trans ?_)
      rw [List.cons_append, List.append_assoc]
      exact List.perm_middle.symm

theorem labels_frame :
    (bin f.side t f.label f.balance f.sibling).labels = f.before ++ t.labels ++ f.after := by
  rw [Frame.before, Frame.after]
  cases f.side with
  | left => simp [bin, HTree.labels]
  | right => simp [bin, HTree.labels]

theorem labels_plug : (plug path t).labels = before path ++ t.labels ++ after path := by
  induction path generalizing t with
  | nil => simp [plug, before, after]
  | cons f path ih =>
      rw [plug, ih, labels_frame, before, after]
      simp only [List.append_assoc]

theorem plug_append : plug (path ++ path') t = plug path' (plug path t) := by
  induction path generalizing t with
  | nil => rfl
  | cons f path ih => exact ih

theorem before_append : before (path ++ path') = before path' ++ before path := by
  induction path with
  | nil => simp [before]
  | cons f path ih =>
      rw [List.cons_append, before, before, ih, List.append_assoc]

theorem after_append : after (path ++ path') = after path ++ after path' := by
  induction path with
  | nil => rfl
  | cons f path ih => rw [List.cons_append, after, after, ih, List.append_assoc]

/-- Every label of a tree is at a place. -/
theorem exists_place {x : α} : ∀ {t : HTree α}, x ∈ t.labels →
    ∃ path left balance right, t = plug path (node left x balance right)
  | nil, member => by cases member
  | node left y balance right, member => by
      rcases List.mem_append.mp member with inLeft | inRight
      · obtain ⟨path, l, b, r, same⟩ := exists_place inLeft
        refine ⟨path ++ [⟨.left, y, balance, right⟩], l, b, r, ?_⟩
        rw [plug_append, ← same]
        rfl
      · rcases List.mem_cons.mp inRight with rfl | inRight
        · exact ⟨[], left, balance, right, rfl⟩
        · obtain ⟨path, l, b, r, same⟩ := exists_place inRight
          refine ⟨path ++ [⟨.right, y, balance, left⟩], l, b, r, ?_⟩
          rw [plug_append, ← same]
          rfl

/-- The place of a label that occurs once. -/
theorem exists_place_at {t : HTree α} {xs ys : List α} {x : α} (split : t.labels = xs ++ x :: ys)
    (nodup : t.labels.Nodup) : ∃ path left balance right, t = plug path (node left x balance right) ∧
      before path ++ left.labels = xs ∧ right.labels ++ after path = ys := by
  have member : x ∈ t.labels := by
    rw [split]
    exact List.mem_append_right _ (List.mem_cons_self ..)
  obtain ⟨path, left, balance, right, rfl⟩ := exists_place member
  refine ⟨path, left, balance, right, rfl, ?_⟩
  have here : (plug path (node left x balance right)).labels =
      (before path ++ left.labels) ++ x :: (right.labels ++ after path) := by
    rw [labels_plug, HTree.labels]
    simp only [List.append_assoc, List.cons_append]
  rw [here] at split nodup
  have fresh := (List.nodup_cons.mp (List.nodup_middle.mp nodup)).1
  rw [List.mem_append, not_or] at fresh
  obtain ⟨same, _, same'⟩ := (List.append_cons_inj_of_notMem fresh.1 fresh.2).mp split
  exact ⟨same, same'⟩

/-- A tree is at least as high as the way down to a place in it. -/
theorem length_add_height_le : path.length + t.height ≤ (plug path t).height := by
  induction path generalizing t with
  | nil => exact Nat.le_of_eq (Nat.zero_add _)
  | cons f path ih =>
      have step := ih (t := bin f.side t f.label f.balance f.sibling)
      rw [height_bin] at step
      rw [plug, List.length_cons]
      omega

end

/-! ### Balance -/

/-- Every balance is the difference of the heights, and within one. -/
def Balanced : HTree α → Prop
  | nil => True
  | node left _ balance right =>
      balance = right.height - left.height ∧ -1 ≤ balance ∧ balance ≤ 1 ∧ Balanced left ∧ Balanced right

/-- A tree of height `h` at the place makes the whole balanced, as far as the path goes. -/
def PathBalanced : Way α → Nat → Prop
  | [], _ => True
  | f :: path, h =>
      f.balance = f.side.sign * ((h : Int) - f.sibling.height) ∧ -1 ≤ f.balance ∧ f.balance ≤ 1 ∧
        Balanced f.sibling ∧ PathBalanced path (1 + max h f.sibling.height)

theorem balanced_bin {s : Side} {near far : HTree α} {label : α} {balance : Int} :
    Balanced (bin s near label balance far) ↔
      balance = s.sign * ((near.height : Int) - far.height) ∧ -1 ≤ balance ∧ balance ≤ 1 ∧
        Balanced near ∧ Balanced far := by
  cases s with
  | left =>
      have same : (far.height : Int) - near.height = Side.left.sign * ((near.height : Int) - far.height) := by
        rw [Side.sign]
        omega
      rw [bin, Balanced, same]
  | right =>
      have same : (near.height : Int) - far.height =
          Side.right.sign * ((near.height : Int) - far.height) := by
        rw [Side.sign, one_mul]
      rw [bin, Balanced, ← same, and_comm (a := Balanced far)]

theorem balanced_plug {path : Way α} {t : HTree α} :
    Balanced (plug path t) ↔ Balanced t ∧ PathBalanced path t.height := by
  induction path generalizing t with
  | nil => exact (and_iff_left trivial).symm
  | cons f path ih =>
      rw [plug, ih, balanced_bin, height_bin, PathBalanced]
      constructor
      · rintro ⟨⟨weight, low, high, near, far⟩, rest⟩
        exact ⟨near, weight, low, high, far, rest⟩
      · rintro ⟨near, weight, low, high, far, rest⟩
        exact ⟨⟨weight, low, high, near, far⟩, rest⟩

/-! ### A subtree has grown -/

/-- Restore the balance when the subtree at a place has grown by one. -/
def grown : Way α → HTree α → HTree α
  | [], t => t
  | f :: path, t =>
      let balance := f.balance + f.side.sign
      let whole := bin f.side t f.label balance f.sibling
      if balance = 0 then plug path whole
      else if balance = f.side.sign then grown path whole
      else if t.balance = f.side.sign then plug path (rotate f.side whole)
      else plug path (rotate f.side (bin f.side (rotate f.side.flip t) f.label balance f.sibling))

theorem labels_grown {path : Way α} {t : HTree α} :
    (grown path t).labels = before path ++ t.labels ++ after path := by
  induction path generalizing t with
  | nil => simp [grown, before, after]
  | cons f path ih =>
      have whole : ∀ balance t', t'.labels = t.labels →
          before path ++ (bin f.side t' f.label balance f.sibling).labels ++ after path =
            before (f :: path) ++ t.labels ++ after (f :: path) := by
        intro balance t' same
        rw [before, after, ← same, @labels_frame α t' ⟨f.side, f.label, balance, f.sibling⟩]
        simp only [List.append_assoc]
        rfl
      rw [grown]
      split
      · rw [labels_plug]
        exact whole _ t rfl
      · split
        · rw [ih]
          exact whole _ t rfl
        · split
          · rw [labels_plug, labels_rotate]
            exact whole _ t rfl
          · rw [labels_plug, labels_rotate]
            exact whole _ _ (labels_rotate _ _)

section

variable {s : Side} {a b c : HTree α} {x y : α} {bx by_ : Int}

/-- A rotation keeps every balance the difference of the heights. -/
theorem rotated_weights {ha hb hc : Nat} (inner : bx = s.sign * ((ha : Int) - hb))
    (outer : by_ = s.sign * (((1 + max ha hb : Nat) : Int) - hc)) :
    (rotated (-s.sign) by_ bx).1 = s.sign * ((hb : Int) - hc) ∧
      (rotated (-s.sign) by_ bx).2 = s.sign * ((ha : Int) - ((1 + max hb hc : Nat) : Int)) := by
  rw [rotated]
  cases s with
  | left =>
      simp only [Side.sign] at *
      constructor
      · split_ifs <;> omega
      · split_ifs <;> omega
  | right =>
      simp only [Side.sign] at *
      constructor
      · split_ifs <;> omega
      · split_ifs <;> omega

theorem sign_bounds (s : Side) {m n : Nat} (low : n ≤ m + 1) (high : m ≤ n + 1) :
    -1 ≤ s.sign * ((m : Int) - n) ∧ s.sign * ((m : Int) - n) ≤ 1 := by
  cases s with
  | left =>
      rw [Side.sign]
      omega
  | right =>
      rw [Side.sign]
      omega

/-- A rotation gives a balanced tree when the three subtrees end up at about the same depth. -/
theorem balanced_rotate (inner : bx = s.sign * ((a.height : Int) - b.height))
    (outer : by_ = s.sign * (((1 + max a.height b.height : Nat) : Int) - c.height))
    (balanced : Balanced a ∧ Balanced b ∧ Balanced c)
    (low : c.height ≤ b.height + 1 ∧ b.height ≤ c.height + 1)
    (high : 1 + max b.height c.height ≤ a.height + 1 ∧ a.height ≤ 1 + max b.height c.height + 1) :
    Balanced (rotate s (bin s (bin s a x bx b) y by_ c)) := by
  obtain ⟨weight, weight'⟩ := rotated_weights inner outer
  rw [rotate_bin, weight', weight, balanced_bin, balanced_bin, height_bin]
  obtain ⟨lower, upper⟩ := sign_bounds s low.1 low.2
  obtain ⟨lower', upper'⟩ := sign_bounds s high.1 high.2
  exact ⟨rfl, lower', upper', balanced.1, rfl, lower, upper, balanced.2.1, balanced.2.2⟩

theorem height_rotate :
    (rotate s (bin s (bin s a x bx b) y by_ c)).height =
      1 + max a.height (1 + max b.height c.height) := by
  rw [rotate_bin, height_bin, height_bin]

/-- The inner rotation of a double one, seen from the side of the outer one. -/
theorem rotate_flip {d : HTree α} {z : α} {bz : Int} :
    rotate s.flip (bin s a x bx (bin s d z bz b)) =
      bin s (bin s a x (rotated s.sign bx bz).1 d) z (rotated s.sign bx bz).2 b := by
  rw [← @bin_flip α s (bin s d z bz b) a x bx, ← @bin_flip α s b d z bz, rotate_bin,
    Side.sign_flip, neg_neg, bin_flip, bin_flip]

/-- A double rotation: the grandchild `z` in the middle comes up between its parent and grandparent. -/
theorem balanced_double {d : HTree α} {z : α} {bz : Int}
    (middle : bz = s.sign * ((d.height : Int) - b.height))
    (inner : bx = s.sign * ((a.height : Int) - ((1 + max d.height b.height : Nat) : Int)))
    (outer : by_ = s.sign * (((1 + max (1 + max a.height d.height) b.height : Nat) : Int) - c.height))
    (balanced : Balanced a ∧ Balanced d ∧ Balanced b ∧ Balanced c)
    (near : d.height ≤ a.height ∧ a.height ≤ d.height + 1)
    (far : b.height ≤ c.height ∧ c.height ≤ b.height + 1) (level : a.height = c.height) :
    Balanced (rotate s (bin s (rotate s.flip (bin s a x bx (bin s d z bz b))) y by_ c)) ∧
      (rotate s (bin s (rotate s.flip (bin s a x bx (bin s d z bz b))) y by_ c)).height =
        a.height + 2 := by
  have middle' : bz = s.flip.sign * ((b.height : Int) - d.height) := by
    rw [middle, Side.sign_flip, neg_mul, ← mul_neg, neg_sub]
  have inner' : bx = s.flip.sign * (((1 + max b.height d.height : Nat) : Int) - a.height) := by
    rw [inner, Side.sign_flip, neg_mul, ← mul_neg, neg_sub, Nat.max_comm]
  obtain ⟨weight, weight'⟩ := rotated_weights middle' inner'
  rw [Side.sign_flip, neg_neg] at weight weight'
  have lowered : (rotated s.sign bx bz).1 = s.sign * ((a.height : Int) - d.height) := by
    rw [weight, neg_mul, ← mul_neg, neg_sub]
  have risen : (rotated s.sign bx bz).2 =
      s.sign * (((1 + max a.height d.height : Nat) : Int) - b.height) := by
    rw [weight', neg_mul, ← mul_neg, neg_sub, Nat.max_comm d.height]
  obtain ⟨lower, upper⟩ := sign_bounds s (m := a.height) (n := d.height) (by omega) (by omega)
  rw [rotate_flip]
  constructor
  · apply balanced_rotate
    · rw [risen, height_bin]
    · rw [outer, height_bin]
    · rw [balanced_bin, lowered]
      exact ⟨⟨rfl, lower, upper, balanced.1, balanced.2.1⟩, balanced.2.2.1, balanced.2.2.2⟩
    · omega
    · rw [height_bin]
      omega
  · rw [height_rotate, height_bin]
    omega

end

theorem sign_cases (s : Side) : s.sign = 1 ∨ s.sign = -1 := by
  cases s with
  | left => exact .inr rfl
  | right => exact .inl rfl

theorem sign_within (s : Side) : -1 ≤ s.sign ∧ s.sign ≤ 1 := by
  cases s <;> decide

/-- A balanced subtree that has grown by one, and whose root is not level, can be grown in place. -/
theorem grown_balanced {path : Way α} {t : HTree α} {h : Nat} (balanced : Balanced t)
    (fits : PathBalanced path h) (height : t.height = h + 1) (tilted : t.balance ≠ 0) :
    Balanced (grown path t) := by
  induction path generalizing t h with
  | nil => exact balanced
  | cons f path ih =>
      obtain ⟨s, y, balance, sibling⟩ := f
      obtain ⟨weight, low, high, balancedSibling, rest⟩ := fits
      dsimp only at weight low high balancedSibling rest
      rw [grown]
      dsimp only
      have signs := sign_cases s
      by_cases level : balance + s.sign = 0
      · -- The other child was the higher one: the whole keeps its height.
        have same : sibling.height = h + 1 := by
          rcases signs with sign | sign <;> rw [sign] at weight level <;> omega
        rw [if_pos level, balanced_plug, balanced_bin, height_bin]
        refine ⟨⟨?_, by omega, by omega, balanced, balancedSibling⟩, ?_⟩
        · rw [height, same, level, sub_self, mul_zero]
        · rw [height, same, max_self]
          rw [same, max_eq_right (Nat.le_succ h)] at rest
          exact rest
      · rw [if_neg level]
        by_cases tips : balance + s.sign = s.sign
        · -- The children were level: the whole grows.
          have same : sibling.height = h := by
            rcases signs with sign | sign <;> rw [sign] at weight tips <;> omega
          rw [if_pos tips]
          apply ih (h := h + 1)
          · rw [balanced_bin, height, same, tips]
            refine ⟨?_, (sign_within s).1, (sign_within s).2, balanced, balancedSibling⟩
            rcases signs with sign | sign <;> rw [sign] <;> omega
          · rw [same, max_self, Nat.add_comm] at rest
            exact rest
          · rw [height_bin, height, same]
            omega
          · rw [balance_bin, tips]
            rcases signs with sign | sign <;> rw [sign] <;> omega
        · -- The grown child was the higher one: a rotation takes the growth back.
          have same : h = sibling.height + 1 := by
            rcases signs with sign | sign <;> rw [sign] at weight level tips <;> omega
          obtain ⟨a, x, bx, b, rfl⟩ := exists_bin s (t := t) (by
            rintro rfl
            cases height)
          rw [height_bin] at height
          obtain ⟨inner, inLow, inHigh, balancedA, balancedB⟩ := balanced_bin.mp balanced
          rw [balance_bin] at tilted
          rw [if_neg tips, balance_bin]
          rw [same, max_eq_left (Nat.le_succ _)] at rest
          have outer : balance + s.sign = s.sign * (((1 + max a.height b.height : Nat) : Int) -
              sibling.height) := by
            rw [height, weight]
            rcases signs with sign | sign <;> rw [sign] <;> omega
          by_cases straight : bx = s.sign
          · have heights : a.height = sibling.height + 1 ∧ b.height = sibling.height := by
              rw [straight] at inner
              rcases signs with sign | sign <;> rw [sign] at inner <;> omega
            rw [if_pos straight, balanced_plug, height_rotate]
            refine ⟨balanced_rotate inner outer ⟨balancedA, balancedB, balancedSibling⟩
              (by omega) (by omega), ?_⟩
            rw [show 1 + max a.height (1 + max b.height sibling.height) = 1 + (sibling.height + 1) by
              omega]
            exact rest
          · have heights : b.height = sibling.height + 1 ∧ a.height = sibling.height := by
              rcases signs with sign | sign <;> rw [sign] at inner straight <;> omega
            obtain ⟨d, z, bz, e, rfl⟩ := exists_bin s (t := b) (by
              rintro rfl
              exact absurd heights.1 (by simp [HTree.height]))
            obtain ⟨middle, midLow, midHigh, balancedD, balancedE⟩ := balanced_bin.mp balancedB
            rw [height_bin] at inner outer heights
            have bounds : d.height ≤ e.height + 1 ∧ e.height ≤ d.height + 1 := by
              rcases signs with sign | sign <;> rw [sign] at middle <;> omega
            obtain ⟨whole, tall⟩ := @balanced_double α s a e sibling x y bx (balance + s.sign) d z bz
              middle inner (by
                rw [outer]
                congr 2
                omega)
              ⟨balancedA, balancedD, balancedE, balancedSibling⟩ (by omega) (by omega) (by omega)
            rw [if_neg straight, balanced_plug, tall]
            refine ⟨whole, ?_⟩
            rw [show a.height + 2 = 1 + (sibling.height + 1) by omega]
            exact rest

/-! ### A subtree has shrunk -/

/-- Restore the balance when the subtree at a place has shrunk by one. -/
def shrunk : Way α → HTree α → HTree α
  | [], t => t
  | f :: path, t =>
      let balance := f.balance - f.side.sign
      let whole := bin f.side t f.label balance f.sibling
      if balance = 0 then shrunk path whole
      else if balance = -f.side.sign then plug path whole
      else if f.sibling.balance = 0 then plug path (rotate f.side.flip whole)
      else if f.sibling.balance = -f.side.sign then shrunk path (rotate f.side.flip whole)
      else shrunk path
        (rotate f.side.flip (bin f.side t f.label balance (rotate f.side f.sibling)))

theorem labels_shrunk {path : Way α} {t : HTree α} :
    (shrunk path t).labels = before path ++ t.labels ++ after path := by
  induction path generalizing t with
  | nil => simp [shrunk, before, after]
  | cons f path ih =>
      have whole : ∀ balance sibling, sibling.labels = f.sibling.labels →
          before path ++ (bin f.side t f.label balance sibling).labels ++ after path =
            before (f :: path) ++ t.labels ++ after (f :: path) := by
        intro balance sibling same
        rw [before, after, @labels_frame α t ⟨f.side, f.label, balance, sibling⟩]
        simp only [Frame.before, Frame.after, same, List.append_assoc]
      rw [shrunk]
      split
      · rw [ih]
        exact whole _ _ rfl
      · split
        · rw [labels_plug]
          exact whole _ _ rfl
        · split
          · rw [labels_plug, labels_rotate]
            exact whole _ _ rfl
          · split
            · rw [ih, labels_rotate]
              exact whole _ _ rfl
            · rw [ih, labels_rotate]
              exact whole _ _ (labels_rotate _ _)

/-- A balanced subtree that has shrunk by one can be shrunk in place. -/
theorem shrunk_balanced {path : Way α} {t : HTree α} (balanced : Balanced t)
    (fits : PathBalanced path (t.height + 1)) : Balanced (shrunk path t) := by
  induction path generalizing t with
  | nil => exact balanced
  | cons f path ih =>
      obtain ⟨s, y, balance, sibling⟩ := f
      obtain ⟨weight, low, high, balancedSibling, rest⟩ := fits
      dsimp only at weight low high balancedSibling rest
      rw [shrunk]
      dsimp only
      have signs := sign_cases s
      by_cases level : balance - s.sign = 0
      · -- The shrunk child was the higher one: the whole shrinks.
        have same : sibling.height = t.height := by
          rcases signs with sign | sign <;> rw [sign] at weight level <;> omega
        rw [if_pos level]
        apply ih
        · rw [balanced_bin, level, same, sub_self, mul_zero]
          exact ⟨rfl, by omega, by omega, balanced, balancedSibling⟩
        · rw [height_bin, same, max_self, Nat.add_comm 1]
          rw [same, max_eq_left (Nat.le_succ _), Nat.add_comm 1] at rest
          exact rest
      · rw [if_neg level]
        by_cases tips : balance - s.sign = -s.sign
        · -- The children were level: the whole keeps its height.
          have same : sibling.height = t.height + 1 := by
            rcases signs with sign | sign <;> rw [sign] at weight tips <;> omega
          rw [if_pos tips, balanced_plug, balanced_bin, height_bin, same, tips]
          obtain ⟨lower, upper⟩ := sign_within s
          refine ⟨⟨?_, neg_le_neg upper, neg_le.mp lower, balanced, balancedSibling⟩, ?_⟩
          · rcases signs with sign | sign <;> rw [sign] <;> omega
          · rw [max_eq_right (Nat.le_succ _)]
            rw [same, max_self] at rest
            exact rest
        · -- The sibling was the higher one: it is rotated up.
          have same : sibling.height = t.height + 2 := by
            rcases signs with sign | sign <;> rw [sign] at weight level tips <;> omega
          obtain ⟨a, x, bx, b, rfl⟩ := exists_bin s.flip (t := sibling) (by
            rintro rfl
            exact absurd same (by simp [HTree.height]))
          rw [height_bin] at same weight rest
          rw [balance_bin]
          obtain ⟨inner, inLow, inHigh, balancedA, balancedB⟩ := balanced_bin.mp balancedSibling
          rw [same] at rest
          have outer : balance - s.sign = s.flip.sign *
              (((1 + max a.height b.height : Nat) : Int) - t.height) := by
            rw [Side.sign_flip, weight, same]
            rcases signs with sign | sign <;> rw [sign] <;> omega
          have turned : bin s t y (balance - s.sign) (bin s.flip a x bx b) =
              bin s.flip (bin s.flip a x bx b) y (balance - s.sign) t := bin_flip.symm
          have total : 1 + max (t.height + 1) (t.height + 2) = t.height + 3 := by omega
          rw [total] at rest
          rw [Side.sign_flip] at inner
          rw [if_neg tips, turned]
          by_cases even : bx = 0
          · have heights : a.height = t.height + 1 ∧ b.height = t.height + 1 := by
              rw [even] at inner
              rcases signs with sign | sign <;> rw [sign] at inner <;> omega
            rw [if_pos even, balanced_plug, height_rotate]
            refine ⟨balanced_rotate (by rw [Side.sign_flip]; exact inner) outer
              ⟨balancedA, balancedB, balanced⟩ (by omega) (by omega), ?_⟩
            rw [show 1 + max a.height (1 + max b.height t.height) = t.height + 3 by omega]
            exact rest
          · rw [if_neg even]
            by_cases straight : bx = -s.sign
            · have heights : a.height = t.height + 1 ∧ b.height = t.height := by
                rw [straight] at inner
                rcases signs with sign | sign <;> rw [sign] at inner <;> omega
              rw [if_pos straight]
              apply ih
              · exact balanced_rotate (by rw [Side.sign_flip]; exact inner) outer
                  ⟨balancedA, balancedB, balanced⟩ (by omega) (by omega)
              · rw [height_rotate,
                  show 1 + max a.height (1 + max b.height t.height) + 1 = t.height + 3 by omega]
                exact rest
            · have heights : b.height = t.height + 1 ∧ a.height = t.height := by
                rcases signs with sign | sign <;> rw [sign] at inner straight <;> omega
              obtain ⟨d, z, bz, e, rfl⟩ := exists_bin s.flip (t := b) (by
                rintro rfl
                exact absurd heights.1 (by simp [HTree.height]))
              obtain ⟨middle, midLow, midHigh, balancedD, balancedE⟩ := balanced_bin.mp balancedB
              rw [height_bin] at inner outer heights
              have bounds : d.height ≤ e.height + 1 ∧ e.height ≤ d.height + 1 := by
                rw [Side.sign_flip] at middle
                rcases signs with sign | sign <;> rw [sign] at middle <;> omega
              obtain ⟨whole, tall⟩ := @balanced_double α s.flip a e t x y bx (balance - s.sign) d z bz
                middle (by rw [Side.sign_flip]; exact inner) (by
                  rw [outer]
                  congr 2
                  omega)
                ⟨balancedA, balancedD, balancedE, balanced⟩ (by omega) (by omega) (by omega)
              rw [Side.flip_flip] at whole tall
              rw [if_neg straight, ← bin_flip (s := s)]
              apply ih
              · exact whole
              · rw [tall, show a.height + 2 + 1 = t.height + 3 by omega]
                exact rest

/-! ### Height and size -/

theorem height_le_length {t : HTree α} : t.height ≤ t.labels.length := by
  induction t with
  | nil => exact Nat.le_refl 0
  | node left label balance right ihLeft ihRight =>
      rw [HTree.height, HTree.labels, List.length_append, List.length_cons]
      omega

/-- A balanced tree of height `h` has at least `fib (h + 2) - 1` nodes. -/
theorem fib_height_le {t : HTree α} (balanced : Balanced t) :
    Nat.fib (t.height + 2) ≤ t.labels.length + 1 := by
  induction t with
  | nil => exact Nat.le_refl 1
  | node left label balance right ihLeft ihRight =>
      obtain ⟨weight, low, high, balancedLeft, balancedRight⟩ := balanced
      have inLeft := ihLeft balancedLeft
      have inRight := ihRight balancedRight
      have size : (node left label balance right).labels.length + 1 =
          (left.labels.length + 1) + (right.labels.length + 1) := by
        simp only [HTree.labels, List.length_append, List.length_cons]
        omega
      rw [size, HTree.height]
      -- The higher child has height `h`, the other one at least `h - 1`.
      rcases Nat.le_total left.height right.height with le | le
      · have lower : Nat.fib (right.height + 1) ≤ Nat.fib (left.height + 2) :=
          Nat.fib_mono (by omega)
        have step : Nat.fib (1 + right.height + 2) =
            Nat.fib (right.height + 1) + Nat.fib (right.height + 2) := by
          rw [show 1 + right.height + 2 = right.height + 1 + 2 by omega]
          exact Nat.fib_add_two
        rw [max_eq_right le, step]
        omega
      · have lower : Nat.fib (left.height + 1) ≤ Nat.fib (right.height + 2) :=
          Nat.fib_mono (by omega)
        have step : Nat.fib (1 + left.height + 2) =
            Nat.fib (left.height + 1) + Nat.fib (left.height + 2) := by
          rw [show 1 + left.height + 2 = left.height + 1 + 2 by omega]
          exact Nat.fib_add_two
        rw [max_eq_left le, step]
        omega

/-- A balanced tree with few nodes is low. -/
theorem height_le_of_lt_fib {t : HTree α} (balanced : Balanced t) {d : Nat}
    (few : t.labels.length + 1 < Nat.fib (d + 3)) : t.height ≤ d := by
  by_contra high
  have larger : Nat.fib (d + 3) ≤ Nat.fib (t.height + 2) := Nat.fib_mono (by omega)
  have := fib_height_le balanced
  omega

end HeightTree
