/-
Module: Bprd.Proofs.AvlSearch
Layer: Proofs
Purpose: Where `_avl_find_rec` ends in an ordered tree: at the node with the key if there is one, else at a
  node that has no child on the side of the key. All labels before the node have lesser keys, and all behind
  it greater ones.
Imports: Bprd.Proofs.AvlHeap
Trusted boundary: none
Main exports: Compares, compares_uint32, Ascending, findRec_spec
-/
import Bprd.Proofs.AvlHeap

namespace Bprd

open HeightTree (HTree Way Frame plug before after plug_append before_append after_append)

variable {κ ρ ℓ : Type} [LinearOrder ℓ]

/-- A comparator orders the keys by a rank. -/
structure Compares (comp : κ → κ → Int) (rank : κ → ℓ) : Prop where
  lt : ∀ a b, comp a b < 0 ↔ rank a < rank b
  eq : ∀ a b, comp a b = 0 ↔ rank a = rank b

theorem Compares.gt {comp : κ → κ → Int} {rank : κ → ℓ} (compares : Compares comp rank) (a b : κ) :
    comp a b > 0 ↔ rank b < rank a := by
  have less := compares.lt a b
  have same := compares.eq a b
  rcases lt_trichotomy (rank a) (rank b) with below | level | above
  · refine iff_of_false ?_ (lt_asymm below)
    have := less.mpr below
    omega
  · refine iff_of_false ?_ (not_lt_of_ge (le_of_eq level))
    have := same.mpr level
    omega
  · refine iff_of_true ?_ above
    have notLess := mt less.mp (lt_asymm above)
    have notSame := mt same.mp (ne_of_gt above)
    omega

theorem avlCompUnsigned_neg {u1 u2 : Nat} : avlCompUnsigned u1 u2 < 0 ↔ u1 < u2 := by
  rw [avlCompUnsigned]
  split_ifs with greater less <;> omega

theorem avlCompUnsigned_eq_zero {u1 u2 : Nat} : avlCompUnsigned u1 u2 = 0 ↔ u1 = u2 := by
  rw [avlCompUnsigned]
  split_ifs with greater less
  · exact iff_of_false (by decide) (Nat.ne_of_gt greater)
  · exact iff_of_false (by decide) (Nat.ne_of_lt less)
  · exact iff_of_true rfl (by omega)

/-- The comparators of unsigned integers order them by their values. -/
theorem compares_unsigned {value : κ → Nat} :
    Compares (fun k1 k2 => avlCompUnsigned (value k1) (value k2)) value where
  lt := fun _ _ => avlCompUnsigned_neg
  eq := fun _ _ => avlCompUnsigned_eq_zero

theorem compares_uint32 : Compares avlCompUint32 UInt32.toNat := compares_unsigned

theorem compares_uint16 : Compares avlCompUint16 UInt16.toNat := compares_unsigned

theorem compares_uint8 : Compares avlCompUint8 UInt8.toNat := compares_unsigned

/-- The keys of these nodes increase. -/
def Ascending (t : AvlTree κ ρ) (rank : κ → ℓ) (xs : List ρ) : Prop :=
  xs.Pairwise fun a b => rank (t.key a) < rank (t.key b)

section

variable {comp : κ → κ → Int} {rank : κ → ℓ} {t : AvlTree κ ρ} {parent : Option ρ} {root : ρ}
  {tree : HTree ρ}

/-- The node at which the search ends parts the tree at the key. -/
theorem findRec_spec [DecidableEq ρ] (compares : Compares comp rank) (key : κ) {n : Nat}
    (shown : TreeAt t parent tree) (isRoot : tree.root = some root) (ordered : Ascending t rank tree.labels)
    (fuel : tree.height ≤ n) :
    ∃ path l x b r, tree = plug path (.node l x b r) ∧
      avlFindRec comp t key n root = some (x, comp key (t.key x)) ∧
      (rank key < rank (t.key x) → l = .nil) ∧ (rank (t.key x) < rank key → r = .nil) ∧
      (∀ z ∈ before path, rank (t.key z) < rank key) ∧ ∀ z ∈ after path, rank key < rank (t.key z) := by
  induction tree generalizing parent root n with
  | nil => cases isRoot
  | node left y b right ihLeft ihRight =>
      cases isRoot
      obtain ⟨⟨_, _, _, isLeft, isRight⟩, atLeft, atRight⟩ := shown
      rw [HTree.height] at fuel
      obtain ⟨n, rfl⟩ := Nat.exists_eq_succ_of_ne_zero (Nat.ne_of_gt (by omega : 0 < n))
      obtain ⟨orderedLeft, orderedRight, across⟩ := List.pairwise_append.mp ordered
      rw [List.pairwise_cons] at orderedRight
      rw [avlFindRec]
      have noneIn : ∀ z, z ∉ before ([] : Way ρ) ∧ z ∉ after ([] : Way ρ) := fun _ =>
        ⟨List.not_mem_nil, List.not_mem_nil⟩
      rcases lt_trichotomy (rank key) (rank (t.key y)) with less | level | greater
      · rw [if_pos ((compares.lt _ _).mpr less), isLeft]
        cases left with
        | nil =>
            refine ⟨[], .nil, y, b, right, rfl, rfl, fun _ => rfl, fun greater => ?_, ?_, ?_⟩
            · exact absurd less (lt_asymm greater)
            · exact fun z member => absurd member (noneIn z).1
            · exact fun z member => absurd member (noneIn z).2
        | node l z c r =>
            obtain ⟨path, l', x, b', r', isPlace, found, noLeft, noRight, lower, upper⟩ :=
              ihLeft (n := n) atLeft rfl orderedLeft (by omega)
            refine ⟨path ++ [⟨.left, y, b, right⟩], l', x, b', r', ?_, found, noLeft, noRight, ?_, ?_⟩
            · rw [plug_append, ← isPlace]
              rfl
            · rw [before_append]
              exact lower
            · intro z member
              rw [after_append] at member
              rcases List.mem_append.mp member with inner | outer
              · exact upper z inner
              · have behind : z ∈ y :: right.labels := by simpa [after, Frame.after] using outer
                rcases List.mem_cons.mp behind with rfl | inRight
                · exact less
                · exact less.trans (orderedRight.1 z inRight)
      · have notLess : ¬ comp key (t.key y) < 0 :=
          mt (compares.lt _ _).mp (not_lt_of_ge (le_of_eq level.symm))
        have notGreater : ¬ comp key (t.key y) > 0 :=
          mt (compares.gt _ _).mp (not_lt_of_ge (le_of_eq level))
        rw [if_neg notLess, if_neg notGreater]
        refine ⟨[], left, y, b, right, rfl, rfl, fun less => ?_, fun greater => ?_, ?_, ?_⟩
        · exact absurd level (ne_of_lt less)
        · exact absurd level (ne_of_gt greater)
        · exact fun z member => absurd member (noneIn z).1
        · exact fun z member => absurd member (noneIn z).2
      · have notLess : ¬ comp key (t.key y) < 0 := mt (compares.lt _ _).mp (lt_asymm greater)
        rw [if_neg notLess, if_pos ((compares.gt _ _).mpr greater), isRight]
        cases right with
        | nil =>
            refine ⟨[], left, y, b, .nil, rfl, rfl, fun less => ?_, fun _ => rfl, ?_, ?_⟩
            · exact absurd less (lt_asymm greater)
            · exact fun z member => absurd member (noneIn z).1
            · exact fun z member => absurd member (noneIn z).2
        | node l z c r =>
            obtain ⟨path, l', x, b', r', isPlace, found, noLeft, noRight, lower, upper⟩ :=
              ihRight (n := n) atRight rfl orderedRight.2 (by omega)
            refine ⟨path ++ [⟨.right, y, b, left⟩], l', x, b', r', ?_, found, noLeft, noRight, ?_, ?_⟩
            · rw [plug_append, ← isPlace]
              rfl
            · intro z member
              rw [before_append] at member
              rcases List.mem_append.mp member with outer | inner
              · have ahead : z ∈ left.labels ++ [y] := by simpa [before, Frame.before] using outer
                rcases List.mem_append.mp ahead with inLeft | here
                · exact (across z inLeft y (List.mem_cons_self ..)).trans greater
                · rw [List.mem_singleton.mp here]
                  exact greater
              · exact lower z inner
            · intro z member
              rw [after_append] at member
              have inner : z ∈ after path := by simpa [after, Frame.after] using member
              exact upper z inner

end

end Bprd
