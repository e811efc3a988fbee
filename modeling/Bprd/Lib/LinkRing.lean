/-
Module: Bprd.Lib.LinkRing
Layer: Lib
Purpose: Rings of links in both directions through a head and some cells. A ring is described by the list
  of its cells; a cell linked between two neighbours enters the list there, and an unlinked cell leaves
  it. Cells outside the ring are not looked at.
Imports: Mathlib.Data.List.Chain, Mathlib.Data.List.Nodup, Mathlib.Logic.Function.Basic
Trusted boundary: none
Main exports: LinkRing.Entity, LinkRing.Links, LinkRing.link, LinkRing.unlink, LinkRing.Joined,
  LinkRing.Rings, LinkRing.Rings.link, LinkRing.Rings.unlink, LinkRing.Rings.next_eq,
  LinkRing.Rings.prev_eq, LinkRing.Rings.prev_ne, LinkRing.Rings.next_ne, LinkRing.Rings.last_iff,
  LinkRing.Rings.first_iff
-/
import Mathlib.Data.List.Chain
import Mathlib.Data.List.Nodup
import Mathlib.Logic.Function.Basic

namespace LinkRing

/-- What a link points to: the head, or a cell. -/
inductive Entity (ρ : Type) where
  | head
  | cell (r : ρ)
deriving DecidableEq, Repr

/-- The links of all entities; a null pointer is none. -/
structure Links (ρ : Type) where
  next : Entity ρ → Option (Entity ρ)
  prev : Entity ρ → Option (Entity ρ)

open Entity (head cell)

variable {ρ : Type}

/-- Link an entity between two others. -/
def link [DecidableEq ρ] (prev next new : Entity ρ) (l : Links ρ) : Links ρ :=
  { next := Function.update (Function.update l.next new (some next)) prev (some new)
    prev := Function.update (Function.update l.prev new (some prev)) next (some new) }

/-- Join two entities, and clear the links of a third. -/
def unlink [DecidableEq ρ] (prev next old : Entity ρ) (l : Links ρ) : Links ρ :=
  { next := Function.update (Function.update l.next prev (some next)) old none
    prev := Function.update (Function.update l.prev next (some prev)) old none }

/-- Two entities are neighbours. -/
def Joined (l : Links ρ) (a b : Entity ρ) : Prop := l.next a = some b ∧ l.prev b = some a

/-- The entities up to a place, the head first. -/
def upTo (xs : List ρ) : List (Entity ρ) := head :: xs.map cell

/-- The entities from a place on, the head last. -/
def from_ (xs : List ρ) : List (Entity ρ) := xs.map cell ++ [head]

/-- The entity before a place. -/
def lastOf (xs : List ρ) : Entity ρ := (xs.getLast?.map cell).getD head

/-- The entity after a place. -/
def firstOf (xs : List ρ) : Entity ρ := (xs.head?.map cell).getD head

/-- The links form a ring through the head and these cells, in this order. -/
structure Rings (l : Links ρ) (xs : List ρ) : Prop where
  nodup : xs.Nodup
  chain : List.IsChain (Joined l) (head :: from_ xs)

section

variable {l l' : Links ρ} {as bs xs : List ρ} {x : ρ} {a b : Entity ρ}

theorem getLast?_upTo : (upTo as).getLast? = some (lastOf as) := by
  rcases List.eq_nil_or_concat' as with rfl | ⟨as, x, rfl⟩
  · rfl
  · simp [upTo, lastOf, List.getLast?_cons]

theorem head?_from : (from_ bs).head? = some (firstOf bs) := by
  cases bs with
  | nil => rfl
  | cons x bs => rfl

theorem circle_append : (head :: from_ (as ++ bs)) = upTo as ++ from_ bs := by
  rw [from_, from_, upTo, List.map_append, List.append_assoc, List.cons_append]

/-- A ring, cut at a place. -/
theorem chain_append_iff : List.IsChain (Joined l) (head :: from_ (as ++ bs)) ↔
    List.IsChain (Joined l) (upTo as) ∧ List.IsChain (Joined l) (from_ bs) ∧
      Joined l (lastOf as) (firstOf bs) := by
  rw [circle_append, List.isChain_append, getLast?_upTo, head?_from]
  simp

/-- Only the links inside a chain matter to it. -/
theorem isChain_frame {entities : List (Entity ρ)} (chain : List.IsChain (Joined l) entities)
    (next : ∀ a ∈ entities.dropLast, l'.next a = l.next a)
    (prev : ∀ b ∈ entities.tail, l'.prev b = l.prev b) : List.IsChain (Joined l') entities := by
  induction entities with
  | nil => exact .nil
  | cons a entities ih =>
      cases entities with
      | nil => exact .singleton a
      | cons b entities =>
          rw [List.isChain_cons_cons] at chain ⊢
          obtain ⟨⟨forth, back⟩, rest⟩ := chain
          refine ⟨⟨?_, ?_⟩, ?_⟩
          · rw [next a (List.mem_cons_self ..)]
            exact forth
          · rw [prev b (List.mem_cons_self ..)]
            exact back
          · refine ih rest (fun c member => next c (List.mem_cons_of_mem _ member)) fun c member =>
              prev c (List.mem_cons_of_mem _ member)

theorem lastOf_notMem (nodup : as.Nodup) : lastOf as ∉ (upTo as).dropLast := by
  rcases List.eq_nil_or_concat' as with rfl | ⟨as, x, rfl⟩
  · simp [upTo]
  · have notMem : x ∉ as := fun member =>
      (List.nodup_append.mp nodup).2.2 x member x (List.mem_singleton.mpr rfl) rfl
    have shape : upTo (as ++ [x]) = upTo as ++ [cell x] := by simp [upTo]
    rw [shape, List.dropLast_concat]
    simpa [lastOf, upTo] using notMem

theorem firstOf_notMem (nodup : bs.Nodup) : firstOf bs ∉ (from_ bs).tail := by
  cases bs with
  | nil => simp [from_]
  | cons x bs => simpa [firstOf, from_] using (List.nodup_cons.mp nodup).1

theorem cell_mem_upTo : cell x ∈ upTo as ↔ x ∈ as := by
  simp [upTo]

theorem cell_mem_from : cell x ∈ from_ bs ↔ x ∈ bs := by
  simp [from_]

theorem lastOf_mem : lastOf as ∈ upTo as := List.mem_of_getLast? getLast?_upTo

theorem firstOf_mem : firstOf bs ∈ from_ bs := List.mem_of_mem_head? head?_from

/-- The entities inside the two parts of a ring are different. -/
theorem parts_disjoint (nodup : (as ++ bs).Nodup) :
    (∀ a ∈ (from_ bs).dropLast, a ∉ upTo as) ∧ ∀ b ∈ (upTo as).tail, b ∉ from_ bs := by
  have apart := (List.nodup_append.mp nodup).2.2
  constructor
  · intro a inside outside
    rw [from_, List.dropLast_concat] at inside
    obtain ⟨y, member, rfl⟩ := List.mem_map.mp inside
    exact apart y (cell_mem_upTo.mp outside) y member rfl
  · intro b inside outside
    obtain ⟨y, member, rfl⟩ := List.mem_map.mp inside
    exact apart y member y (cell_mem_from.mp outside) rfl

/-- A ring after changes at a place: outside it nothing that the ring looks at has changed. -/
theorem parts_keep (nodup : (as ++ bs).Nodup)
    (parts : List.IsChain (Joined l) (upTo as) ∧ List.IsChain (Joined l) (from_ bs)) {new : Entity ρ}
    (outside : new ∉ upTo as ∧ new ∉ from_ bs)
    (next : ∀ a, a ≠ lastOf as → a ≠ new → l'.next a = l.next a)
    (prev : ∀ b, b ≠ firstOf bs → b ≠ new → l'.prev b = l.prev b) :
    List.IsChain (Joined l') (upTo as) ∧ List.IsChain (Joined l') (from_ bs) := by
  obtain ⟨nodupA, nodupB, _⟩ := List.nodup_append.mp nodup
  obtain ⟨apart, apart'⟩ := parts_disjoint nodup
  refine ⟨isChain_frame parts.1 ?_ ?_, isChain_frame parts.2 ?_ ?_⟩
  · intro a inside
    refine next a ?_ ?_
    · rintro rfl
      exact lastOf_notMem nodupA inside
    · rintro rfl
      exact outside.1 (List.dropLast_subset _ inside)
  · intro b inside
    refine prev b ?_ ?_
    · rintro rfl
      exact apart' _ inside firstOf_mem
    · rintro rfl
      exact outside.1 (List.mem_of_mem_tail inside)
  · intro a inside
    refine next a ?_ ?_
    · rintro rfl
      exact apart _ inside lastOf_mem
    · rintro rfl
      exact outside.2 (List.dropLast_subset _ inside)
  · intro b inside
    refine prev b ?_ ?_
    · rintro rfl
      exact firstOf_notMem nodupB inside
    · rintro rfl
      exact outside.2 (List.mem_of_mem_tail inside)

/-- A ring with no cells. -/
theorem rings_nil (forth : l.next head = some head) (back : l.prev head = some head) :
    Rings l ([] : List ρ) :=
  ⟨List.nodup_nil, List.isChain_cons_cons.mpr ⟨⟨forth, back⟩, .singleton _⟩⟩

/-- A cell linked between two neighbours is in the ring between them. -/
theorem Rings.link [DecidableEq ρ] (rings : Rings l (as ++ bs)) (fresh : x ∉ as ++ bs) :
    Rings (link (lastOf as) (firstOf bs) (cell x) l) (as ++ x :: bs) := by
  have notMem : x ∉ as ∧ x ∉ bs := by simpa using fresh
  obtain ⟨chainA, chainB, _⟩ := chain_append_iff.mp rings.chain
  have newA : cell x ∉ upTo as := mt cell_mem_upTo.mp notMem.1
  have newB : cell x ∉ from_ bs := mt cell_mem_from.mp notMem.2
  have other : lastOf as ≠ cell x := by
    intro same
    exact newA (same ▸ lastOf_mem)
  have other' : firstOf bs ≠ cell x := by
    intro same
    exact newB (same ▸ firstOf_mem)
  obtain ⟨keptA, keptB⟩ := @parts_keep ρ l (LinkRing.link (lastOf as) (firstOf bs) (cell x) l) as bs
    rings.nodup ⟨chainA, chainB⟩ (cell x) ⟨newA, newB⟩
    (fun a notLast notNew => by simp [LinkRing.link, notLast, notNew])
    (fun b notFirst notNew => by simp [LinkRing.link, notFirst, notNew])
  constructor
  · exact List.nodup_middle.mpr (List.nodup_cons.mpr ⟨fresh, rings.nodup⟩)
  · rw [chain_append_iff]
    refine ⟨keptA, ?_, ?_, ?_⟩
    · show List.IsChain _ (cell x :: from_ bs)
      rw [List.isChain_cons, head?_from]
      refine ⟨?_, keptB⟩
      rintro b ⟨⟩
      exact ⟨by simp [LinkRing.link, other.symm], by simp [LinkRing.link]⟩
    · exact Function.update_self ..
    · show Function.update (Function.update l.prev (cell x) (some (lastOf as))) (firstOf bs)
        (some (cell x)) (cell x) = some (lastOf as)
      rw [Function.update_of_ne other'.symm, Function.update_self]

/-- The neighbours of a cell of a ring. -/
theorem Rings.next_eq (rings : Rings l (as ++ x :: bs)) : l.next (cell x) = some (firstOf bs) := by
  have split : as ++ x :: bs = (as ++ [x]) ++ bs := by simp
  have chain := rings.chain
  rw [split, chain_append_iff] at chain
  have last : lastOf (as ++ [x]) = cell x := by simp [lastOf]
  rw [last] at chain
  exact chain.2.2.1

theorem Rings.prev_eq (rings : Rings l (as ++ x :: bs)) : l.prev (cell x) = some (lastOf as) :=
  (chain_append_iff.mp rings.chain).2.2.2

theorem Rings.head_next (rings : Rings l xs) : l.next head = some (firstOf xs) := by
  have chain : List.IsChain (Joined l) (head :: from_ ([] ++ xs)) := rings.chain
  exact (chain_append_iff.mp chain).2.2.1

theorem Rings.head_prev (rings : Rings l xs) : l.prev head = some (lastOf xs) := by
  have chain : List.IsChain (Joined l) (head :: from_ (xs ++ [])) := by
    rw [List.append_nil]
    exact rings.chain
  exact (chain_append_iff.mp chain).2.2.2

theorem lastOf_append_cons : lastOf (as ++ x :: bs) = lastOf (x :: bs) := by
  rw [lastOf, lastOf, List.getLast?_append_of_ne_nil _ (List.cons_ne_nil x bs)]

theorem mem_of_lastOf (isLast : lastOf xs = cell x) : x ∈ xs := cell_mem_upTo.mp (isLast ▸ lastOf_mem)

theorem mem_of_firstOf (isFirst : firstOf xs = cell x) : x ∈ xs :=
  cell_mem_from.mp (isFirst ▸ firstOf_mem)

/-- No cell of a ring leads back to where the head leads back to. -/
theorem Rings.prev_ne (rings : Rings l (as ++ x :: bs)) : l.prev (cell x) ≠ l.prev head := by
  rw [rings.prev_eq, rings.head_prev, lastOf_append_cons]
  intro same
  obtain ⟨y, isLast⟩ : ∃ y, lastOf (x :: bs) = cell y := ⟨_, by rw [lastOf, List.getLast?_cons]; rfl⟩
  have before := mem_of_lastOf ((Option.some.inj same).trans isLast)
  exact (List.nodup_append.mp rings.nodup).2.2 y before y (mem_of_lastOf isLast) rfl

/-- No cell of a ring leads to where the head leads. -/
theorem Rings.next_ne (rings : Rings l (as ++ x :: bs)) : l.next (cell x) ≠ l.next head := by
  rw [rings.next_eq, rings.head_next]
  intro same
  have nodup := rings.nodup
  cases as with
  | nil =>
      have after := mem_of_firstOf (Option.some.inj same)
      exact (List.nodup_cons.mp nodup).1 after
  | cons a as =>
      have after := mem_of_firstOf (Option.some.inj same)
      exact (List.nodup_cons.mp nodup).1 (List.mem_append_right _ (List.mem_cons_of_mem _ after))

/-- The head leads back to the last cell of the ring only. -/
theorem Rings.last_iff (rings : Rings l (as ++ x :: bs)) : l.prev head = some (cell x) ↔ bs = [] := by
  have nodup := (List.nodup_append.mp rings.nodup).2.1
  rw [rings.head_prev, Option.some_inj, lastOf_append_cons]
  constructor
  · intro same
    rcases List.eq_nil_or_concat' bs with empty | ⟨bs, y, rfl⟩
    · exact empty
    · have last : lastOf (x :: (bs ++ [y])) = cell y := by simp [lastOf, List.getLast?_cons]
      cases last.symm.trans same
      exact absurd (List.mem_append_right bs (List.mem_singleton.mpr rfl)) (List.nodup_cons.mp nodup).1
  · rintro rfl
    rfl

/-- The head leads to the first cell of the ring only. -/
theorem Rings.first_iff (rings : Rings l (as ++ x :: bs)) : l.next head = some (cell x) ↔ as = [] := by
  have nodup := rings.nodup
  rw [rings.head_next, Option.some_inj]
  cases as with
  | nil => exact iff_of_true rfl rfl
  | cons a as =>
      refine iff_of_false (fun same => ?_) (List.cons_ne_nil a as)
      cases same
      exact (List.nodup_cons.mp nodup).1 (List.mem_append_right _ (List.mem_cons_self ..))

/-- A cell that is unlinked leaves the ring. -/
theorem Rings.unlink [DecidableEq ρ] (rings : Rings l (as ++ x :: bs)) :
    Rings (unlink (lastOf as) (firstOf bs) (cell x) l) (as ++ bs) := by
  obtain ⟨fresh, nodup⟩ := List.nodup_cons.mp (List.nodup_middle.mp rings.nodup)
  have notMem : x ∉ as ∧ x ∉ bs := by simpa using fresh
  obtain ⟨chainA, chainB, _⟩ := chain_append_iff.mp rings.chain
  have newA : cell x ∉ upTo as := mt cell_mem_upTo.mp notMem.1
  have newB : cell x ∉ from_ bs := mt cell_mem_from.mp notMem.2
  have other : lastOf as ≠ cell x := by
    intro same
    exact newA (same ▸ lastOf_mem)
  have other' : firstOf bs ≠ cell x := by
    intro same
    exact newB (same ▸ firstOf_mem)
  obtain ⟨keptA, keptB⟩ := @parts_keep ρ l (LinkRing.unlink (lastOf as) (firstOf bs) (cell x) l) as bs
    nodup ⟨chainA, (List.isChain_cons.mp chainB).2⟩ (cell x) ⟨newA, newB⟩
    (fun a notLast notOld => by simp [LinkRing.unlink, notLast, notOld])
    (fun b notFirst notOld => by simp [LinkRing.unlink, notFirst, notOld])
  refine ⟨nodup, chain_append_iff.mpr ⟨keptA, keptB, ?_, ?_⟩⟩
  · simp [LinkRing.unlink, other]
  · simp [LinkRing.unlink, other']

end

end LinkRing
