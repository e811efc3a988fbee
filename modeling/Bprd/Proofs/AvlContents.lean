/-
Module: Bprd.Proofs.AvlContents
Layer: Proofs
Purpose: What a tree of avl.c holds. The list runs through groups of nodes with equal keys, each a leader and
  its followers; the leaders are the labels of a balanced tree, and their keys increase. Insertion and
  removal keep this, and their effect on the list is that of the abstract contents.
Imports: Bprd.Proofs.AvlInsertion, Bprd.Proofs.AvlRemoval, Bprd.Proofs.AvlSearch, Bprd.Spec.SortedContents
Trusted boundary: none
Main exports: flat, Holds, entriesOf, Holds.insert, Holds.remove
-/
import Bprd.Proofs.AvlInsertion
import Bprd.Proofs.AvlRemoval
import Bprd.Proofs.AvlSearch
import Bprd.Spec.SortedContents

namespace Bprd

open ListEntity
open HeightTree (Side HTree Way bin plug before after beside grown labels_plug labels_grown)
open LinkRing (Rings lastOf firstOf)

variable {κ ρ ℓ : Type} [DecidableEq ρ] [LinearOrder ℓ]

/-- The nodes of some groups, each a leader with its followers. -/
def flat (groups : List (ρ × List ρ)) : List ρ := groups.flatMap fun group => group.1 :: group.2

/-- The tree holds these groups. -/
structure Holds (rank : κ → ℓ) (t : AvlTree κ ρ) (groups : List (ρ × List ρ)) : Prop where
  tree : ∃ tree, StandsAt t [] tree ∧ HeightTree.Balanced tree ∧ tree.labels = groups.map Prod.fst
  ring : Rings t.list (flat groups)
  ordered : groups.Pairwise fun g h => rank (t.key g.1) < rank (t.key h.1)
  follow : ∀ g ∈ groups, ∀ r ∈ g.2, t.leader r = false ∧ rank (t.key r) = rank (t.key g.1)
  single : t.allowDups = false → ∀ g ∈ groups, g.2 = []
  count : t.count = UInt32.ofNat (flat groups).length

/-- The entries of some groups. -/
def entriesOf (t : AvlTree κ ρ) (groups : List (ρ × List ρ)) : List (Entry κ ρ) :=
  (flat groups).map fun r => (r, t.key r)

section

variable {rank : κ → ℓ} {comp : κ → κ → Int} {t t' : AvlTree κ ρ} {groups gs hs : List (ρ × List ρ)}
  {x new : ρ} {fs : List ρ} {n : Nat}

omit [DecidableEq ρ] in
@[simp] theorem flat_nil : flat ([] : List (ρ × List ρ)) = [] := rfl

omit [DecidableEq ρ] in
@[simp] theorem flat_cons : flat ((x, fs) :: gs) = x :: (fs ++ flat gs) := rfl

omit [DecidableEq ρ] in
@[simp] theorem flat_append : flat (gs ++ hs) = flat gs ++ flat hs := List.flatMap_append

omit [DecidableEq ρ] in
theorem leader_mem {g : ρ × List ρ} (member : g ∈ gs) : g.1 ∈ flat gs :=
  List.mem_flatMap.mpr ⟨g, member, List.mem_cons_self ..⟩

omit [DecidableEq ρ] in
/-- The leaders of the tree lead, in the memory too. -/
theorem Holds.leads (holds : Holds rank t groups) {g : ρ × List ρ} (member : g ∈ groups) :
    t.leader g.1 = true := by
  obtain ⟨tree, stands, _, labels⟩ := holds.tree
  apply stands.tree.leads
  rw [labels]
  exact List.mem_map_of_mem member

omit [DecidableEq ρ] in
/-- The rank of a node is that of its leader. -/
theorem Holds.rank_mem (holds : Holds rank t groups) (part : gs ⊆ groups) {r : ρ} (member : r ∈ flat gs) :
    ∃ g ∈ gs, rank (t.key r) = rank (t.key g.1) := by
  obtain ⟨g, isGroup, inside⟩ := List.mem_flatMap.mp member
  rcases List.mem_cons.mp inside with rfl | follower
  · exact ⟨g, isGroup, rfl⟩
  · exact ⟨g, isGroup, (holds.follow g (part isGroup) r follower).2⟩

theorem listIsLast_eq {as bs : List ρ} (rings : Rings t.list (as ++ x :: bs)) :
    listIsLast t.list x = bs.isEmpty := by
  rw [listIsLast, Bool.eq_iff_iff, decide_eq_true_iff, rings.last_iff, List.isEmpty_iff]

/-- The loop of `avl_insert` ends at the last node of a group. -/
theorem avlLast_eq {as bs : List ρ} (rings : Rings t.list (as ++ x :: (fs ++ bs)))
    (follow : ∀ r ∈ fs, t.leader r = false) (leads : ∀ r ∈ bs.head?, t.leader r = true)
    (fuel : fs.length < n) : avlLast t n x = some ((x :: fs).getLast (List.cons_ne_nil x fs)) := by
  induction fs generalizing as x n with
  | nil =>
      obtain ⟨n, rfl⟩ := Nat.exists_eq_succ_of_ne_zero (Nat.ne_of_gt fuel)
      rw [List.nil_append] at rings
      rw [avlLast, listIsLast_eq rings, rings.next_eq]
      cases bs with
      | nil => rfl
      | cons b bs =>
          have isLeader : t.leader b = true := leads b rfl
          simp [firstOf, nodeOf, isLeader]
  | cons f fs ih =>
      obtain ⟨n, rfl⟩ := Nat.exists_eq_succ_of_ne_zero (Nat.ne_of_gt (Nat.zero_lt_of_lt fuel))
      have follows : t.leader f = false := follow f (List.mem_cons_self ..)
      have rings' : Rings t.list ((as ++ [x]) ++ f :: (fs ++ bs)) := by
        simpa using rings
      have rest := ih rings' (fun r member => follow r (List.mem_cons_of_mem _ member))
        (Nat.lt_of_succ_lt_succ fuel)
      rw [avlLast, listIsLast_eq rings, rings.next_eq]
      simpa [firstOf, nodeOf, follows] using rest

/-- An entry goes where all entries before it are not greater, and the next one is. -/
theorem orderedInsert_at {α : Type} {r : α → α → Prop} [DecidableRel r] {a : α} {as bs : List α}
    (before : ∀ b ∈ as, ¬ r a b) (behind : ∀ b ∈ bs.head?, r a b) :
    (as ++ bs).orderedInsert r a = as ++ a :: bs := by
  induction as with
  | nil =>
      cases bs with
      | nil => rfl
      | cons b bs => exact List.orderedInsert_cons_of_le r bs (behind b rfl)
  | cons b as ih =>
      rw [List.cons_append, List.orderedInsert_of_not_le r _ (before b (List.mem_cons_self ..)),
        ih fun c member => before c (List.mem_cons_of_mem _ member), List.cons_append]

/-! ### Insertion -/

/-- A node has entered the list between two entities, and nothing else of the data has changed. -/
structure Enters (t t' : AvlTree κ ρ) (prev next : LinkRing.Entity ρ) (new : ρ) : Prop where
  list : t'.list = LinkRing.link prev next (.cell new) t.list
  count : t'.count = t.count + 1
  key : t'.key = t.key
  leader : t'.leader = t.leader
  allowDups : t'.allowDups = t.allowDups

theorem Enters.trans {t'' : AvlTree κ ρ} {prev next : LinkRing.Entity ρ} (enters : Enters t t' prev next new)
    (same : SameData t' t'') : Enters t t'' prev next new where
  list := same.list.trans enters.list
  count := same.count.trans enters.count
  key := same.key.trans enters.key
  leader := same.leader.trans enters.leader
  allowDups := same.allowDups.trans enters.allowDups

/-- A new leader stands between the groups with lesser keys and those with greater ones. -/
theorem Holds.addLeader (holds : Holds rank t (gs ++ hs)) (fresh : new ∉ flat (gs ++ hs))
    (enters : Enters t t' (lastOf (flat gs)) (firstOf (flat hs)) new)
    (tree : ∃ tree, StandsAt t' [] tree ∧ HeightTree.Balanced tree ∧
      tree.labels = (gs ++ (new, []) :: hs).map Prod.fst)
    (below : ∀ g ∈ gs, rank (t.key g.1) < rank (t.key new))
    (above : ∀ g ∈ hs, rank (t.key new) < rank (t.key g.1)) : Holds rank t' (gs ++ (new, []) :: hs) := by
  have ring := holds.ring
  have count := holds.count
  rw [flat_append] at fresh ring count
  refine ⟨tree, ?_, ?_, ?_, ?_, ?_⟩
  · rw [enters.list, flat_append, flat_cons]
    exact ring.link fresh
  · rw [enters.key]
    obtain ⟨orderedG, orderedH, across⟩ := List.pairwise_append.mp holds.ordered
    refine List.pairwise_append.mpr ⟨orderedG, List.pairwise_cons.mpr ⟨above, orderedH⟩, ?_⟩
    intro g inG h inH
    rcases List.mem_cons.mp inH with rfl | inH
    · exact below g inG
    · exact across g inG h inH
  · rw [enters.leader, enters.key]
    intro g member r follower
    rcases List.mem_append.mp member with inG | inH
    · exact holds.follow g (List.mem_append_left _ inG) r follower
    · rcases List.mem_cons.mp inH with rfl | inH
      · cases follower
      · exact holds.follow g (List.mem_append_right _ inH) r follower
  · rw [enters.allowDups]
    intro refused g member
    rcases List.mem_append.mp member with inG | inH
    · exact holds.single refused g (List.mem_append_left _ inG)
    · rcases List.mem_cons.mp inH with rfl | inH
      · rfl
      · exact holds.single refused g (List.mem_append_right _ inH)
  · have length : (flat (gs ++ (new, []) :: hs)).length = (flat gs ++ flat hs).length + 1 := by
      simp
      omega
    rw [enters.count, count, length, UInt32.ofNat_add]
    rfl

omit [DecidableEq ρ] in
/-- The order of the groups is that of the ranks of their leaders. -/
theorem ordered_congr {groups' : List (ρ × List ρ)}
    (same : groups'.map (fun g => rank (t.key g.1)) = groups.map fun g => rank (t.key g.1))
    (ordered : groups.Pairwise fun g h => rank (t.key g.1) < rank (t.key h.1)) :
    groups'.Pairwise fun g h => rank (t.key g.1) < rank (t.key h.1) := by
  rw [← List.pairwise_map (f := fun g : ρ × List ρ => rank (t.key g.1)) (R := (· < ·)), same,
    List.pairwise_map]
  exact ordered

/-- A new follower stands behind its group. -/
theorem Holds.addFollower (holds : Holds rank t (gs ++ (x, fs) :: hs)) (fresh : new ∉ flat (gs ++ (x, fs) :: hs))
    (dups : t.allowDups = true) (level : rank (t.key new) = rank (t.key x)) :
    Holds rank { t with
      leader := Function.update t.leader new false
      list := LinkRing.link (lastOf (flat gs ++ x :: fs)) (firstOf (flat hs)) (.cell new) t.list
      count := t.count + 1 } (gs ++ (x, fs ++ [new]) :: hs) := by
  have shape : flat (gs ++ (x, fs) :: hs) = (flat gs ++ x :: fs) ++ flat hs := by simp
  have shape' : flat (gs ++ (x, fs ++ [new]) :: hs) = (flat gs ++ x :: fs) ++ new :: flat hs := by simp
  have ring := holds.ring
  have count := holds.count
  have others : ∀ r ∈ flat (gs ++ (x, fs) :: hs), Function.update t.leader new false r = t.leader r := by
    intro r member
    exact Function.update_of_ne (fun same : r = new => fresh (same ▸ member)) ..
  refine ⟨?_, ?_, ?_, ?_, ?_, ?_⟩
  · obtain ⟨tree, stands, balanced, labels⟩ := holds.tree
    refine ⟨tree, stands.congr rfl fun z member => ⟨rfl, fun _ => rfl, rfl, ?_⟩, balanced, ?_⟩
    · have inside : z ∈ (gs ++ (x, fs) :: hs).map Prod.fst := by
        rw [← labels]
        simpa [HeightTree.beside] using member
      obtain ⟨g, isGroup, rfl⟩ := List.mem_map.mp inside
      exact others g.1 (leader_mem isGroup)
    · rw [labels]
      simp
  · rw [shape] at ring fresh
    rw [shape']
    exact ring.link fresh
  · exact ordered_congr (by simp) holds.ordered
  · have keeps : ∀ g ∈ gs ++ (x, fs) :: hs, ∀ r ∈ g.2,
        Function.update t.leader new false r = false ∧ rank (t.key r) = rank (t.key g.1) := by
      intro g member r follower
      rw [others r (List.mem_flatMap.mpr ⟨g, member, List.mem_cons_of_mem _ follower⟩)]
      exact holds.follow g member r follower
    intro g member r follower
    rcases List.mem_append.mp member with inG | inH
    · exact keeps g (List.mem_append_left _ inG) r follower
    · rcases List.mem_cons.mp inH with rfl | inH
      · rcases List.mem_append.mp follower with old | isNew
        · exact keeps (x, fs) (List.mem_append_right _ (List.mem_cons_self ..)) r old
        · rw [List.mem_singleton.mp isNew]
          exact ⟨Function.update_self .., level⟩
      · exact keeps g (List.mem_append_right _ (List.mem_cons_of_mem _ inH)) r follower
  · intro refused
    exact absurd (dups.symm.trans refused) (by decide)
  · have length : (flat (gs ++ (x, fs ++ [new]) :: hs)).length = (flat (gs ++ (x, fs) :: hs)).length + 1 := by
      rw [shape, shape']
      simp
      omega
    show t.count + 1 = _
    rw [count, length, UInt32.ofNat_add]
    rfl

theorem blank_avlBlank : Blank (avlBlank t new) new where
  child := fun _ => Function.update_self ..
  balance := Function.update_self ..
  leads := Function.update_self ..

theorem sameNode_avlBlank {r : ρ} (other : r ≠ new) : SameNode t (avlBlank t new) r where
  parent := Function.update_of_ne other ..
  child := fun _ => Function.update_of_ne other ..
  balance := Function.update_of_ne other ..
  leader := Function.update_of_ne other ..

omit [DecidableEq ρ] in
theorem mem_flat_of_label {tree : HTree ρ} (labels : tree.labels = groups.map Prod.fst) {r : ρ}
    (member : r ∈ tree.labels) : r ∈ flat groups := by
  rw [labels] at member
  obtain ⟨g, isGroup, rfl⟩ := List.mem_map.mp member
  exact leader_mem isGroup

theorem Holds.blank (holds : Holds rank t groups) (fresh : new ∉ flat groups) :
    Holds rank (avlBlank t new) groups where
  tree := by
    obtain ⟨tree, stands, balanced, labels⟩ := holds.tree
    refine ⟨tree, stands.congr rfl fun r member => sameNode_avlBlank fun same => ?_, balanced, labels⟩
    rw [HeightTree.beside, List.append_nil] at member
    exact fresh (same ▸ mem_flat_of_label labels member)
  ring := holds.ring
  ordered := holds.ordered
  follow := fun g isGroup r follower => by
    have other : r ≠ new := fun same =>
      fresh (same ▸ List.mem_flatMap.mpr ⟨g, isGroup, List.mem_cons_of_mem _ follower⟩)
    rw [(sameNode_avlBlank other).leader]
    exact holds.follow g isGroup r follower
  single := holds.single
  count := holds.count

omit [DecidableEq ρ] in
theorem length_le_flat : groups.length ≤ (flat groups).length := by
  induction groups with
  | nil => exact Nat.le_refl 0
  | cons g gs ih =>
      obtain ⟨x, fs⟩ := g
      rw [flat_cons, List.length_cons, List.length_cons, List.length_append]
      omega

omit [DecidableEq ρ] in
theorem height_le_flat {tree : HTree ρ} (labels : tree.labels = groups.map Prod.fst) :
    tree.height ≤ (flat groups).length := by
  have low := @HeightTree.height_le_length ρ tree
  rw [labels, List.length_map] at low
  exact low.trans length_le_flat

/-- Where a key belongs: the groups with lesser keys, a group, and the groups with greater ones; and the place
    of the leader of that group in the tree, where nothing is on the side of the key. -/
structure Spot (rank : κ → ℓ) (t : AvlTree κ ρ) (key : κ) (gs : List (ρ × List ρ)) (x : ρ)
    (hs : List (ρ × List ρ)) (path : Way ρ) (l : HTree ρ) (b : Int) (r : HTree ρ) : Prop where
  lower : ∀ g ∈ gs, rank (t.key g.1) < rank key
  upper : ∀ g ∈ hs, rank key < rank (t.key g.1)
  stands : StandsAt t path (.node l x b r)
  balanced : HeightTree.Balanced (plug path (.node l x b r))
  isBefore : before path ++ l.labels = gs.map Prod.fst
  isAfter : r.labels ++ after path = hs.map Prod.fst
  noLeft : rank key < rank (t.key x) → l = .nil
  noRight : rank (t.key x) < rank key → r = .nil

/-- The search ends at the spot. -/
theorem Holds.findSpot (compares : Compares comp rank) (holds : Holds rank t groups) {root : ρ}
    (isRoot : t.root = some root) (key : κ)
    (fuel : ∀ tree, HeightTree.Balanced tree → tree.labels = groups.map Prod.fst → tree.height ≤ n) :
    ∃ gs x fs hs path l b r, groups = gs ++ (x, fs) :: hs ∧
      avlFindRec comp t key n root = some (x, comp key (t.key x)) ∧ Spot rank t key gs x hs path l b r := by
  obtain ⟨tree, stands, balanced, labels⟩ := holds.tree
  have ordered : Ascending t rank tree.labels := by
    rw [labels, Ascending, List.pairwise_map]
    exact holds.ordered
  have hole : t.root = tree.root := stands.rest
  obtain ⟨path, l, x, b, r, rfl, found, noLeft, noRight, lower, upper⟩ :=
    findRec_spec compares key stands.tree (hole.symm.trans isRoot) ordered
      (fuel _ balanced labels)
  have split : groups.map Prod.fst = (before path ++ l.labels) ++ x :: (r.labels ++ after path) := by
    rw [← labels, labels_plug, HTree.labels]
    simp
  rw [labels, split, Ascending, List.pairwise_append, List.pairwise_cons] at ordered
  obtain ⟨_, ⟨behind, _⟩, across⟩ := ordered
  obtain ⟨gs, rest, rfl, isBefore, isRest⟩ := List.map_eq_append_iff.mp split
  obtain ⟨g, hs, rfl, isNode, isAfter⟩ := List.map_eq_cons_iff.mp isRest
  obtain ⟨y, fs⟩ := g
  cases isNode
  refine ⟨gs, y, fs, hs, path, l, b, r, rfl, found, ?_, ?_, standsAt_plug.mpr stands, balanced,
    isBefore.symm, isAfter.symm, noLeft, noRight⟩
  · intro g member
    have inside : g.1 ∈ before path ++ l.labels := by
      rw [← isBefore]
      exact List.mem_map_of_mem member
    rcases List.mem_append.mp inside with outer | inner
    · exact lower g.1 outer
    · -- There is something to the left of the node, so the key does not lie there.
      have notLess : ¬ rank key < rank (t.key y) := by
        intro less
        rw [noLeft less] at inner
        cases inner
      exact (across g.1 inside y (List.mem_cons_self ..)).trans_le (not_lt.mp notLess)
  · intro g member
    have inside : g.1 ∈ r.labels ++ after path := by
      rw [← isAfter]
      exact List.mem_map_of_mem member
    rcases List.mem_append.mp inside with inner | outer
    · have notGreater : ¬ rank (t.key y) < rank key := by
        intro greater
        rw [noRight greater] at inner
        cases inner
      exact (not_lt.mp notGreater).trans_lt (behind g.1 inside)
    · exact upper g.1 outer

section

variable {path : Way ρ} {l r : HTree ρ} {b : Int}

omit [DecidableEq ρ] in
/-- The ranks around a spot. -/
theorem Holds.ranks (holds : Holds rank t (gs ++ (x, fs) :: hs)) {key : κ}
    (spot : Spot rank t key gs x hs path l b r) :
    (∀ a ∈ flat gs, rank (t.key a) < rank key) ∧ (∀ a ∈ x :: fs, rank (t.key a) = rank (t.key x)) ∧
      ∀ a ∈ flat hs, rank key < rank (t.key a) := by
  refine ⟨?_, ?_, ?_⟩
  · intro a member
    obtain ⟨g, isGroup, same⟩ := holds.rank_mem (List.subset_append_left _ _) member
    rw [same]
    exact spot.lower g isGroup
  · intro a member
    rcases List.mem_cons.mp member with rfl | follower
    · rfl
    · exact (holds.follow (x, fs) (List.mem_append_right _ (List.mem_cons_self ..)) a follower).2
  · intro a member
    obtain ⟨g, isGroup, same⟩ := holds.rank_mem (fun g (member : g ∈ hs) =>
      List.mem_append_right _ (List.mem_cons_of_mem _ member)) member
    rw [same]
    exact spot.upper g isGroup

omit [DecidableEq ρ] in
/-- The abstract contents with an entry at a place. -/
theorem putEntry_at {dups : Bool} {xs : List ρ} (as bs : List ρ) (split : xs = as ++ bs)
    (accepted : ¬ (dups = false ∧ ∃ a ∈ xs, rank (t.key a) = rank (t.key new)))
    (lower : ∀ a ∈ as, rank (t.key a) ≤ rank (t.key new))
    (upper : ∀ a ∈ bs.head?, rank (t.key new) < rank (t.key a)) :
    putEntry rank dups (new, t.key new) (xs.map fun a => (a, t.key a)) =
      (0, (as ++ new :: bs).map fun a => (a, t.key a)) := by
  subst split
  have absent : ¬ (dups = false ∧ Present rank (t.key new) ((as ++ bs).map fun a => (a, t.key a))) := by
    rintro ⟨refused, e, member, same⟩
    obtain ⟨a, inside, rfl⟩ := List.mem_map.mp member
    exact accepted ⟨refused, a, inside, same⟩
  rw [putEntry, if_neg absent, List.map_append, orderedInsert_at]
  · simp
  · intro e member
    obtain ⟨a, inside, rfl⟩ := List.mem_map.mp member
    exact not_lt_of_ge (lower a inside)
  · intro e isHead
    rw [List.head?_map] at isHead
    obtain ⟨a, inside, rfl⟩ := Option.map_eq_some_iff.mp isHead
    exact upper a inside

/-- A result of `avl_insert` is that of the abstract contents. -/
def Inserted (rank : κ → ℓ) (t : AvlTree κ ρ) (groups : List (ρ × List ρ)) (new : ρ)
    (result : Option (Int × AvlTree κ ρ)) : Prop :=
  ∃ code t' groups', result = some (code, t') ∧ Holds rank t' groups' ∧ t'.key = t.key ∧
    t'.allowDups = t.allowDups ∧
    putEntry rank t.allowDups (new, t.key new) (entriesOf t groups) = (code, entriesOf t' groups')

omit [DecidableEq ρ] in
/-- What the last node of a group leads to. -/
theorem last_next (rings : Rings t.list (flat (gs ++ (x, fs) :: hs))) :
    t.list.next (.cell ((x :: fs).getLast (List.cons_ne_nil x fs))) = some (firstOf (flat hs)) ∧
      lastOf (flat gs ++ x :: fs) = .cell ((x :: fs).getLast (List.cons_ne_nil x fs)) := by
  have whole := List.dropLast_append_getLast (List.cons_ne_nil x fs)
  constructor
  · have shape : flat (gs ++ (x, fs) :: hs) = (flat gs ++ (x :: fs).dropLast) ++
        (x :: fs).getLast (List.cons_ne_nil x fs) :: flat hs := by
      rw [flat_append, flat_cons, ← List.cons_append]
      nth_rewrite 1 [← whole]
      simp
    rw [shape] at rings
    exact rings.next_eq
  · rw [LinkRing.lastOf_append_cons, lastOf, List.getLast?_eq_some_getLast (List.cons_ne_nil x fs)]
    rfl

/-- A key that is there. -/
theorem Holds.insertSame (compares : Compares comp rank) (holds : Holds rank t (gs ++ (x, fs) :: hs))
    (fresh : new ∉ flat (gs ++ (x, fs) :: hs)) (spot : Spot rank t (t.key new) gs x hs path l b r)
    (level : rank (t.key new) = rank (t.key x)) :
    Inserted rank t (gs ++ (x, fs) :: hs) new
      (avlInsertAt comp n t x ((x :: fs).getLast (List.cons_ne_nil x fs)) new) := by
  obtain ⟨lower, same, upper⟩ := holds.ranks spot
  rw [avlInsertAt]
  simp only [if_pos ((compares.eq _ _).mpr level)]
  by_cases dups : t.allowDups = true
  · obtain ⟨isNext, isLast⟩ := last_next holds.ring
    have held := holds.addFollower fresh dups level
    rw [isLast] at held
    refine ⟨0, _, _, ?_, held, rfl, rfl, ?_⟩
    · rw [if_pos dups]
      simp only [avlInsertAfter, listAddAfter, isNext, Option.map_some]
      rfl
    · rw [dups, entriesOf, putEntry_at (flat gs ++ x :: fs) (flat hs)]
      · simp [entriesOf]
      · simp
      · simp
      · intro a member
        rcases List.mem_append.mp member with less | here
        · exact le_of_lt (lower a less)
        · exact le_of_eq ((same a here).trans level.symm)
      · exact fun a isHead => upper a (List.mem_of_mem_head? isHead)
  · refine ⟨-1, t, _, if_neg dups, holds, rfl, rfl, ?_⟩
    have member : x ∈ flat (gs ++ (x, fs) :: hs) := by simp
    rw [putEntry, if_pos ⟨Bool.eq_false_iff.mpr dups, (x, t.key x), List.mem_map_of_mem member, level.symm⟩]

/-- A new leader between lesser and greater keys. -/
theorem Holds.insertedLeader (holds : Holds rank t (gs ++ hs)) (fresh : new ∉ flat (gs ++ hs))
    (lower : ∀ a ∈ flat gs, rank (t.key a) < rank (t.key new))
    (upper : ∀ a ∈ flat hs, rank (t.key new) < rank (t.key a))
    (enters : Enters t t' (lastOf (flat gs)) (firstOf (flat hs)) new)
    (tree : ∃ tree, StandsAt t' [] tree ∧ HeightTree.Balanced tree ∧
      tree.labels = (gs ++ (new, []) :: hs).map Prod.fst) :
    Inserted rank t (gs ++ hs) new (some (0, t')) := by
  have absent : ¬ (t.allowDups = false ∧ ∃ a ∈ flat (gs ++ hs), rank (t.key a) = rank (t.key new)) := by
    rintro ⟨_, a, member, level⟩
    rw [flat_append] at member
    rcases List.mem_append.mp member with before | behind
    · exact absurd level (ne_of_lt (lower a before))
    · exact absurd level (ne_of_gt (upper a behind))
  have held := holds.addLeader fresh enters tree (fun g member => lower g.1 (leader_mem member))
    fun g member => upper g.1 (leader_mem member)
  refine ⟨0, t', _, rfl, held, enters.key, enters.allowDups, ?_⟩
  rw [entriesOf, putEntry_at (flat gs) (flat hs) flat_append absent]
  · simp [entriesOf, enters.key]
  · exact fun a member => le_of_lt (lower a member)
  · exact fun a isHead => upper a (List.mem_of_mem_head? isHead)

omit [DecidableEq ρ] in
/-- The tree of a spot has the leaders as its labels. -/
theorem Spot.labels {key : κ} (spot : Spot rank t key gs x hs path l b r) :
    (plug path (HTree.node l x b r)).labels = (gs ++ (x, fs) :: hs).map Prod.fst := by
  rw [labels_plug, HTree.labels, List.map_append, List.map_cons, ← spot.isBefore, ← spot.isAfter]
  simp

omit [DecidableEq ρ] in
theorem Spot.fresh {key : κ} (spot : Spot rank t key gs x hs path l b r)
    (fresh : new ∉ flat (gs ++ (x, fs) :: hs)) :
    new ∉ (HTree.node l x b r).labels ++ HeightTree.beside path := fun member =>
  fresh (mem_flat_of_label spot.labels (HeightTree.labels_plug_perm.mem_iff.mpr member))

theorem sameData_attach {side : Side} {b' : Int} : SameData t (avlAttach side t x new b') :=
  (sameData_setBalance.trans sameData_setParent).trans sameData_setChild

/-- A key that lies before the spot. -/
theorem Holds.insertLess (compares : Compares comp rank) (holds : Holds rank t (gs ++ (x, fs) :: hs))
    (blank : Blank t new) (fresh : new ∉ flat (gs ++ (x, fs) :: hs))
    (spot : Spot rank t (t.key new) gs x hs path l b r) (less : rank (t.key new) < rank (t.key x))
    (last : ρ) (fuel : path.length < n) :
    Inserted rank t (gs ++ (x, fs) :: hs) new (avlInsertAt comp n t x last new) := by
  obtain ⟨lower, same, upper⟩ := holds.ranks spot
  have diff : comp (t.key new) (t.key x) < 0 := (compares.lt _ _).mpr less
  obtain rfl : l = .nil := spot.noLeft less
  have isPrev : t.list.prev (.cell x) = some (lastOf (flat gs)) := by
    have rings := holds.ring
    rw [flat_append, flat_cons] at rings
    exact rings.prev_eq
  set linked : AvlTree κ ρ := { t with
    list := LinkRing.link (lastOf (flat gs)) (.cell x) (.cell new) t.list, count := t.count + 1 } with isLinked
  have linking : avlInsertBefore t x new = some linked := by
    rw [avlInsertBefore, listAddBefore, isPrev]
    rfl
  have enters : Enters t linked (lastOf (flat gs)) (firstOf (flat ((x, fs) :: hs))) new :=
    ⟨rfl, rfl, rfl, rfl, rfl⟩
  have stands : StandsAt linked path (bin .left .nil x b r) :=
    StandsAt.congr spot.stands rfl fun _ _ => ⟨rfl, fun _ => rfl, rfl, rfl⟩
  have blank' : Blank linked new := ⟨blank.child, blank.balance, blank.leads⟩
  have labels : labelsWith .left path new x r = (gs ++ (new, []) :: (x, fs) :: hs).map Prod.fst := by
    rw [labelsWith, List.map_append, List.map_cons, List.map_cons, ← spot.isBefore, ← spot.isAfter]
    simp [bin, leaf, HTree.labels]
  have above : ∀ a ∈ flat ((x, fs) :: hs), rank (t.key new) < rank (t.key a) := by
    intro a member
    rw [flat_cons, ← List.cons_append] at member
    rcases List.mem_append.mp member with here | behind
    · rw [same a here]
      exact less
    · exact upper a behind
  rcases stands.newLeaf spot.balanced blank' (spot.fresh fresh) fuel with
    ⟨leans, tree, grows⟩ | ⟨level, t', tree, runs, sameData, grows⟩
  · have isBalance : t.balance x = 1 := leans
    rw [labels] at grows
    have inserted := holds.insertedLeader fresh lower above (enters.trans sameData_attach) ⟨tree, grows⟩
    rw [avlInsertAt, linking]
    simpa only [if_neg (ne_of_lt diff), if_pos isBalance, Option.bind_eq_bind, Option.bind_some] using inserted
  · have isBalance : t.balance x = 0 := level
    have runs' : postInsert n (avlAttach .left linked x new (-1)) x = some t' := runs
    rw [labels] at grows
    have inserted := holds.insertedLeader fresh lower above (enters.trans (sameData_attach.trans sameData))
      ⟨tree, grows⟩
    rw [avlInsertAt, linking]
    simpa [ne_of_lt diff, isBalance, diff, runs'] using inserted

/-- A key that lies behind the spot. -/
theorem Holds.insertGreater (compares : Compares comp rank) (holds : Holds rank t (gs ++ (x, fs) :: hs))
    (blank : Blank t new) (fresh : new ∉ flat (gs ++ (x, fs) :: hs))
    (spot : Spot rank t (t.key new) gs x hs path l b r) (greater : rank (t.key x) < rank (t.key new))
    (fuel : path.length < n) :
    Inserted rank t (gs ++ (x, fs) :: hs) new
      (avlInsertAt comp n t x ((x :: fs).getLast (List.cons_ne_nil x fs)) new) := by
  obtain ⟨lower, same, upper⟩ := holds.ranks spot
  have diff : comp (t.key new) (t.key x) > 0 := (compares.gt _ _).mpr greater
  obtain rfl : r = .nil := spot.noRight greater
  obtain ⟨isNext, isLast⟩ := last_next holds.ring
  set last := (x :: fs).getLast (List.cons_ne_nil x fs)
  set linked : AvlTree κ ρ := { t with
    list := LinkRing.link (.cell last) (firstOf (flat hs)) (.cell new) t.list, count := t.count + 1 } with isLinked
  have linking : avlInsertAfter t last new = some linked := by
    rw [avlInsertAfter, listAddAfter, isNext]
    rfl
  have shape : gs ++ (x, fs) :: hs = (gs ++ [(x, fs)]) ++ hs := by simp
  have flatShape : flat (gs ++ [(x, fs)]) = flat gs ++ x :: fs := by simp
  have enters : Enters t linked (lastOf (flat (gs ++ [(x, fs)]))) (firstOf (flat hs)) new := by
    rw [flatShape, isLast]
    exact ⟨rfl, rfl, rfl, rfl, rfl⟩
  have stands : StandsAt linked path (bin .right .nil x b l) :=
    StandsAt.congr spot.stands rfl fun _ _ => ⟨rfl, fun _ => rfl, rfl, rfl⟩
  have blank' : Blank linked new := ⟨blank.child, blank.balance, blank.leads⟩
  have labels : labelsWith .right path new x l = ((gs ++ [(x, fs)]) ++ (new, []) :: hs).map Prod.fst := by
    have isAfter := spot.isAfter
    rw [HTree.labels, List.nil_append] at isAfter
    simp [labelsWith, bin, leaf, HTree.labels, ← spot.isBefore, ← isAfter]
  have below : ∀ a ∈ flat (gs ++ [(x, fs)]), rank (t.key a) < rank (t.key new) := by
    intro a member
    rw [flatShape] at member
    rcases List.mem_append.mp member with before | here
    · exact lower a before
    · rw [same a here]
      exact greater
  rcases stands.newLeaf spot.balanced blank' (spot.fresh fresh) fuel with
    ⟨leans, tree, grows⟩ | ⟨level, t', tree, runs, sameData, grows⟩
  · have isBalance : t.balance x = -1 := leans
    rw [labels] at grows
    rw [shape] at holds fresh ⊢
    have inserted := holds.insertedLeader fresh below upper (enters.trans sameData_attach) ⟨tree, grows⟩
    rw [avlInsertAt, linking]
    simpa [ne_of_gt diff, isBalance] using inserted
  · have isBalance : t.balance x = 0 := level
    have runs' : postInsert n (avlAttach .right linked x new 1) x = some t' := runs
    rw [labels] at grows
    rw [shape] at holds fresh ⊢
    have inserted := holds.insertedLeader fresh below upper (enters.trans (sameData_attach.trans sameData))
      ⟨tree, grows⟩
    rw [avlInsertAt, linking]
    simpa [ne_of_gt diff, not_lt_of_gt diff, isBalance, runs'] using inserted

end

omit [DecidableEq ρ] in
theorem Holds.root_none (holds : Holds rank t groups) (isRoot : t.root = none) : groups = [] := by
  obtain ⟨tree, stands, _, labels⟩ := holds.tree
  have isNil : tree = .nil := HeightTree.root_eq_none_iff.mp (stands.rest.symm.trans isRoot)
  rw [isNil] at labels
  exact List.map_eq_nil_iff.mp labels.symm

/-- The first node. -/
theorem Holds.insertFirst (holds : Holds rank t []) : Inserted rank t [] new (avlInsert comp n t new) := by
  have blank : Holds rank (avlBlank t new) ([] ++ []) := holds.blank List.not_mem_nil
  have isBlank : Blank (avlBlank t new) new := blank_avlBlank
  obtain ⟨tree, stands, _, labels⟩ := blank.tree
  have isRoot : (avlBlank t new).root = none := by
    cases tree with
    | nil => exact stands.rest
    | node l x b r => simp [HTree.labels] at labels
  have isNext : (avlBlank t new).list.next .head = some .head := blank.ring.head_next
  have count : (avlBlank t new).count = 0 := blank.count
  set t' : AvlTree κ ρ := { avlBlank t new with
    list := LinkRing.link .head .head (.cell new) t.list, root := some new, count := 1 }
  have enters : Enters (avlBlank t new) t' (lastOf (flat ([] : List (ρ × List ρ))))
      (firstOf (flat ([] : List (ρ × List ρ)))) new := by
    refine ⟨rfl, ?_, rfl, rfl, rfl⟩
    rw [count]
    rfl
  have runs : avlInsert comp n t new = some (0, t') := by
    rw [avlInsert]
    simp only [isRoot, listAddHead, isNext]
    rfl
  rw [runs]
  refine blank.insertedLeader List.not_mem_nil (fun a member => absurd member List.not_mem_nil)
    (fun a member => absurd member List.not_mem_nil) enters ⟨leaf new, ⟨?_, ?_, rfl⟩, ?_, rfl⟩
  · simp [leaf, HTree.labels, HeightTree.beside]
  · exact ⟨⟨Function.update_self .., isBlank.balance, isBlank.leads, isBlank.child .left,
      isBlank.child .right⟩, trivial, trivial⟩
  · exact ⟨rfl, by decide, by decide, trivial, trivial⟩

/-- `avl_insert` does to the list what insertion does to the abstract contents. -/
theorem Holds.insert (compares : Compares comp rank) (holds : Holds rank t groups)
    (fresh : new ∉ flat groups) (fuel : (flat groups).length < n) :
    Inserted rank t groups new (avlInsert comp n t new) := by
  cases isRoot : t.root with
  | none =>
      obtain rfl := holds.root_none isRoot
      exact holds.insertFirst
  | some root =>
      have held := holds.blank fresh
      obtain ⟨gs, x, fs, hs, path, l, b, r, rfl, found, spot⟩ :=
        held.findSpot compares (n := n) isRoot (t.key new) fun tree _ labels =>
          (height_le_flat labels).trans (Nat.le_of_lt fuel)
      have short : path.length < n := by
        have deep := @HeightTree.length_add_height_le ρ path (.node l x b r)
        have labels : (plug path (HTree.node l x b r)).labels = (gs ++ (x, fs) :: hs).map Prod.fst :=
          spot.labels
        have low := height_le_flat labels
        omega
      have few : fs.length < n := by
        rw [flat_append, flat_cons, List.length_append, List.length_cons, List.length_append] at fuel
        omega
      have isLast : avlLast (avlBlank t new) n x = some ((x :: fs).getLast (List.cons_ne_nil x fs)) := by
        have rings := held.ring
        rw [flat_append, flat_cons] at rings
        apply avlLast_eq rings _ _ few
        · exact fun a member =>
            (held.follow (x, fs) (List.mem_append_right _ (List.mem_cons_self ..)) a member).1
        · intro a isHead
          cases hs with
          | nil => cases isHead
          | cons h hs =>
              cases isHead
              exact held.leads (g := h) (by simp)
      have place : Inserted rank (avlBlank t new) (gs ++ (x, fs) :: hs) new (avlInsertAt comp n (avlBlank t new)
          x ((x :: fs).getLast (List.cons_ne_nil x fs)) new) := by
        rcases lt_trichotomy (rank (t.key new)) (rank (t.key x)) with less | level | greater
        · exact held.insertLess compares blank_avlBlank fresh spot less _ short
        · exact held.insertSame compares fresh spot level
        · exact held.insertGreater compares blank_avlBlank fresh spot greater short
      have runs : avlInsert comp n t new = avlInsertAt comp n (avlBlank t new) x
          ((x :: fs).getLast (List.cons_ne_nil x fs)) new := by
        have isRoot' : (avlBlank t new).root = some root := isRoot
        have found' : avlFindRec comp (avlBlank t new) ((avlBlank t new).key new) n root =
            some (x, comp (t.key new) (t.key x)) := found
        simp only [avlInsert, isRoot', found', isLast, Option.bind_eq_bind, Option.bind_some]
      rw [runs]
      exact place

/-! ### Removal -/

/-- A result of `avl_remove` is that of the abstract contents. -/
def Removed (rank : κ → ℓ) (t : AvlTree κ ρ) (groups : List (ρ × List ρ)) (old : ρ)
    (result : Option (AvlTree κ ρ)) : Prop :=
  ∃ t' groups', result = some t' ∧ Holds rank t' groups' ∧ t'.key = t.key ∧ t'.allowDups = t.allowDups ∧
    dropEntry old (entriesOf t groups) = entriesOf t' groups'

/-- The end of `avl_remove`, once the node is out of the tree. -/
theorem Holds.unlinked {old : ρ} {groups' : List (ρ × List ρ)} {as bs : List ρ} (holds : Holds rank t groups)
    (split : flat groups = as ++ old :: bs) (split' : flat groups' = as ++ bs)
    (same : t'.list = t.list ∧ t'.key = t.key ∧ t'.count = t.count ∧ t'.allowDups = t.allowDups)
    (tree : ∃ tree, StandsAt t' [] tree ∧ HeightTree.Balanced tree ∧ tree.labels = groups'.map Prod.fst)
    (ordered : groups'.Pairwise fun g h => rank (t.key g.1) < rank (t.key h.1))
    (follow : ∀ g ∈ groups', ∀ r ∈ g.2, t'.leader r = false ∧ rank (t.key r) = rank (t.key g.1))
    (single : t.allowDups = false → ∀ g ∈ groups', g.2 = []) :
    Removed rank t groups old (avlUnlink t' old) := by
  obtain ⟨list, key, count, dups⟩ := same
  have ring := holds.ring
  rw [split] at ring
  have removes : listRemove t'.list old =
      some (LinkRing.unlink (lastOf as) (firstOf bs) (.cell old) t.list) := by
    rw [listRemove, list, ring.prev_eq, ring.next_eq]
    rfl
  rw [avlUnlink, removes]
  refine ⟨_, groups', rfl, ⟨?_, ?_, ?_, ?_, ?_, ?_⟩, key, dups, ?_⟩
  · obtain ⟨tree, stands, rest⟩ := tree
    exact ⟨tree, stands.congr rfl fun _ _ => ⟨rfl, fun _ => rfl, rfl, rfl⟩, rest⟩
  · rw [split']
    exact ring.unlink
  · show groups'.Pairwise fun g h => rank (t'.key g.1) < rank (t'.key h.1)
    rw [key]
    exact ordered
  · show ∀ g ∈ groups', ∀ r ∈ g.2, t'.leader r = false ∧ rank (t'.key r) = rank (t'.key g.1)
    rw [key]
    exact follow
  · show t'.allowDups = false → _
    rw [dups]
    exact single
  · have length : (flat groups).length = (flat groups').length + 1 := by
      rw [split, split']
      simp
      omega
    show t'.count - 1 = _
    rw [count, holds.count, length, UInt32.ofNat_add]
    exact UInt32.add_sub_cancel ..
  · have apart := (List.nodup_cons.mp (List.nodup_middle.mp ring.nodup)).1
    have kept : ∀ xs : List ρ, old ∉ xs → dropEntry old (xs.map fun r => (r, t.key r)) =
        xs.map fun r => (r, t.key r) := by
      intro xs outside
      refine List.filter_eq_self.mpr fun e member => ?_
      obtain ⟨r, inside, rfl⟩ := List.mem_map.mp member
      exact decide_eq_true fun isOld => outside (isOld ▸ inside)
    have shown : entriesOf { t' with
        list := LinkRing.unlink (lastOf as) (firstOf bs) (.cell old) t.list, count := t'.count - 1 } groups' =
          (as ++ bs).map fun r => (r, t.key r) := by
      rw [entriesOf, split']
      show ((as ++ bs).map fun r => (r, t'.key r)) = _
      rw [key]
    have dropped : dropEntry old ((as ++ old :: bs).map fun r => (r, t.key r)) =
        dropEntry old ((as ++ bs).map fun r => (r, t.key r)) := by
      simp [dropEntry]
    rw [shown, entriesOf, split, dropped, kept (as ++ bs) apart]

/-- A follower is only unlinked. -/
theorem Holds.removeFollower {old : ρ} {fs' : List ρ}
    (holds : Holds rank t (gs ++ (x, fs ++ old :: fs') :: hs)) :
    Removed rank t (gs ++ (x, fs ++ old :: fs') :: hs) old (avlRemove n t old) := by
  have inside : (x, fs ++ old :: fs') ∈ gs ++ (x, fs ++ old :: fs') :: hs :=
    List.mem_append_right _ (List.mem_cons_self ..)
  have follows : t.leader old = false := (holds.follow _ inside old (by simp)).1
  have runs : avlRemove n t old = avlUnlink t old := by
    simp [avlRemove, avlDetach, follows]
  have others : ∀ g ∈ gs ++ (x, fs ++ fs') :: hs,
      ∃ g' ∈ gs ++ (x, fs ++ old :: fs') :: hs, g'.1 = g.1 ∧ g.2 ⊆ g'.2 := by
    intro g member
    rcases List.mem_append.mp member with inG | inH
    · exact ⟨g, List.mem_append_left _ inG, rfl, List.Subset.refl _⟩
    · rcases List.mem_cons.mp inH with rfl | inH
      · refine ⟨_, inside, rfl, ?_⟩
        exact List.append_subset.mpr ⟨List.subset_append_left _ _,
          fun r isLater => List.mem_append_right _ (List.mem_cons_of_mem _ isLater)⟩
      · exact ⟨g, List.mem_append_right _ (List.mem_cons_of_mem _ inH), rfl, List.Subset.refl _⟩
  rw [runs]
  have shorter : flat (gs ++ (x, fs ++ fs') :: hs) = (flat gs ++ x :: fs) ++ (fs' ++ flat hs) := by simp
  have leaders : (gs ++ (x, fs ++ fs') :: hs).map Prod.fst =
      (gs ++ (x, fs ++ old :: fs') :: hs).map Prod.fst := by simp
  apply holds.unlinked (by simp) shorter ⟨rfl, rfl, rfl, rfl⟩
  · rw [leaders]
    exact holds.tree
  · exact ordered_congr (by simp) holds.ordered
  · intro g member r follower
    obtain ⟨g', member', same, subset⟩ := others g member
    rw [← same]
    exact holds.follow g' member' r (subset follower)
  · intro refused g member
    obtain ⟨g', member', _, subset⟩ := others g member
    rw [holds.single refused g' member'] at subset
    exact List.subset_nil.mp subset

/-- The next node with its key takes the place of a leader. -/
theorem Holds.removeFollowed {f : ρ} (holds : Holds rank t (gs ++ (x, f :: fs) :: hs)) :
    Removed rank t (gs ++ (x, f :: fs) :: hs) x (avlRemove n t x) := by
  have inside : (x, f :: fs) ∈ gs ++ (x, f :: fs) :: hs := List.mem_append_right _ (List.mem_cons_self ..)
  obtain ⟨follows, level⟩ := holds.follow _ inside f (List.mem_cons_self ..)
  have dups : t.allowDups = true := by
    by_contra refused
    cases holds.single (Bool.eq_false_iff.mpr refused) _ inside
  have ring := holds.ring
  rw [flat_append, flat_cons, List.cons_append] at ring
  have isNext : avlFollower t x = some (some f) := by
    rw [avlFollower, listIsLast_eq ring, ring.next_eq]
    simp [dups, firstOf, nodeOf, follows]
  have runs : avlRemove n t x = avlUnlink
      (avlTakePlace { t with leader := Function.update t.leader f true } x f) x := by
    rw [avlRemove, avlDetach, if_pos (holds.leads inside), isNext]
    rfl
  obtain ⟨tree, stands, balanced, labels⟩ := holds.tree
  have split : tree.labels = gs.map Prod.fst ++ x :: hs.map Prod.fst := by
    rw [labels, List.map_append, List.map_cons]
  obtain ⟨path, l, b, r, rfl, isBefore, isAfter⟩ := HeightTree.exists_place_at split stands.nodup_labels
  -- The labels of the tree lead, and the follower does not.
  have other : ∀ z ∈ (HTree.node l x b r).labels ++ HeightTree.beside path, z ≠ f := by
    rintro z member rfl
    have leads := stands.tree.leads (HeightTree.labels_plug_perm.mem_iff.mpr member)
    exact absurd (leads.symm.trans follows) (by decide)
  have place : StandsAt { t with leader := Function.update t.leader f true } path (.node l x b r) :=
    (standsAt_plug.mpr stands).congr rfl fun z member =>
      ⟨rfl, fun _ => rfl, rfl, Function.update_of_ne (other z member) ..⟩
  have taken := place.takePlace (Function.update_self ..) fun member => other f member rfl
  have data : SameData { t with leader := Function.update t.leader f true }
      (avlTakePlace { t with leader := Function.update t.leader f true } x f) := sameData_takePlace
  have nodup := ring.nodup
  rw [runs]
  have split' : flat (gs ++ (f, fs) :: hs) = flat gs ++ f :: (fs ++ flat hs) := by simp
  apply holds.unlinked (by simp) split' ⟨data.list, data.key, data.count, data.allowDups⟩
  · refine ⟨_, standsAt_plug.mp taken, ?_, ?_⟩
    · obtain ⟨atNode, onPath⟩ := HeightTree.balanced_plug.mp balanced
      exact HeightTree.balanced_plug.mpr ⟨atNode, onPath⟩
    · rw [labels_plug, HTree.labels, List.map_append, List.map_cons, ← isBefore, ← isAfter]
      simp
  · exact ordered_congr (by simp [level]) holds.ordered
  · rw [data.leader]
    have unchanged : ∀ g ∈ gs ++ (x, f :: fs) :: hs, ∀ r ∈ g.2, r ≠ f →
        Function.update t.leader f true r = false ∧ rank (t.key r) = rank (t.key g.1) := by
      intro g member r follower apart
      rw [Function.update_of_ne apart]
      exact holds.follow g member r follower
    have inG : ∀ g ∈ gs, ∀ r ∈ g.2, r ∈ flat gs := fun g member r follower =>
      List.mem_flatMap.mpr ⟨g, member, List.mem_cons_of_mem _ follower⟩
    have inH : ∀ g ∈ hs, ∀ r ∈ g.2, r ∈ flat hs := fun g member r follower =>
      List.mem_flatMap.mpr ⟨g, member, List.mem_cons_of_mem _ follower⟩
    simp only [List.nodup_append, List.nodup_cons, List.mem_cons, List.mem_append, not_or] at nodup
    obtain ⟨_, ⟨_, ⟨notFs, notHs⟩, _⟩, across⟩ := nodup
    intro g member r follower
    rcases List.mem_append.mp member with before | rest
    · refine unchanged g (List.mem_append_left _ before) r follower fun same => ?_
      exact across r (inG g before r follower) f (.inr (.inl rfl)) same
    · rcases List.mem_cons.mp rest with rfl | behind
      · have kept := unchanged _ inside r (List.mem_cons_of_mem _ follower) fun same => notFs (same ▸ follower)
        exact ⟨kept.1, kept.2.trans level.symm⟩
      · refine unchanged g (List.mem_append_right _ (List.mem_cons_of_mem _ behind)) r follower fun same => ?_
        exact notHs (same ▸ inH g behind r follower)
  · intro refused
    exact absurd (dups.symm.trans refused) (by decide)

/-- A leader without followers leaves the tree. -/
theorem Holds.removeLeader (holds : Holds rank t (gs ++ (x, []) :: hs))
    (fuel : (flat (gs ++ (x, []) :: hs)).length + 1 < n) :
    Removed rank t (gs ++ (x, []) :: hs) x (avlRemove n t x) := by
  have inside : (x, []) ∈ gs ++ (x, []) :: hs := List.mem_append_right _ (List.mem_cons_self ..)
  have ring := holds.ring
  rw [flat_append, flat_cons, List.nil_append] at ring
  have alone : avlFollower t x = some none := by
    rw [avlFollower, listIsLast_eq ring, ring.next_eq]
    cases hs with
    | nil => simp
    | cons h hs =>
        have leads : t.leader h.1 = true := holds.leads (by simp)
        have isNext : firstOf (flat (h :: hs)) = .cell h.1 := rfl
        simp [isNext, nodeOf, leads]
  obtain ⟨n, rfl⟩ := Nat.exists_eq_succ_of_ne_zero (Nat.ne_of_gt (Nat.zero_lt_of_lt fuel))
  obtain ⟨tree, stands, balanced, labels⟩ := holds.tree
  have split : tree.labels = gs.map Prod.fst ++ x :: hs.map Prod.fst := by
    rw [labels, List.map_append, List.map_cons]
  have low := height_le_flat labels
  obtain ⟨t₁, tree₁, runs, data, stands₁, balanced₁, labels₁⟩ :=
    stands.removeWorker (x := x) (n := n) balanced (by simp [split]) (by omega)
  have removes : avlRemove (n + 1) t x = avlUnlink t₁ x := by
    rw [avlRemove, avlDetach, if_pos (holds.leads inside), alone]
    simp only [Option.bind_eq_bind, Option.bind_some, runs]
  rw [removes]
  have split' : flat (gs ++ hs) = flat gs ++ flat hs := flat_append
  apply holds.unlinked (by simp) split' ⟨data.list, data.key, data.count, data.allowDups⟩
  · refine ⟨tree₁, stands₁, balanced₁, ?_⟩
    have nodup := stands.nodup_labels
    rw [split] at nodup
    have apart := (List.nodup_cons.mp (List.nodup_middle.mp nodup)).1
    rw [labels₁, split, List.erase_append_right _ fun member => apart (List.mem_append_left _ member),
      List.erase_cons_head, List.map_append]
  · obtain ⟨orderedG, orderedH, across⟩ := List.pairwise_append.mp holds.ordered
    exact List.pairwise_append.mpr ⟨orderedG, orderedH.of_cons,
      fun g inG h inH => across g inG h (List.mem_cons_of_mem _ inH)⟩
  · rw [data.leader]
    intro g member
    rcases List.mem_append.mp member with inG | inH
    · exact holds.follow g (List.mem_append_left _ inG)
    · exact holds.follow g (List.mem_append_right _ (List.mem_cons_of_mem _ inH))
  · intro refused g member
    rcases List.mem_append.mp member with inG | inH
    · exact holds.single refused g (List.mem_append_left _ inG)
    · exact holds.single refused g (List.mem_append_right _ (List.mem_cons_of_mem _ inH))

/-- `avl_remove` does to the list what removal does to the abstract contents. -/
theorem Holds.remove {old : ρ} (holds : Holds rank t groups) (member : old ∈ flat groups)
    (fuel : (flat groups).length + 1 < n) : Removed rank t groups old (avlRemove n t old) := by
  obtain ⟨g, isGroup, inside⟩ := List.mem_flatMap.mp member
  obtain ⟨x, followers⟩ := g
  obtain ⟨gs, hs, rfl⟩ := List.append_of_mem isGroup
  rcases List.mem_cons.mp inside with rfl | follower
  · cases followers with
    | nil => exact holds.removeLeader fuel
    | cons f fs => exact holds.removeFollowed
  · obtain ⟨fs, fs', rfl⟩ := List.append_of_mem follower
    exact holds.removeFollower

end

end Bprd
