/-
Module: Bprd.Proofs.AvlRuns
Layer: Proofs
Purpose: Whole runs on a tree of avl.c. From `avl_init` on, any sequence of legal insertions and removals
  answers and leaves what the abstract contents do: the iterations run through them forth and back, and the
  count is their number.
Imports: Bprd.Proofs.AvlContents
Trusted boundary: none
Main exports: Holds.forEach, Holds.forEachReverse, avlCalls_init, avl_run_refines,
  avl_remove_all_frees
-/
import Bprd.Proofs.AvlContents

namespace Bprd

open ListEntity
open LinkRing (Rings lastOf firstOf)

variable {κ ρ ℓ : Type} [DecidableEq ρ] [LinearOrder ℓ]

section

variable {rank : κ → ℓ} {comp : κ → κ → Int} {t : AvlTree κ ρ} {groups : List (ρ × List ρ)}
  {xs : List (Entry κ ρ)} {n : Nat}

/-! ### Iteration -/

theorem listFrom_right {list : LinkRing.Links ρ} {as bs : List ρ} (rings : Rings list (as ++ bs))
    (fuel : bs.length ≤ n) : listFrom .right list n (some (firstOf bs)) = some bs := by
  induction bs generalizing as n with
  | nil => cases n <;> exact if_pos rfl
  | cons b bs ih =>
      obtain ⟨n, rfl⟩ := Nat.exists_eq_succ_of_ne_zero (Nat.ne_of_gt (Nat.zero_lt_of_lt fuel))
      have isNext : listLink list .right (.cell b) = some (firstOf bs) := rings.next_eq
      have rings' : Rings list ((as ++ [b]) ++ bs) := by
        simpa using rings
      have rest := ih rings' (Nat.le_of_succ_le_succ fuel)
      have goesOn : ¬listLink list .left (.cell b) = listLink list .left .head := rings.prev_ne
      refine (if_neg goesOn).trans ?_
      show (listFrom .right list n (listLink list .right (.cell b))).map (b :: ·) = some (b :: bs)
      rw [isNext, rest]
      rfl

theorem listFrom_left {list : LinkRing.Links ρ} {as bs : List ρ} (rings : Rings list (as.reverse ++ bs))
    (fuel : as.length ≤ n) : listFrom .left list n (some (lastOf as.reverse)) = some as := by
  induction as generalizing bs n with
  | nil => cases n <;> exact if_pos rfl
  | cons a as ih =>
      obtain ⟨n, rfl⟩ := Nat.exists_eq_succ_of_ne_zero (Nat.ne_of_gt (Nat.zero_lt_of_lt fuel))
      have rings' : Rings list (as.reverse ++ a :: bs) := by
        simpa using rings
      have isPrev : listLink list .left (.cell a) = some (lastOf as.reverse) := rings'.prev_eq
      have isLast : lastOf (a :: as).reverse = .cell a := by
        simp [lastOf]
      have rest := ih rings' (Nat.le_of_succ_le_succ fuel)
      have goesOn : ¬listLink list .right (.cell a) = listLink list .right .head := rings'.next_ne
      rw [isLast]
      refine (if_neg goesOn).trans ?_
      show (listFrom .left list n (listLink list .left (.cell a))).map (a :: ·) = some (a :: as)
      rw [isPrev, rest]
      rfl

theorem Holds.forEach (holds : Holds rank t groups) (fuel : (flat groups).length ≤ n) :
    avlForEach n t = some (flat groups) := by
  have rings : Rings t.list ([] ++ flat groups) := holds.ring
  rw [avlForEach, holds.ring.head_next]
  exact listFrom_right rings fuel

theorem Holds.forEachReverse (holds : Holds rank t groups) (fuel : (flat groups).length ≤ n) :
    avlForEachReverse n t = some (flat groups).reverse := by
  have rings : Rings t.list ((flat groups).reverse.reverse ++ []) := by
    simpa using holds.ring
  have run := listFrom_left (n := n) rings (by simpa using fuel)
  rw [List.reverse_reverse] at run
  rw [avlForEachReverse, holds.ring.head_prev]
  exact run

/-! ### Removal of all elements -/

/-- The loop frees every node once, and reads no links of a freed one. -/
theorem removeAllLoop_eq {xs : List ρ} (nodup : xs.Nodup) {list : LinkRing.Links ρ} {ptr : LinkRing.Entity ρ}
    (empty : list.next .head = some .head)
    (linked : ∀ as y bs, xs = as ++ y :: bs → list.next (.cell y) = some (firstOf bs))
    (isNext : list.next (firstOf xs) = some ptr) :
    ∃ list', removeAllLoop xs.length list (firstOf xs) ptr = some (xs, list') ∧
      list'.next .head = some .head ∧ list'.prev .head = list.prev .head := by
  induction xs generalizing list ptr with
  | nil => exact ⟨list, rfl, empty, rfl⟩
  | cons x xs ih =>
      obtain ⟨notMem, nodup⟩ := List.nodup_cons.mp nodup
      have isPtr : some ptr = some (firstOf xs) := isNext.symm.trans (linked [] x xs rfl)
      cases isPtr
      set freed : LinkRing.Links ρ :=
        { next := Function.update list.next (.cell x) none, prev := Function.update list.prev (.cell x) none }
        with isFreed
      have kept : ∀ e, e ≠ .cell x → freed.next e = list.next e := fun e other =>
        Function.update_of_ne other ..
      have linked' : ∀ as y bs, xs = as ++ y :: bs → freed.next (.cell y) = some (firstOf bs) := by
        intro as y bs split
        rw [kept (.cell y), linked (x :: as) y bs (by rw [split, List.cons_append])]
        rintro ⟨⟩
        exact notMem (by simp [split])
      have after : ∃ after, freed.next (firstOf xs) = some after := by
        cases xs with
        | nil => exact ⟨.head, (kept .head (by simp)).trans empty⟩
        | cons y xs => exact ⟨firstOf xs, linked' [] y xs rfl⟩
      obtain ⟨after, isAfter⟩ := after
      obtain ⟨list', runs, empty', isPrev⟩ := ih nodup ((kept .head (by simp)).trans empty) linked' isAfter
      have headKept : freed.prev .head = list.prev .head := by simp [isFreed]
      have isAfter' : Function.update list.next (.cell x) none (firstOf xs) = some after := isAfter
      refine ⟨list', ?_, empty', isPrev.trans headKept⟩
      show removeAllLoop (xs.length + 1) list (.cell x) (firstOf xs) = _
      rw [removeAllLoop]
      simp only [← isFreed, isAfter', runs, Option.bind_eq_bind, Option.bind_some]

/-- `avl_remove_all_elements` frees the nodes in their order and leaves an empty tree. -/
theorem Holds.removeAll (holds : Holds rank t groups) (few : (flat groups).length < 2 ^ 32) :
    ∃ t', avlRemoveAll t = some (flat groups, t') ∧ Holds rank t' [] ∧ t'.allowDups = t.allowDups := by
  have ring := holds.ring
  have same : ∀ r, (listInitHead t.list).next (.cell r) = t.list.next (.cell r) := by
    simp [listInitHead]
  have linked : ∀ as y bs, flat groups = as ++ y :: bs → t.list.next (.cell y) = some (firstOf bs) := by
    intro as y bs split
    rw [split] at ring
    exact ring.next_eq
  obtain ⟨ptr, isPtr, isNext⟩ : ∃ ptr, t.list.next (firstOf (flat groups)) = some ptr ∧
      (listInitHead t.list).next (firstOf (flat groups)) = some ptr := by
    cases split : flat groups with
    | nil =>
        refine ⟨.head, ?_, by simp [firstOf, listInitHead]⟩
        rw [split] at ring
        exact ring.head_next
    | cons x xs => exact ⟨firstOf xs, linked [] x xs split, (same x).trans (linked [] x xs split)⟩
  obtain ⟨list', runs, empty, isPrev⟩ := removeAllLoop_eq ring.nodup (by simp [listInitHead])
    (fun as y bs split => (same y).trans (linked as y bs split)) isNext
  have count : t.count.toNat = (flat groups).length := by
    rw [holds.count, UInt32.toNat_ofNat']
    exact Nat.mod_eq_of_lt few
  refine ⟨{ t with list := list', root := none, count := 0 }, ?_, ?_, rfl⟩
  · rw [avlRemoveAll, ring.head_next]
    simp only [isPtr, count, runs, Option.bind_eq_bind, Option.bind_some]
  · refine ⟨⟨.nil, ⟨List.nodup_nil, trivial, rfl⟩, trivial, rfl⟩, ?_, List.Pairwise.nil,
      fun _ member => absurd member List.not_mem_nil, fun _ _ member => absurd member List.not_mem_nil, rfl⟩
    refine LinkRing.rings_nil empty (isPrev.trans ?_)
    simp [listInitHead]

/-! ### Runs -/

theorem holds_init {memory : AvlTree κ ρ} {dups : Bool} : Holds rank (avlInit memory dups) [] where
  tree := ⟨.nil, ⟨List.nodup_nil, trivial, rfl⟩, trivial, rfl⟩
  ring := by
    apply LinkRing.rings_nil
    · simp [avlInit, listInitHead]
    · simp [avlInit, listInitHead]
  ordered := List.Pairwise.nil
  follow := fun _ member => absurd member List.not_mem_nil
  single := fun _ _ member => absurd member List.not_mem_nil
  count := rfl

/-- The key of a node outside is free. -/
theorem Holds.setKey (holds : Holds rank t groups) {r : ρ} (fresh : r ∉ flat groups) (key : κ) :
    Holds rank { t with key := Function.update t.key r key } groups := by
  have kept : ∀ a ∈ flat groups, Function.update t.key r key a = t.key a := fun a member =>
    Function.update_of_ne (fun same : a = r => fresh (same ▸ member)) ..
  refine ⟨?_, holds.ring, ?_, ?_, holds.single, holds.count⟩
  · obtain ⟨tree, stands, rest⟩ := holds.tree
    exact ⟨tree, stands.congr rfl fun _ _ => ⟨rfl, fun _ => rfl, rfl, rfl⟩, rest⟩
  · refine holds.ordered.imp_of_mem fun {g h} inG inH less => ?_
    show rank (Function.update t.key r key g.1) < rank (Function.update t.key r key h.1)
    rw [kept g.1 (leader_mem inG), kept h.1 (leader_mem inH)]
    exact less
  · intro g member a follower
    show t.leader a = false ∧ rank (Function.update t.key r key a) = rank (Function.update t.key r key g.1)
    rw [kept g.1 (leader_mem member), kept a (List.mem_flatMap.mpr ⟨g, member, List.mem_cons_of_mem _ follower⟩)]
    exact holds.follow g member a follower

theorem entriesOf_setKey {r : ρ} (fresh : r ∉ flat groups) (key : κ) :
    entriesOf { t with key := Function.update t.key r key } groups = entriesOf t groups := by
  refine List.map_congr_left fun a member => ?_
  exact congrArg (Prod.mk a) (Function.update_of_ne (fun same : a = r => fresh (same ▸ member)) ..)

omit [DecidableEq ρ] in
theorem map_fst_entriesOf : (entriesOf t groups).map Prod.fst = flat groups := by
  rw [entriesOf, List.map_map]
  exact List.map_id _

/-- One call keeps the groups, and does to the entries what it does to the abstract contents. -/
theorem Holds.call (compares : Compares comp rank) (holds : Holds rank t groups) (call : AvlCall κ ρ)
    (legal : LegalCall (entriesOf t groups) call) (fuel : (flat groups).length + 1 < n) :
    ∃ code t' groups', avlCall comp n t call = some (code, t') ∧ Holds rank t' groups' ∧
      t'.allowDups = t.allowDups ∧
      contentsStep rank t.allowDups (entriesOf t groups) call = (code, entriesOf t' groups') := by
  cases call with
  | insert r key =>
      rw [LegalCall, map_fst_entriesOf] at legal
      obtain ⟨code, t', groups', runs, held, _, dups, contents⟩ :=
        (holds.setKey legal key).insert compares legal (Nat.lt_of_succ_lt fuel)
      refine ⟨code, t', groups', runs, held, dups, ?_⟩
      rw [entriesOf_setKey legal] at contents
      have isKey : Function.update t.key r key r = key := Function.update_self ..
      rw [contentsStep, ← contents]
      show putEntry rank t.allowDups (r, key) _ = putEntry rank t.allowDups (r, Function.update t.key r key r) _
      rw [isKey]
  | remove r =>
      rw [LegalCall, map_fst_entriesOf] at legal
      obtain ⟨t', groups', runs, held, _, dups, contents⟩ := holds.remove legal fuel
      refine ⟨0, t', groups', ?_, held, dups, ?_⟩
      · rw [avlCall, runs]
        rfl
      · rw [contentsStep, contents]

theorem contentsStep_length {dups : Bool} {call : AvlCall κ ρ} :
    (contentsStep rank dups xs call).2.length ≤ xs.length + 1 := by
  cases call with
  | insert r key =>
      rw [contentsStep, putEntry]
      split
      · exact Nat.le_succ _
      · rw [List.orderedInsert_length]
  | remove r => exact (List.length_filter_le ..).trans (Nat.le_succ _)

/-- Calls keep the groups, and do to the entries what they do to the abstract contents. -/
theorem Holds.calls (compares : Compares comp rank) (holds : Holds rank t groups) (calls : List (AvlCall κ ρ))
    (legal : Legal rank t.allowDups (entriesOf t groups) calls)
    (fuel : (flat groups).length + calls.length + 1 < n) :
    ∃ codes t' groups', avlCalls comp n t calls = some (codes, t') ∧ Holds rank t' groups' ∧
      t'.allowDups = t.allowDups ∧ (flat groups').length ≤ (flat groups).length + calls.length ∧
      contentsRun rank t.allowDups (entriesOf t groups) calls = (codes, entriesOf t' groups') := by
  induction calls generalizing t groups with
  | nil => exact ⟨[], t, groups, rfl, holds, rfl, Nat.le_refl _, rfl⟩
  | cons call calls ih =>
      obtain ⟨here, later⟩ := legal
      rw [List.length_cons] at fuel
      obtain ⟨code, t₁, groups₁, runs₁, held₁, dups, step⟩ := holds.call compares call here
        (n := n) (by omega)
      have grown := @contentsStep_length κ ρ ℓ _ _ rank (entriesOf t groups) t.allowDups call
      rw [step] at later grown
      rw [← dups] at later
      have size : (flat groups₁).length ≤ (flat groups).length + 1 := by
        simpa [entriesOf] using grown
      obtain ⟨codes, t', groups', runs, held, dups', few, contents⟩ := ih held₁ later (by omega)
      refine ⟨code :: codes, t', groups', ?_, held, dups'.trans dups, ?_, ?_⟩
      · simp only [avlCalls, runs₁, runs, Option.bind_eq_bind, Option.bind_some]
      · rw [List.length_cons]
        omega
      · rw [contentsRun, step]
        simp only [← dups, contents]

/-- Every run from `avl_init` on is one of the abstract contents. -/
theorem avlCalls_init (compares : Compares comp rank) {memory : AvlTree κ ρ} {dups : Bool}
    {calls : List (AvlCall κ ρ)} (legal : Legal rank dups [] calls) (fuel : calls.length + 1 < n) :
    ∃ codes t groups, avlCalls comp n (avlInit memory dups) calls = some (codes, t) ∧ Holds rank t groups ∧
      t.allowDups = dups ∧ (flat groups).length ≤ calls.length ∧
      contentsRun rank dups [] calls = (codes, entriesOf t groups) := by
  have init : Holds rank (avlInit memory dups) [] := holds_init
  obtain ⟨codes, t, groups, runs, held, isDups, few, contents⟩ := init.calls compares calls legal
    (n := n) (by simpa using fuel)
  exact ⟨codes, t, groups, runs, held, isDups, by simpa using few, contents⟩

omit [DecidableEq ρ] in
/-- The entries are in the order of their keys. -/
theorem Holds.sorted (holds : Holds rank t groups) :
    ((entriesOf t groups).Pairwise fun a b => rank a.2 ≤ rank b.2) ∧
      (t.allowDups = false → (entriesOf t groups).Pairwise fun a b => rank a.2 < rank b.2) := by
  have level : ∀ g ∈ groups, ∀ a ∈ g.1 :: g.2, rank (t.key a) = rank (t.key g.1) := by
    intro g isGroup a member
    rcases List.mem_cons.mp member with rfl | follower
    · rfl
    · exact (holds.follow g isGroup a follower).2
  have across : groups.Pairwise fun g h => ∀ a ∈ g.1 :: g.2, ∀ b ∈ h.1 :: h.2,
      rank (t.key a) < rank (t.key b) := by
    refine holds.ordered.imp_of_mem fun {g h} inG inH less a inA b inB => ?_
    rw [level g inG a inA, level h inH b inB]
    exact less
  constructor
  · rw [entriesOf, List.pairwise_map, flat, List.pairwise_flatMap]
    refine ⟨fun g isGroup => ?_, across.imp fun less a inA b inB => le_of_lt (less a inA b inB)⟩
    refine List.Pairwise.imp_of_mem (fun {a b} inA inB _ => ?_) (List.pairwise_of_forall fun _ _ => trivial)
    exact le_of_eq ((level g isGroup a inA).trans (level g isGroup b inB).symm)
  · intro refused
    rw [entriesOf, List.pairwise_map, flat, List.pairwise_flatMap]
    refine ⟨fun g isGroup => ?_, across⟩
    rw [holds.single refused g isGroup]
    exact List.pairwise_singleton ..

end

/-- Any run of legal calls on a tree from `avl_init` on gives the result codes of the abstract contents, and
    leaves a tree that is iterated in their order forth and back and that counts them. -/
theorem avl_run_refines {rank : κ → ℓ} {comp : κ → κ → Int} (compares : Compares comp rank)
    (memory : AvlTree κ ρ) (dups : Bool) (calls : List (AvlCall κ ρ)) (legal : Legal rank dups [] calls)
    {n : Nat} (fuel : calls.length + 1 < n) :
    ∃ t codes xs, contentsRun rank dups [] calls = (codes, xs) ∧
      avlCalls comp n (avlInit memory dups) calls = some (codes, t) ∧
      avlForEach n t = some (xs.map Prod.fst) ∧ avlForEachReverse n t = some (xs.map Prod.fst).reverse ∧
      (∀ e ∈ xs, t.key e.1 = e.2) ∧ t.count = UInt32.ofNat xs.length ∧
      (xs.Pairwise fun a b => rank a.2 ≤ rank b.2) ∧
      (dups = false → xs.Pairwise fun a b => rank a.2 < rank b.2) := by
  obtain ⟨codes, t, groups, runs, held, isDups, few, contents⟩ :=
    @avlCalls_init κ ρ ℓ _ _ rank comp n compares memory dups calls legal fuel
  have enough : (flat groups).length ≤ n := by omega
  obtain ⟨sorted, strict⟩ := held.sorted
  refine ⟨t, codes, entriesOf t groups, contents, runs, ?_, ?_, ?_, ?_, sorted, ?_⟩
  · rw [map_fst_entriesOf]
    exact held.forEach enough
  · rw [map_fst_entriesOf]
    exact held.forEachReverse enough
  · intro e member
    obtain ⟨r, _, rfl⟩ := List.mem_map.mp member
    rfl
  · rw [entriesOf, List.length_map]
    exact held.count
  · intro refused
    exact strict (isDups.trans refused)

/-- The memory of nodes that have never been used. -/
def unusedNodes : AvlTree UInt32 Nat :=
  { list := ⟨fun _ => none, fun _ => none⟩, parent := fun _ => none, child := fun _ _ => none
    key := fun _ => 0, balance := fun _ => 0, leader := fun _ => false, root := none, count := 0
    allowDups := false }

theorem avl_run_refines_five : ∃ t, avlCalls avlCompUint32 8 (avlInit unusedNodes true)
    [.insert 1 5, .insert 2 5, .insert 3 1, .remove 1, .insert 1 1] = some ([0, 0, 0, 0, 0], t) ∧
      avlForEach 8 t = some [3, 1, 2] := by
  obtain ⟨t, codes, xs, contents, runs, shown, _⟩ := avl_run_refines compares_uint32 unusedNodes true
    [.insert 1 5, .insert 2 5, .insert 3 1, .remove 1, .insert 1 1] (by decide) (n := 8) (by decide)
  have isContents : contentsRun UInt32.toNat true ([] : List (Entry UInt32 Nat))
      [.insert 1 5, .insert 2 5, .insert 3 1, .remove 1, .insert 1 1] =
        ([0, 0, 0, 0, 0], [(3, 1), (1, 1), (2, 5)]) := by decide
  cases isContents.symm.trans contents
  exact ⟨t, runs, shown⟩

/-- After any run of legal calls `avl_remove_all_elements` frees every node that is there, once and in order,
    and leaves a tree from which later runs are again those of the abstract contents. -/
theorem avl_remove_all_frees {rank : κ → ℓ} {comp : κ → κ → Int} (compares : Compares comp rank)
    (memory : AvlTree κ ρ) (dups : Bool) (calls later : List (AvlCall κ ρ)) (legal : Legal rank dups [] calls)
    (legalLater : Legal rank dups [] later) {n : Nat} (fuel : calls.length + 1 < n)
    (fuelLater : later.length + 1 < n) (few : (contentsRun rank dups [] calls).2.length < 2 ^ 32) :
    ∃ t t' t'', avlCalls comp n (avlInit memory dups) calls = some ((contentsRun rank dups [] calls).1, t) ∧
      avlRemoveAll t = some ((contentsRun rank dups [] calls).2.map Prod.fst, t') ∧
      avlCalls comp n t' later = some ((contentsRun rank dups [] later).1, t'') ∧
      avlForEach n t'' = some ((contentsRun rank dups [] later).2.map Prod.fst) := by
  obtain ⟨codes, t, groups, runs, held, isDups, _, contents⟩ :=
    @avlCalls_init κ ρ ℓ _ _ rank comp n compares memory dups calls legal fuel
  rw [contents, entriesOf, List.length_map] at few
  obtain ⟨t', frees, empty, sameDups⟩ := held.removeAll few
  have again : t'.allowDups = dups := sameDups.trans isDups
  rw [← again] at legalLater
  obtain ⟨codes', t'', groups', runs', held', _, few', contents'⟩ := empty.calls compares later legalLater
    (n := n) (by simpa using fuelLater)
  have noEntries : entriesOf t' [] = [] := rfl
  rw [again, noEntries] at contents'
  refine ⟨t, t', t'', ?_, ?_, ?_, ?_⟩
  · rw [contents]
    exact runs
  · rw [contents, map_fst_entriesOf]
    exact frees
  · rw [contents']
    exact runs'
  · rw [contents', map_fst_entriesOf]
    exact held'.forEach (by simp at few'; omega)

theorem avl_remove_all_frees_three : ∃ t t' t'',
    avlCalls avlCompUint32 6 (avlInit unusedNodes true)
      [.insert 1 5, .insert 2 5, .insert 3 1] = some ([0, 0, 0], t) ∧
    avlRemoveAll t = some ([3, 1, 2], t') ∧
    avlCalls avlCompUint32 6 t' [.insert 3 2] = some ([0], t'') ∧
    avlForEach 6 t'' = some [3] := by
  have isContents : contentsRun UInt32.toNat true ([] : List (Entry UInt32 Nat))
      [.insert 1 5, .insert 2 5, .insert 3 1] = ([0, 0, 0], [(3, 1), (1, 5), (2, 5)]) := by decide
  have isLater : contentsRun UInt32.toNat true ([] : List (Entry UInt32 Nat)) [.insert 3 2] =
      ([0], [(3, 2)]) := by decide
  have run := avl_remove_all_frees compares_uint32 unusedNodes true [.insert 1 5, .insert 2 5, .insert 3 1]
    [.insert 3 2] (by decide) (by decide) (n := 6) (by decide) (by decide) (by rw [isContents]; decide)
  rw [isContents, isLater] at run
  exact run

end Bprd
