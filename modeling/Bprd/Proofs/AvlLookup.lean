/-
Module: Bprd.Proofs.AvlLookup
Layer: Proofs
Purpose: The search functions of avl.c on any tree that a run has made. `avl_find` returns the first node
  with the key, `avl_find_lessequal` the last one whose key is not greater, and `avl_find_greaterequal` the
  first one whose key is not less; each returns null when there is none. The descent is logarithmic.
Imports: Bprd.Proofs.AvlRuns
Trusted boundary: none
Main exports: Along, Towards, goTo_eq, goOn_eq, findNear_eq, avl_lookups_exact, avl_find_is_short
-/
import Bprd.Proofs.AvlRuns

namespace Bprd

open ListEntity
open HeightTree (Side HTree Way)
open LinkRing (Rings lastOf firstOf)

variable {κ ρ ℓ : Type} [DecidableEq ρ] [LinearOrder ℓ]

/-- The nodes that follow a node in the list to a side. -/
def Along (side : Side) (list : LinkRing.Links ρ) (r : ρ) (rest : List ρ) : Prop :=
  match side with
  | .left => ∃ bs, Rings list (rest.reverse ++ r :: bs)
  | .right => ∃ as, Rings list (as ++ r :: rest)

/-- The whole list, as it is met on the way to a side. -/
def Towards (side : Side) (list : LinkRing.Links ρ) (rs : List ρ) : Prop :=
  match side with
  | .left => Rings list rs.reverse
  | .right => Rings list rs

section

variable {rank : κ → ℓ} {comp : κ → κ → Int} {t : AvlTree κ ρ} {groups gs hs : List (ρ × List ρ)}
  {side : Side} {list : LinkRing.Links ρ} {r x root : ρ} {rest cs fs as bs far near : List ρ} {key : κ}
  {n : Nat}

theorem Along.isEnd (along : Along side list r rest) : isEnd side list r = rest.isEmpty := by
  cases side with
  | left =>
      obtain ⟨bs, rings⟩ := along
      rw [Bprd.isEnd, listIsFirst, Bool.eq_iff_iff, decide_eq_true_iff, rings.first_iff, List.isEmpty_iff,
        List.reverse_eq_nil_iff]
  | right =>
      obtain ⟨as, rings⟩ := along
      rw [Bprd.isEnd, listIsLast, Bool.eq_iff_iff, decide_eq_true_iff, rings.last_iff, List.isEmpty_iff]

omit [DecidableEq ρ] in
theorem Along.next (along : Along side list r (x :: rest)) :
    neighbor side list r = some x ∧ Along side list x rest := by
  cases side with
  | left =>
      obtain ⟨bs, rings⟩ := along
      have isPrev := rings.prev_eq
      refine ⟨?_, r :: bs, ?_⟩
      · rw [neighbor, isPrev]
        simp [lastOf, nodeOf]
      · simpa using rings
  | right =>
      obtain ⟨as, rings⟩ := along
      refine ⟨?_, as ++ [r], ?_⟩
      · rw [neighbor, rings.next_eq]
        rfl
      · simpa using rings

omit [DecidableEq ρ] in
/-- Around a node, the list goes on to both sides. -/
theorem Towards.along (towards : Towards side list (as ++ x :: bs)) :
    Along side list x bs ∧ Along side.flip list x as.reverse := by
  cases side with
  | left =>
      have rings : Rings list (bs.reverse ++ x :: as.reverse) := by simpa [Towards] using towards
      exact ⟨⟨as.reverse, rings⟩, bs.reverse, rings⟩
  | right =>
      refine ⟨⟨as, towards⟩, bs, ?_⟩
      rw [List.reverse_reverse]
      exact towards

/-- The first loop stops at the first node that the key does not lie beyond. -/
theorem goTo_eq (along : Along side t.list r (cs ++ rest))
    (beyond : ∀ c ∈ r :: cs, side.sign * comp key (t.key c) > 0)
    (stops : ∀ c ∈ rest.head?, ¬ side.sign * comp key (t.key c) > 0) (fuel : cs.length + 1 < n) :
    avlGoTo comp side t key n r (comp key (t.key r)) =
      some (rest.head?.map fun c => (c, comp key (t.key c))) := by
  induction cs generalizing r n with
  | nil =>
      obtain ⟨n, rfl⟩ := Nat.exists_eq_add_of_le' (show 2 ≤ n from fuel)
      rw [List.nil_append] at along
      rw [avlGoTo, if_pos (beyond r (List.mem_cons_self ..)), along.isEnd]
      cases rest with
      | nil => rfl
      | cons y rest =>
          obtain ⟨isNext, _⟩ := along.next
          have notBeyond : ¬ side.sign * comp key (t.key y) > 0 := stops y rfl
          simp [isNext, avlGoTo, notBeyond]
  | cons c cs ih =>
      obtain ⟨n, rfl⟩ := Nat.exists_eq_succ_of_ne_zero (Nat.ne_of_gt (Nat.zero_lt_of_lt fuel))
      obtain ⟨isNext, along'⟩ := along.next
      have run := ih along' (fun d member => beyond d (List.mem_cons_of_mem _ member))
        (Nat.lt_of_succ_lt_succ fuel)
      rw [avlGoTo, if_pos (beyond r (List.mem_cons_self ..)), along.isEnd, isNext]
      exact run

/-- The second loop stops at the last node before which the key does not lie. -/
theorem goOn_eq (along : Along side t.list r (cs ++ rest))
    (beyond : ∀ c ∈ r :: cs, side.sign * comp key (t.key c) ≥ 0)
    (stops : ∀ c ∈ rest.head?, ¬ side.sign * comp key (t.key c) ≥ 0) (fuel : cs.length + 1 < n) (node : ρ) :
    avlGoOn comp side t key n node r (comp key (t.key r)) =
      some ((r :: cs).getLast (List.cons_ne_nil r cs)) := by
  induction cs generalizing r n node with
  | nil =>
      obtain ⟨n, rfl⟩ := Nat.exists_eq_add_of_le' (show 2 ≤ n from fuel)
      rw [List.nil_append] at along
      rw [avlGoOn, if_pos (beyond r (List.mem_cons_self ..)), along.isEnd]
      cases rest with
      | nil => rfl
      | cons y rest =>
          obtain ⟨isNext, _⟩ := along.next
          have notBeyond : ¬ side.sign * comp key (t.key y) ≥ 0 := stops y rfl
          simp [isNext, avlGoOn, notBeyond]
  | cons c cs ih =>
      obtain ⟨n, rfl⟩ := Nat.exists_eq_succ_of_ne_zero (Nat.ne_of_gt (Nat.zero_lt_of_lt fuel))
      obtain ⟨isNext, along'⟩ := along.next
      have run := ih along' (fun d member => beyond d (List.mem_cons_of_mem _ member))
        (Nat.lt_of_succ_lt_succ fuel) r
      rw [avlGoOn, if_pos (beyond r (List.mem_cons_self ..)), along.isEnd, isNext]
      rw [List.getLast_cons (List.cons_ne_nil c cs)]
      exact run

omit [DecidableEq ρ] in
/-- The first element with a property, and the last one. -/
theorem find?_at {p : ρ → Bool} {as bs : List ρ} (before : ∀ a ∈ as, p a = false) (here : p x = true) :
    (as ++ x :: bs).find? p = some x := by
  have nothing : as.find? p = none := List.find?_eq_none.mpr fun a member => by simp [before a member]
  rw [List.find?_append, nothing, Option.none_or, List.find?_cons_of_pos here]

omit [DecidableEq ρ] in
/-- A list in which a property, once it holds, goes on holding. -/
theorem exists_turn {p : ρ → Bool} {rs : List ρ} (rises : rs.Pairwise fun a b => p a = true → p b = true) :
    ∃ far near, rs = far ++ near ∧ (∀ c ∈ far, p c = false) ∧ (∀ c ∈ near, p c = true) ∧
      rs.find? p = near.head? := by
  induction rs with
  | nil => exact ⟨[], [], rfl, by simp, by simp, rfl⟩
  | cons r rs ih =>
      obtain ⟨first, later⟩ := List.pairwise_cons.mp rises
      cases here : p r with
      | true =>
          refine ⟨[], r :: rs, rfl, by simp, ?_, List.find?_cons_of_pos here⟩
          intro c member
          rcases List.mem_cons.mp member with rfl | behind
          · exact here
          · exact first c behind here
      | false =>
          obtain ⟨far, near, rfl, isFar, isNear, found⟩ := ih later
          refine ⟨r :: far, near, rfl, ?_, isNear, ?_⟩
          · intro c member
            rcases List.mem_cons.mp member with rfl | behind
            · exact here
            · exact isFar c behind
          · rw [List.find?_cons_of_neg (by rw [here]; exact Bool.false_ne_true), found]

/-- `avl_find` needs no more rounds than the tree is high. -/
theorem Holds.find (compares : Compares comp rank) (holds : Holds rank t groups) (key : κ)
    (fuel : ∀ tree, HeightTree.Balanced tree → tree.labels = groups.map Prod.fst → tree.height ≤ n) :
    avlFind comp n t key = some ((flat groups).find? fun r => rank (t.key r) = rank key) := by
  cases isRoot : t.root with
  | none =>
      obtain rfl := holds.root_none isRoot
      rw [avlFind, isRoot]
      rfl
  | some root =>
      obtain ⟨gs, x, fs, hs, path, l, b, r, rfl, found, spot⟩ := holds.findSpot compares isRoot key fuel
      obtain ⟨lower, same, upper⟩ := holds.ranks spot
      rw [avlFind, isRoot]
      simp only [found, Option.map_some, compares.eq]
      by_cases level : rank key = rank (t.key x)
      · rw [if_pos level, flat_append, flat_cons, find?_at]
        · exact fun a member => decide_eq_false (ne_of_lt (lower a member))
        · exact decide_eq_true level.symm
      · have nothing : (flat (gs ++ (x, fs) :: hs)).find? (fun r => rank (t.key r) = rank key) = none := by
          refine List.find?_eq_none.mpr fun a member => ?_
          rw [decide_eq_true_iff]
          rw [flat_append, flat_cons, ← List.cons_append] at member
          rcases List.mem_append.mp member with before | rest
          · exact ne_of_lt (lower a before)
          · rcases List.mem_append.mp rest with here | behind
            · rw [same a here]
              exact Ne.symm level
            · exact ne_of_gt (upper a behind)
        rw [if_neg level, nothing]

/-- A search that leaves the list in its first loop. -/
theorem findNear_none {found : ρ × Int} (isRoot : t.root = some root)
    (finds : avlFindRec comp t key n root = some found)
    (leaves : avlGoTo comp side t key n found.1 found.2 = some none) :
    avlFindNear comp side n t key = some none := by
  simp only [avlFindNear, isRoot, finds, leaves, Option.bind_eq_bind, Option.bind_some]

/-- A search that turns round at a node. -/
theorem findNear_some {y z : ρ} {found : ρ × Int} (isRoot : t.root = some root)
    (finds : avlFindRec comp t key n root = some found)
    (turns : avlGoTo comp side t key n found.1 found.2 = some (some (y, comp key (t.key y))))
    (ends : avlGoOn comp side.flip t key n y y (comp key (t.key y)) = some z) :
    avlFindNear comp side n t key = some (some z) := by
  simp only [avlFindNear, isRoot, finds, turns, ends, Option.bind_eq_bind, Option.bind_some, Option.map_some]

/-- The first loop stays where the key does not lie beyond. -/
theorem goTo_stay (stops : ¬ side.sign * comp key (t.key x) > 0) (fuel : 0 < n) :
    avlGoTo comp side t key n x (comp key (t.key x)) = some (some (x, comp key (t.key x))) := by
  obtain ⟨n, rfl⟩ := Nat.exists_eq_succ_of_ne_zero (Nat.ne_of_gt fuel)
  rw [avlGoTo, if_neg stops]

/-- The two loops ask opposite questions. -/
theorem back_iff (side : Side) (diff : Int) : side.flip.sign * diff ≥ 0 ↔ ¬ side.sign * diff > 0 := by
  rw [HeightTree.Side.sign_flip, neg_mul]
  omega

/-- Wherever the descent ends, the search returns the first node that the key does not lie beyond. -/
theorem findNear_eq (isRoot : t.root = some root)
    (finds : avlFindRec comp t key n root = some (x, comp key (t.key x)))
    (towards : Towards side t.list (far ++ near)) (member : x ∈ far ++ near)
    (isFar : ∀ c ∈ far, side.sign * comp key (t.key c) > 0)
    (isNear : ∀ c ∈ near, ¬ side.sign * comp key (t.key c) > 0) (fuel : (far ++ near).length + 1 < n) :
    avlFindNear comp side n t key = some near.head? := by
  rw [List.length_append] at fuel
  rcases List.mem_append.mp member with beyond | within
  · -- The first loop leaves the nodes beyond which the key lies, and the second turns at once.
    obtain ⟨as, bs, rfl⟩ := List.append_of_mem beyond
    rw [List.length_append, List.length_cons] at fuel
    have moves : avlGoTo comp side t key n x (comp key (t.key x)) =
        some (near.head?.map fun c => (c, comp key (t.key c))) := by
      rw [List.append_assoc] at towards
      exact goTo_eq towards.along.1 (fun c inside => isFar c (List.mem_append_right _ inside))
        (fun c isHead => isNear c (List.mem_of_mem_head? isHead)) (by omega)
    cases near with
    | nil => exact findNear_none isRoot finds moves
    | cons y near =>
        have ends : avlGoOn comp side.flip t key n y y (comp key (t.key y)) = some y := by
          have back : Along side.flip t.list y ([] ++ (as ++ x :: bs).reverse) := towards.along.2
          apply goOn_eq back _ _ (by rw [List.length_nil]; omega)
          · intro c inside
            rw [List.mem_singleton.mp inside]
            exact (back_iff ..).mpr (isNear y (List.mem_cons_self ..))
          · intro c isHead
            have inside := List.mem_reverse.mp (List.mem_of_mem_head? isHead)
            exact mt (back_iff ..).mp (not_not_intro (isFar c inside))
        exact findNear_some isRoot finds moves ends
  · -- The first loop stays, and the second goes back over the others of its kind.
    obtain ⟨as, bs, rfl⟩ := List.append_of_mem within
    rw [List.length_append, List.length_cons] at fuel
    have stays := @goTo_stay κ ρ _ comp t side x key n (isNear x within) (by omega)
    have ends : avlGoOn comp side.flip t key n x x (comp key (t.key x)) =
        some ((x :: as.reverse).getLast (List.cons_ne_nil x as.reverse)) := by
      rw [← List.append_assoc] at towards
      have back := towards.along.2
      rw [List.reverse_append] at back
      apply goOn_eq back _ _ (by rw [List.length_reverse]; omega)
      · intro c inside
        apply (back_iff ..).mpr
        rcases List.mem_cons.mp inside with rfl | inside
        · exact isNear c within
        · exact isNear c (List.mem_append_left _ (List.mem_reverse.mp inside))
      · intro c isHead
        have inside := List.mem_reverse.mp (List.mem_of_mem_head? isHead)
        exact mt (back_iff ..).mp (not_not_intro (isFar c inside))
    rw [findNear_some isRoot finds stays ends]
    cases as with
    | nil => rfl
    | cons a as => simp

/-- What the loops ask of a comparison, in terms of the ranks. -/
theorem Compares.left_iff (compares : Compares comp rank) (a b : κ) :
    Side.left.sign * comp a b > 0 ↔ rank a < rank b := by
  rw [Side.sign, ← compares.lt]
  omega

theorem Compares.right_iff (compares : Compares comp rank) (a b : κ) :
    Side.right.sign * comp a b > 0 ↔ rank b < rank a := by
  rw [Side.sign, ← compares.gt]
  omega

/-- The search from the root of a tree. -/
theorem Holds.findNear (compares : Compares comp rank) (holds : Holds rank t groups) (side : Side)
    (towards : Towards side t.list (far ++ near)) (whole : (far ++ near).Perm (flat groups))
    (isFar : ∀ c ∈ far, side.sign * comp key (t.key c) > 0)
    (isNear : ∀ c ∈ near, ¬ side.sign * comp key (t.key c) > 0) (fuel : (flat groups).length + 1 < n) :
    avlFindNear comp side n t key = some near.head? := by
  cases isRoot : t.root with
  | none =>
      obtain rfl := holds.root_none isRoot
      obtain ⟨_, rfl⟩ := List.append_eq_nil_iff.mp whole.eq_nil
      rw [avlFindNear, isRoot]
      rfl
  | some root =>
      obtain ⟨gs, x, fs, hs, _, _, _, _, rfl, found, _⟩ := holds.findSpot (n := n) compares isRoot key
        fun tree _ labels => (height_le_flat labels).trans (by omega)
      have inside : x ∈ flat (gs ++ (x, fs) :: hs) := by
        rw [flat_append, flat_cons]
        exact List.mem_append_right _ (List.mem_cons_self ..)
      exact findNear_eq isRoot found towards (whole.mem_iff.mpr inside) isFar isNear
        (whole.length_eq ▸ fuel)

omit [DecidableEq ρ] in
theorem Holds.rising (holds : Holds rank t groups) :
    (flat groups).Pairwise fun a b => rank (t.key a) ≤ rank (t.key b) := by
  have sorted := holds.sorted.1
  rw [entriesOf, List.pairwise_map] at sorted
  exact sorted

/-- `avl_find_lessequal`. -/
theorem Holds.findLessequal (compares : Compares comp rank) (holds : Holds rank t groups) (key : κ)
    (fuel : (flat groups).length + 1 < n) :
    avlFindLessequal comp n t key =
      some ((flat groups).reverse.find? fun r => rank (t.key r) ≤ rank key) := by
  have rises : (flat groups).reverse.Pairwise fun a b =>
      decide (rank (t.key a) ≤ rank key) = true → decide (rank (t.key b) ≤ rank key) = true := by
    rw [List.pairwise_reverse]
    refine holds.rising.imp fun {a b} less reached => ?_
    exact decide_eq_true (less.trans (of_decide_eq_true reached))
  obtain ⟨far, near, split, isFar, isNear, first⟩ := exists_turn rises
  have towards : Towards .left t.list (far ++ near) := by
    rw [← split, Towards, List.reverse_reverse]
    exact holds.ring
  rw [avlFindLessequal, first]
  apply holds.findNear compares .left towards _ _ _ fuel
  · exact split ▸ List.reverse_perm _
  · exact fun c inside => (compares.left_iff ..).mpr (lt_of_not_ge (of_decide_eq_false (isFar c inside)))
  · exact fun c inside =>
      mt (compares.left_iff ..).mp (not_lt_of_ge (of_decide_eq_true (isNear c inside)))

/-- `avl_find_greaterequal`. -/
theorem Holds.findGreaterequal (compares : Compares comp rank) (holds : Holds rank t groups) (key : κ)
    (fuel : (flat groups).length + 1 < n) :
    avlFindGreaterequal comp n t key =
      some ((flat groups).find? fun r => rank key ≤ rank (t.key r)) := by
  have rises : (flat groups).Pairwise fun a b =>
      decide (rank key ≤ rank (t.key a)) = true → decide (rank key ≤ rank (t.key b)) = true := by
    refine holds.rising.imp fun {a b} less reached => ?_
    exact decide_eq_true ((of_decide_eq_true reached).trans less)
  obtain ⟨far, near, split, isFar, isNear, first⟩ := exists_turn rises
  have towards : Towards .right t.list (far ++ near) := by
    rw [← split]
    exact holds.ring
  rw [avlFindGreaterequal, first]
  apply holds.findNear compares .right towards _ _ _ fuel
  · exact split ▸ List.Perm.refl _
  · exact fun c inside => (compares.right_iff ..).mpr (lt_of_not_ge (of_decide_eq_false (isFar c inside)))
  · exact fun c inside =>
      mt (compares.right_iff ..).mp (not_lt_of_ge (of_decide_eq_true (isNear c inside)))

omit [DecidableEq ρ] in
theorem find?_entriesOf {p : κ → Bool} :
    ((entriesOf t groups).find? fun e => p e.2).map Prod.fst = (flat groups).find? fun r => p (t.key r) := by
  rw [entriesOf, List.find?_map, Option.map_map]
  exact Option.map_id'

omit [DecidableEq ρ] in
theorem reverse_find?_entriesOf {p : κ → Bool} :
    ((entriesOf t groups).reverse.find? fun e => p e.2).map Prod.fst =
      (flat groups).reverse.find? fun r => p (t.key r) := by
  rw [entriesOf, ← List.map_reverse, List.find?_map, Option.map_map]
  exact Option.map_id'

end

section

variable {rank : κ → ℓ} {comp : κ → κ → Int}

/-- In every tree that a run has made, the searches return the first entry with the key, the last one whose
    key is not greater, and the first one whose key is not less. -/
theorem avl_lookups_exact (compares : Compares comp rank) (memory : AvlTree κ ρ) (dups : Bool)
    (calls : List (AvlCall κ ρ)) (legal : Legal rank dups [] calls) {n : Nat} (fuel : calls.length + 1 < n) :
    ∃ t codes xs, contentsRun rank dups [] calls = (codes, xs) ∧
      avlCalls comp n (avlInit memory dups) calls = some (codes, t) ∧ ∀ key,
        avlFind comp n t key = some ((xs.find? fun e => rank e.2 = rank key).map Prod.fst) ∧
        avlFindLessequal comp n t key =
          some ((xs.reverse.find? fun e => rank e.2 ≤ rank key).map Prod.fst) ∧
        avlFindGreaterequal comp n t key = some ((xs.find? fun e => rank key ≤ rank e.2).map Prod.fst) := by
  obtain ⟨codes, t, groups, runs, held, _, few, contents⟩ :=
    @avlCalls_init κ ρ ℓ _ _ rank comp n compares memory dups calls legal fuel
  refine ⟨t, codes, entriesOf t groups, contents, runs, fun key => ⟨?_, ?_, ?_⟩⟩
  · rw [held.find compares key fun tree _ labels => (height_le_flat labels).trans (by omega),
      find?_entriesOf (p := fun k => rank k = rank key)]
  · rw [held.findLessequal compares key (by omega), reverse_find?_entriesOf (p := fun k => rank k ≤ rank key)]
  · rw [held.findGreaterequal compares key (by omega), find?_entriesOf (p := fun k => rank key ≤ rank k)]

theorem avl_lookups_exact_three : ∃ t, avlCalls avlCompUint32 6 (avlInit unusedNodes true)
    [.insert 1 5, .insert 2 5, .insert 3 1] = some ([0, 0, 0], t) ∧
      avlFind avlCompUint32 6 t 5 = some (some 1) ∧
      avlFindLessequal avlCompUint32 6 t 7 = some (some 2) ∧
      avlFindGreaterequal avlCompUint32 6 t 6 = some none := by
  obtain ⟨t, codes, xs, contents, runs, found⟩ := avl_lookups_exact compares_uint32 unusedNodes true
    [.insert 1 5, .insert 2 5, .insert 3 1] (by decide) (n := 6) (by decide)
  have isContents : contentsRun UInt32.toNat true ([] : List (Entry UInt32 Nat))
      [.insert 1 5, .insert 2 5, .insert 3 1] = ([0, 0, 0], [(3, 1), (1, 5), (2, 5)]) := by decide
  cases isContents.symm.trans contents
  exact ⟨t, runs, (found 5).1, (found 7).2.1, (found 6).2.2⟩

/-- In every tree that a run has made and whose entries a 32-bit count can number, `avl_find` looks at 45
    nodes at the most. -/
theorem avl_find_is_short (compares : Compares comp rank) (memory : AvlTree κ ρ) (dups : Bool)
    (calls : List (AvlCall κ ρ)) (legal : Legal rank dups [] calls) {n : Nat} (fuel : calls.length + 1 < n)
    (few : (contentsRun rank dups [] calls).2.length < 2 ^ 32) :
    ∃ t codes xs, contentsRun rank dups [] calls = (codes, xs) ∧
      avlCalls comp n (avlInit memory dups) calls = some (codes, t) ∧ ∀ key,
        avlFind comp 45 t key = some ((xs.find? fun e => rank e.2 = rank key).map Prod.fst) := by
  obtain ⟨codes, t, groups, runs, held, _, _, contents⟩ :=
    @avlCalls_init κ ρ ℓ _ _ rank comp n compares memory dups calls legal fuel
  rw [contents, entriesOf, List.length_map] at few
  have low : ∀ tree : HTree ρ, HeightTree.Balanced tree → tree.labels = groups.map Prod.fst →
      tree.height ≤ 45 := by
    intro tree balanced labels
    apply HeightTree.height_le_of_lt_fib balanced
    have size : Nat.fib (45 + 3) = 4807526976 := by decide +kernel
    have leaders := @length_le_flat ρ groups
    rw [labels, List.length_map, size]
    omega
  refine ⟨t, codes, entriesOf t groups, contents, runs, fun key => ?_⟩
  rw [held.find compares key low, find?_entriesOf (p := fun k => rank k = rank key)]

theorem avl_find_is_short_three : ∃ t, avlCalls avlCompUint32 6 (avlInit unusedNodes false)
    [.insert 1 5, .insert 2 5, .insert 3 1] = some ([0, -1, 0], t) ∧
      avlFind avlCompUint32 45 t 5 = some (some 1) := by
  have isContents : contentsRun UInt32.toNat false ([] : List (Entry UInt32 Nat))
      [.insert 1 5, .insert 2 5, .insert 3 1] = ([0, -1, 0], [(3, 1), (1, 5)]) := by decide
  obtain ⟨t, codes, xs, contents, runs, found⟩ := avl_find_is_short compares_uint32 unusedNodes false
    [.insert 1 5, .insert 2 5, .insert 3 1] (by decide) (n := 6) (by decide) (by rw [isContents]; decide)
  cases isContents.symm.trans contents
  exact ⟨t, runs, found 5⟩

end

end Bprd
