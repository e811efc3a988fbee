/-
Module: Bprd.Lib.Reservoir
Layer: Lib
Purpose: Choosing among an unknown number of ties in one pass. A scan keeps the best value seen, counts
  the items that attain it and offers each of them to a numbered random test; the last accepted item is
  the choice. Whatever the tests answer, the tests of the final ties are consecutive and the choice is a
  one-item reservoir over them (`scan_sound`); with independent tests that accept the n-th tie with
  probability 1/n, each tie is chosen with the same probability (`choice_law`).
Imports: Mathlib.Probability.Independence.InfinitePi, Mathlib.Data.ENNReal.Inv
Trusted boundary: none
Main exports: Reservoir.pick, Reservoir.Scan, Reservoir.scan, Reservoir.top, Reservoir.ties,
  Reservoir.ScanSound, Reservoir.scan_sound, Reservoir.FairTests, Reservoir.pick_law,
  Reservoir.choice_law
-/
import Mathlib.Probability.Independence.InfinitePi
import Mathlib.Data.ENNReal.Inv

namespace Reservoir

section Pick

variable {α : Type*}

/-- A one-item reservoir: the items are numbered from `i`, and an accepted item replaces the kept one. -/
def pick (accept : Nat → Bool) : Nat → Option α → List α → Option α
  | _, kept, [] => kept
  | i, kept, x :: xs => pick accept (i + 1) (if accept i then some x else kept) xs

theorem pick_concat (accept : Nat → Bool) (y : α) : ∀ (i : Nat) (kept : Option α) (xs : List α),
    pick accept i kept (xs ++ [y]) =
      if accept (i + xs.length) then some y else pick accept i kept xs
  | i, kept, [] => rfl
  | i, kept, x :: xs => by
      have later : i + 1 + xs.length = i + (xs.length + 1) := by omega
      simp only [List.cons_append, pick, pick_concat, List.length_cons, later]

/-- Only the tests of the items matter. -/
theorem pick_congr {accept accept' : Nat → Bool} : ∀ {i : Nat} {kept : Option α} {xs : List α},
    (∀ j < xs.length, accept (i + j) = accept' (i + j)) →
      pick accept i kept xs = pick accept' i kept xs
  | i, kept, [], _ => rfl
  | i, kept, x :: xs, agree => by
      have head : accept i = accept' i := agree 0 (Nat.succ_pos _)
      have tail : ∀ j < xs.length, accept (i + 1 + j) = accept' (i + 1 + j) := by
        intro j inside
        have shifted := agree (j + 1) (Nat.succ_lt_succ inside)
        rwa [show i + (j + 1) = i + 1 + j by omega] at shifted
      rw [pick, pick, head]
      exact pick_congr tail

end Pick

section Scan

variable {α β : Type*} [LinearOrder β]

/-- The variables of the scan: ties counted so far, best value, choice, tests made so far. -/
structure Scan (α β : Type*) where
  num : Nat
  best : β
  choice : Option α
  tests : Nat

/-- One item with its value: a smaller value is passed over, an equal one counts as a further tie, a
    larger one starts the count again; then the test decides. `accept k num` is the k-th test, made when
    the count is `num`. -/
def Scan.step (accept : Nat → Nat → Bool) (s : Scan α β) (item : α × β) : Scan α β :=
  if item.2 < s.best then s
  else
    let num := if item.2 = s.best then s.num + 1 else 1
    if accept s.tests num then
      { num := num, best := item.2, choice := some item.1, tests := s.tests + 1 }
    else { s with num := num, tests := s.tests + 1 }

def scan (accept : Nat → Nat → Bool) (s : Scan α β) (items : List (α × β)) : Scan α β :=
  items.foldl (Scan.step accept) s

theorem scan_concat (accept : Nat → Nat → Bool) (s : Scan α β) (items : List (α × β))
    (item : α × β) : scan accept s (items ++ [item]) = (scan accept s items).step accept item := by
  simp [scan]

/-- The state before the first item. -/
def Scan.start [OrderBot β] (made : Nat) : Scan α β :=
  { num := 0, best := ⊥, choice := none, tests := made }

/-- The largest value. -/
def top [OrderBot β] (items : List (α × β)) : β := items.foldl (fun best item => best ⊔ item.2) ⊥

/-- The items of the largest value, in order. -/
def ties [OrderBot β] (items : List (α × β)) : List α :=
  (items.filter fun item => item.2 = top items).map Prod.fst

variable [OrderBot β] {items : List (α × β)} {item : α × β}

theorem top_concat : top (items ++ [item]) = top items ⊔ item.2 := by
  simp [top]

theorem le_top : ∀ {items : List (α × β)}, ∀ item ∈ items, item.2 ≤ top items := by
  intro items
  induction items using List.reverseRecOn with
  | nil => simp
  | append_singleton items last smaller =>
      intro item member
      rw [top_concat]
      rcases List.mem_append.mp member with earlier | here
      · exact le_sup_of_le_left (smaller item earlier)
      · rw [List.mem_singleton.mp here]
        exact le_sup_right

theorem top_le {v : β} : ∀ {items : List (α × β)}, (∀ item ∈ items, item.2 ≤ v) → top items ≤ v := by
  intro items
  induction items using List.reverseRecOn with
  | nil => exact fun _ => bot_le
  | append_singleton items last bounded =>
      intro small
      rw [top_concat]
      refine sup_le (bounded fun item member => ?_) (small last (by simp))
      exact small item (List.mem_append_left _ member)

/-- A listed value is the largest exactly when no listed value is above it. -/
theorem eq_top_iff_le (member : item ∈ items) : item.2 = top items ↔ ∀ other ∈ items, other.2 ≤ item.2 := by
  constructor
  · intro largest other isItem
    exact largest ▸ le_top other isItem
  · exact fun bounded => le_antisymm (le_top item member) (top_le bounded)

theorem ties_concat_lt (smaller : item.2 < top items) : ties (items ++ [item]) = ties items := by
  have same : top (items ++ [item]) = top items := by
    rw [top_concat, sup_eq_left.mpr smaller.le]
  simp [ties, same, smaller.ne]

theorem ties_concat_eq (equal : item.2 = top items) :
    ties (items ++ [item]) = ties items ++ [item.1] := by
  have same : top (items ++ [item]) = top items := by
    rw [top_concat, sup_eq_left.mpr equal.le]
  simp [ties, same, equal]

theorem ties_concat_gt (larger : top items < item.2) : ties (items ++ [item]) = [item.1] := by
  have raised : top (items ++ [item]) = item.2 := by
    rw [top_concat, sup_eq_right.mpr larger.le]
  have none_ : items.filter (fun other => other.2 = item.2) = [] := by
    rw [List.filter_eq_nil_iff]
    intro other member equal
    have bounded := le_top other member
    rw [of_decide_eq_true equal] at bounded
    exact absurd larger (not_lt.mpr bounded)
  simp [ties, raised, none_]

/-- What a scan has done once its items are through, where the tests of the ties are numbered from
    `start`: the choice is a reservoir over the ties. -/
structure ScanSound (accept : Nat → Nat → Bool) (made start : Nat) (items : List (α × β)) : Prop where
  best : (scan accept (Scan.start made) items).best = top items
  num : (scan accept (Scan.start made) items).num = (ties items).length
  tests : (scan accept (Scan.start made) items).tests = start + (ties items).length
  choice : (scan accept (Scan.start made) items).choice =
    pick (fun i => accept (start + i) (i + 1)) 0 none (ties items)

section

variable {accept : Nat → Nat → Bool} {made start : Nat}

theorem ScanSound.concat_lt (sound : ScanSound accept made start items) (smaller : item.2 < top items) :
    ScanSound accept made start (items ++ [item]) := by
  have stays : scan accept (Scan.start made) (items ++ [item]) = scan accept (Scan.start made) items := by
    rw [scan_concat, Scan.step, sound.best, if_pos smaller]
  refine ⟨?_, ?_, ?_, ?_⟩
  · rw [stays, sound.best, top_concat, sup_eq_left.mpr smaller.le]
  · rw [stays, sound.num, ties_concat_lt smaller]
  · rw [stays, sound.tests, ties_concat_lt smaller]
  · rw [stays, sound.choice, ties_concat_lt smaller]

/-- A further tie is offered to the next test, and the reservoir grows by it. -/
theorem ScanSound.concat_eq (sound : ScanSound accept made start items) (equal : item.2 = top items) :
    ScanSound accept made start (items ++ [item]) := by
  have raised : top (items ++ [item]) = item.2 := by
    rw [top_concat, ← equal, sup_idem]
  have kept : (scan accept (Scan.start made) items).best = item.2 := sound.best.trans equal.symm
  have stepped := scan_concat accept (Scan.start made) items item
  rw [Scan.step, kept, if_neg (lt_irrefl _)] at stepped
  simp only [if_true, sound.num, sound.tests] at stepped
  have pool := pick_concat (fun i => accept (start + i) (i + 1)) item.1 0 none (ties items)
  rw [Nat.zero_add] at pool
  by_cases accepted : accept (start + (ties items).length) ((ties items).length + 1) = true
  · rw [if_pos accepted] at stepped pool
    refine ⟨?_, ?_, ?_, ?_⟩
    · rw [stepped, raised]
    · simp [stepped, ties_concat_eq equal]
    · simp [stepped, ties_concat_eq equal, Nat.add_assoc]
    · rw [stepped, ties_concat_eq equal, pool]
  · rw [if_neg accepted] at stepped pool
    refine ⟨?_, ?_, ?_, ?_⟩
    · rw [stepped, raised]
    · simp [stepped, ties_concat_eq equal]
    · simp [stepped, ties_concat_eq equal, Nat.add_assoc]
    · rw [stepped, ties_concat_eq equal, pool]
      exact sound.choice

/-- A larger value empties the reservoir; its first test is accepted. -/
theorem ScanSound.concat_gt (first : ∀ k, accept k 1 = true)
    (sound : ScanSound accept made start items) (larger : top items < item.2) :
    ScanSound accept made (start + (ties items).length) (items ++ [item]) := by
  have raised : top (items ++ [item]) = item.2 := by
    rw [top_concat, sup_eq_right.mpr larger.le]
  have stepped := scan_concat accept (Scan.start made) items item
  rw [Scan.step, sound.best, if_neg (not_lt.mpr larger.le)] at stepped
  simp only [if_neg larger.ne', first, if_true, sound.tests] at stepped
  refine ⟨?_, ?_, ?_, ?_⟩
  · rw [stepped, raised]
  · simp [stepped, ties_concat_gt larger]
  · simp [stepped, ties_concat_gt larger]
  · simp [stepped, ties_concat_gt larger, pick, first]

end

/-- Where the tests of the final ties begin depends on the items alone, not on the answers. -/
theorem scan_sound (made : Nat) (items : List (α × β)) :
    ∃ start, ∀ accept : Nat → Nat → Bool, (∀ k, accept k 1 = true) →
      ScanSound accept made start items := by
  induction items using List.reverseRecOn with
  | nil => exact ⟨made, fun accept _ => ⟨rfl, rfl, rfl, rfl⟩⟩
  | append_singleton items item earlier =>
      obtain ⟨start, sound⟩ := earlier
      rcases lt_trichotomy item.2 (top items) with smaller | equal | larger
      · exact ⟨start, fun accept first => (sound accept first).concat_lt smaller⟩
      · exact ⟨start, fun accept first => (sound accept first).concat_eq equal⟩
      · exact ⟨start + (ties items).length,
          fun accept first => (sound accept first).concat_gt first larger⟩

end Scan

section Law

open MeasureTheory ProbabilityTheory
open scoped ENNReal

variable {Ω α : Type*} [MeasurableSpace Ω] {μ : Measure Ω}

/-- Independent acceptance tests: the k-th one, made when the count is `num`, accepts with probability
    `1 / num`. -/
structure FairTests (μ : Measure Ω) (accept : Ω → Nat → Nat → Bool) : Prop where
  measurable : ∀ k num, Measurable fun ω => accept ω k num
  fair : ∀ k num, 0 < num → μ {ω | accept ω k num = true} = (num : ℝ≥0∞)⁻¹
  independent : ∀ num : Nat → Nat, iIndepFun (fun k ω => accept ω k (num k)) μ

variable {tests : Nat → Ω → Bool}

/-- What the first `n` tests make of the items does not depend on a later test. -/
theorem pick_indep (measurable : ∀ i, Measurable (tests i)) (independent : iIndepFun tests μ)
    (xs : List α) (x : Option α) (answer : Bool) :
    μ ({ω | tests xs.length ω = answer} ∩ {ω | pick (fun i => tests i ω) 0 none xs = x}) =
      μ {ω | tests xs.length ω = answer} * μ {ω | pick (fun i => tests i ω) 0 none xs = x} := by
  classical
  have apart : Disjoint {xs.length} (Finset.range xs.length) := by simp
  have split := independent.indepFun_finset _ _ apart measurable
  let earlier (bits : Finset.range xs.length → Bool) : Prop :=
    pick (fun i => if inside : i ∈ Finset.range xs.length then bits ⟨i, inside⟩ else false) 0 none xs = x
  have last : {ω | tests xs.length ω = answer} =
      Set.preimage (fun ω (i : ({xs.length} : Finset Nat)) => tests i ω)
        {bits | bits ⟨xs.length, by simp⟩ = answer} :=
    rfl
  have before : {ω | pick (fun i => tests i ω) 0 none xs = x} =
      Set.preimage (fun ω (i : Finset.range xs.length) => tests i ω) {bits | earlier bits} := by
    ext ω
    have same : pick (fun i => tests i ω) 0 none xs =
        pick (fun i => if i ∈ Finset.range xs.length then tests i ω else false) 0 none xs := by
      apply pick_congr
      intro j inside
      simp [inside]
    simp [earlier, same]
  rw [last, before]
  exact split.measure_inter_preimage_eq_mul _ _ (.of_discrete) (.of_discrete)

theorem rejected_law [IsProbabilityMeasure μ] {n : Nat} {test : Ω → Bool} (measurable : Measurable test)
    (fair : μ {ω | test ω = true} = ((n + 1 : Nat) : ℝ≥0∞)⁻¹) :
    μ {ω | test ω = false} = n / ((n + 1 : Nat) : ℝ≥0∞) := by
  have whole : {ω | test ω = false} = {ω | test ω = true}ᶜ := by
    ext ω
    simp
  have event : MeasurableSet {ω | test ω = true} := measurable (measurableSet_singleton true)
  rw [whole, prob_compl_eq_one_sub event, fair]
  apply ENNReal.sub_eq_of_eq_add (by simp)
  have positive : ((n + 1 : Nat) : ℝ≥0∞) ≠ 0 := Nat.cast_ne_zero.mpr (Nat.succ_ne_zero n)
  calc (1 : ℝ≥0∞) = (n + 1 : Nat) * ((n + 1 : Nat) : ℝ≥0∞)⁻¹ :=
        (ENNReal.mul_inv_cancel positive (ENNReal.natCast_ne_top _)).symm
    _ = n / (n + 1 : Nat) + ((n + 1 : Nat) : ℝ≥0∞)⁻¹ := by
        rw [Nat.cast_succ, add_mul, one_mul, div_eq_mul_inv]

/-- A share of `count` in `n` items, kept with probability `n / (n + 1)`, is a share of `count` in
    `n + 1` items. -/
theorem share_kept {n count : Nat} (bounded : count ≤ n) :
    (n : ℝ≥0∞) / (n + 1 : Nat) * (count / n) = count / (n + 1 : Nat) := by
  rcases Nat.eq_zero_or_pos n with rfl | positive
  · simp [Nat.le_zero.mp bounded]
  · have nonzero : (n : ℝ≥0∞) ≠ 0 := Nat.cast_ne_zero.mpr positive.ne'
    calc (n : ℝ≥0∞) / (n + 1 : Nat) * (count / n)
        = n * (n : ℝ≥0∞)⁻¹ * (count / (n + 1 : Nat)) := by
          simp only [div_eq_mul_inv]
          ring
      _ = count / (n + 1 : Nat) := by
          rw [ENNReal.mul_inv_cancel nonzero (ENNReal.natCast_ne_top n), one_mul]

/-- The reservoir holds each item with the share of it among the items, when the i-th test accepts with
    probability `1 / (i + 1)`. -/
theorem pick_law [DecidableEq α] (measurable : ∀ i, Measurable (tests i))
    (independent : iIndepFun tests μ)
    (fair : ∀ i, μ {ω | tests i ω = true} = ((i + 1 : Nat) : ℝ≥0∞)⁻¹) (xs : List α) (x : α) :
    μ {ω | pick (fun i => tests i ω) 0 none xs = some x} = xs.count x / xs.length := by
  have isProbability : IsProbabilityMeasure μ := independent.isProbabilityMeasure
  induction xs using List.reverseRecOn with
  | nil => simp [pick]
  | append_singleton xs y earlier =>
      have unfolded : ∀ ω, pick (fun i => tests i ω) 0 none (xs ++ [y]) =
          if tests xs.length ω then some y else pick (fun i => tests i ω) 0 none xs := by
        intro ω
        rw [pick_concat, Nat.zero_add]
      have total : (xs ++ [y]).length = xs.length + 1 := by simp
      -- The last item is rejected and the reservoir held `x` before it.
      have kept : μ ({ω | tests xs.length ω = false} ∩
          {ω | pick (fun i => tests i ω) 0 none xs = some x}) =
            xs.count x / (xs.length + 1 : Nat) := by
        rw [pick_indep measurable independent xs (some x) false,
          rejected_law (measurable _) (fair _), earlier, share_kept List.count_le_length]
      by_cases here : y = x
      · subst here
        have parts : {ω | pick (fun i => tests i ω) 0 none (xs ++ [y]) = some y} =
            {ω | tests xs.length ω = true} ∪ ({ω | tests xs.length ω = false} ∩
              {ω | pick (fun i => tests i ω) 0 none xs = some y}) := by
          ext ω
          cases answer : tests xs.length ω <;> simp [unfolded, answer]
        have apart : Disjoint {ω | tests xs.length ω = true} ({ω | tests xs.length ω = false} ∩
            {ω | pick (fun i => tests i ω) 0 none xs = some y}) := by
          rw [Set.disjoint_left]
          rintro ω (accepted : _ = _) ⟨rejected : _ = _, _⟩
          rw [accepted] at rejected
          cases rejected
        have event : MeasurableSet {ω | tests xs.length ω = true} :=
          measurable _ (measurableSet_singleton true)
        have once : (xs ++ [y]).count y = xs.count y + 1 := by simp
        rw [parts, measure_union' apart event, kept, fair, total, once, div_eq_mul_inv, div_eq_mul_inv,
          Nat.cast_succ (xs.count y), add_mul, one_mul, add_comm]
      · have parts : {ω | pick (fun i => tests i ω) 0 none (xs ++ [y]) = some x} =
            {ω | tests xs.length ω = false} ∩ {ω | pick (fun i => tests i ω) 0 none xs = some x} := by
          ext ω
          cases answer : tests xs.length ω <;> simp [unfolded, answer, here]
        have never : (xs ++ [y]).count x = xs.count x := by simp [here]
        rw [parts, kept, total, never]

/-- With fair tests, a scan chooses each item of the largest value with its share among them. -/
theorem choice_law {β : Type*} [LinearOrder β] [OrderBot β] [DecidableEq α]
    {accept : Ω → Nat → Nat → Bool} (tests_fair : FairTests μ accept)
    (first : ∀ ω k, accept ω k 1 = true) (made : Nat) (items : List (α × β)) (x : α) :
    μ {ω | (scan (accept ω) (Scan.start made) items).choice = some x} =
      (ties items).count x / (ties items).length := by
  obtain ⟨start, sound⟩ := scan_sound made items
  have chosen : ∀ ω, (scan (accept ω) (Scan.start made) items).choice =
      pick (fun i => accept ω (start + i) (i + 1)) 0 none (ties items) :=
    fun ω => (sound (accept ω) (first ω)).choice
  simp only [chosen]
  refine pick_law ?_ ?_ ?_ _ _
  · exact fun i => tests_fair.measurable _ _
  · have all := tests_fair.independent fun k => k - start + 1
    have later := all.precomp (g := fun i => start + i) (add_right_injective start)
    simpa only [Nat.add_sub_cancel_left] using later
  · exact fun i => tests_fair.fair _ _ (Nat.succ_pos i)

end Law

end Reservoir
