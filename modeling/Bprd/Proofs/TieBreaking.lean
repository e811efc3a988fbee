/-
Module: Bprd.Proofs.TieBreaking
Layer: Proofs
Purpose: Which of several equally good neighbours the next-hop scan chooses. The scan is the one-pass
  choice of the library over the offered differentials; with independent tests that accept with
  probability 1/num every best neighbour is chosen with the same probability, and the number of tests
  an update makes does not depend on their answers. The source's test on an ideal `rand()` is such a test.
Imports: Bprd.Lib.Reservoir, Bprd.Proofs.Backpressure, Mathlib.MeasureTheory.Constructions.UnitInterval
Trusted boundary: none
Main exports: candidates, bestNeighbors, scanNexthop_scan, selectNexthop_uniform, updateCommodities_at,
  idealRand, idealRand_fair
-/
import Bprd.Lib.Reservoir
import Bprd.Proofs.Backpressure
import Mathlib.MeasureTheory.Constructions.UnitInterval

namespace Bprd

open MeasureTheory ProbabilityTheory
open scoped ENNReal

/-- The neighbours that offer a differential, with what they offer. -/
def candidates (c : Commodity) (nlist : List Neighbor) : List (Neighbor × Nat) :=
  nlist.filterMap fun n => (offered c n).map fun d => (n, d.toNat)

/-- No neighbour offers more than `d`. -/
def offersMost (c : Commodity) (nlist : List Neighbor) (d : UInt32) : Bool :=
  nlist.all fun m => (offered c m).all fun d' => decide (d' ≤ d)

/-- The bidirectional neighbours that attain the largest differential for a commodity. -/
def bestNeighbors (c : Commodity) (nlist : List Neighbor) : List Neighbor :=
  nlist.filter fun n => (offered c n).any (offersMost c nlist)

theorem mem_candidates {c : Commodity} {nlist : List Neighbor} {n : Neighbor} {v : Nat} :
    (n, v) ∈ candidates c nlist ↔ n ∈ nlist ∧ ∃ d, offered c n = some d ∧ d.toNat = v := by
  simp only [candidates, List.mem_filterMap, Option.map_eq_some_iff, Prod.mk.injEq]
  constructor
  · rintro ⟨m, member, d, offer, rfl, value⟩
    exact ⟨member, d, offer, value⟩
  · rintro ⟨member, d, offer, value⟩
    exact ⟨n, member, d, offer, rfl, value⟩

theorem offersMost_iff {c : Commodity} {nlist : List Neighbor} {d : UInt32} :
    offersMost c nlist d = true ↔ ∀ m ∈ nlist, ∀ d', offered c m = some d' → d' ≤ d := by
  simp [offersMost, Option.all_eq_true]

theorem offersMost_iff_top {c : Commodity} {nlist : List Neighbor} {n : Neighbor} {d : UInt32}
    (member : n ∈ nlist) (offer : offered c n = some d) :
    offersMost c nlist d = true ↔ d.toNat = Reservoir.top (candidates c nlist) := by
  have listed : (n, d.toNat) ∈ candidates c nlist := mem_candidates.mpr ⟨member, d, offer, rfl⟩
  rw [Reservoir.eq_top_iff_le listed, offersMost_iff]
  constructor
  · rintro bounded ⟨m, v⟩ isCandidate
    obtain ⟨member', d', offer', rfl⟩ := mem_candidates.mp isCandidate
    exact UInt32.le_iff_toNat_le.mp (bounded m member' d' offer')
  · intro bounded m member' d' offer'
    have below := bounded _ (mem_candidates.mpr ⟨member', d', offer', rfl⟩)
    exact UInt32.le_iff_toNat_le.mpr below

/-- The best neighbours are the ties of the scan. -/
theorem bestNeighbors_eq_ties {c : Commodity} {nlist : List Neighbor} :
    bestNeighbors c nlist = Reservoir.ties (candidates c nlist) := by
  -- Induction over a part of the list, while the maximum is that of the whole list.
  have parts : ∀ l : List Neighbor, (∀ n ∈ l, n ∈ nlist) →
      l.filter (fun n => (offered c n).any (offersMost c nlist)) =
        ((candidates c l).filter fun item => item.2 = Reservoir.top (candidates c nlist)).map
          Prod.fst := by
    intro l
    induction l with
    | nil => intro _; rfl
    | cons n l tail =>
        intro within
        have rest := tail fun m member => within m (List.mem_cons_of_mem _ member)
        cases offer : offered c n with
        | none =>
            have skipped : candidates c (n :: l) = candidates c l := by simp [candidates, offer]
            rw [skipped, ← rest]
            simp [offer]
        | some d =>
            have listed : candidates c (n :: l) = (n, d.toNat) :: candidates c l := by
              simp [candidates, offer]
            have choice := offersMost_iff_top (within n (List.mem_cons_self ..)) offer
            rw [listed]
            by_cases largest : d.toNat = Reservoir.top (candidates c nlist)
            · simp [offer, choice.mpr largest, largest, rest]
            · simp [offer, mt choice.mp largest, largest, rest]
  exact parts nlist fun n member => member

theorem mem_bestNeighbors {c : Commodity} {nlist : List Neighbor} {n : Neighbor} :
    n ∈ bestNeighbors c nlist ↔ n ∈ nlist ∧ ∃ d, offered c n = some d ∧
      ∀ m ∈ nlist, ∀ d', offered c m = some d' → d' ≤ d := by
  rw [bestNeighbors, List.mem_filter, Option.any_eq_true]
  simp only [offersMost_iff]

/-- The variables of the source's scan as those of the library's. -/
def Selection.toScan (s : Selection) : Reservoir.Scan Neighbor Nat :=
  { num := s.num, best := s.diffopt.toNat, choice := s.nopt, tests := s.tests }

section

variable {tie : TieTest} {c : Commodity}

/-- The plain scan is the one-pass choice over the offered differentials. -/
theorem scanNexthop_scan : ∀ {nlist : List Neighbor} {s : Selection},
    (∀ n ∈ nlist, ∃ e, entryOf n c = some e) →
      ∃ s', scanNexthop tie c nlist s = .ok s' ∧
        s'.toScan = Reservoir.scan tie.outcome s.toScan (candidates c nlist)
  | [], s, _ => ⟨s, rfl, rfl⟩
  | n :: rest, s, entries => by
      obtain ⟨e, found⟩ := entries n (List.mem_cons_self ..)
      have later : ∀ t, ∃ s', scanNexthop tie c rest t = .ok s' ∧
          s'.toScan = Reservoir.scan tie.outcome t.toScan (candidates c rest) := fun t =>
        scanNexthop_scan fun m member => entries m (List.mem_cons_of_mem _ member)
      by_cases oneWay : n.bidir = 0
      · have skipped : candidates c (n :: rest) = candidates c rest := by
          simp [candidates, offered, oneWay]
        rw [scanNexthop_oneWay found oneWay, skipped]
        exact later s
      · have listed : candidates c (n :: rest) = (n, e.backdiff.toNat) :: candidates c rest := by
          simp [candidates, offered, oneWay, found]
        have smaller_iff : e.backdiff < s.diffopt ↔ e.backdiff.toNat < s.toScan.best :=
          UInt32.lt_iff_toNat_lt
        have equal_iff : e.backdiff = s.diffopt ↔ e.backdiff.toNat = s.toScan.best :=
          UInt32.toNat_inj.symm
        have scanned : Reservoir.scan tie.outcome s.toScan (candidates c (n :: rest)) =
            Reservoir.scan tie.outcome (s.toScan.step tie.outcome (n, e.backdiff.toNat))
              (candidates c rest) := by
          rw [listed]
          rfl
        rw [scanNexthop_compare found oneWay, scanned, Reservoir.Scan.step]
        simp only [smaller_iff, equal_iff]
        by_cases smaller : e.backdiff.toNat < s.toScan.best
        · rw [if_pos smaller, if_pos smaller]
          exact later s
        · rw [if_neg smaller, if_neg smaller]
          by_cases accepted : tie.outcome s.tests
              (if e.backdiff.toNat = s.toScan.best then s.num + 1 else 1) = true
          · rw [if_pos accepted]
            have accepted' : tie.outcome s.toScan.tests
              (if e.backdiff.toNat = s.toScan.best then s.toScan.num + 1 else 1) = true := accepted
            rw [if_pos accepted']
            exact later _
          · rw [if_neg accepted]
            have rejected' : ¬tie.outcome s.toScan.tests
              (if e.backdiff.toNat = s.toScan.best then s.toScan.num + 1 else 1) = true := accepted
            rw [if_neg rejected']
            exact later _

/-- The next-hop scan where no bidirectional neighbour is the destination. -/
theorem selectNexthop_scan (tie : TieTest) {nlist : List Neighbor} (made : Nat)
    (entries : ∀ n ∈ nlist, ∃ e, entryOf n c = some e)
    (plain : ∀ n ∈ nlist, n.bidir ≠ 0 → n.addr ≠ c.cdata.addr) :
    ∃ s, selectNexthop tie c nlist { num := 0, diffopt := 0, nopt := none, tests := made } = .ok s ∧
      s.toScan = Reservoir.scan tie.outcome (Reservoir.Scan.start made) (candidates c nlist) := by
  rw [selectNexthop_eq_scan plain]
  exact scanNexthop_scan entries

end

/-- Two states of the scan that differ at most in the chosen neighbour. -/
structure SameCounts (s t : Selection) : Prop where
  num : s.num = t.num
  diffopt : s.diffopt = t.diffopt
  tests : s.tests = t.tests

/-- How far a scan counts does not depend on the answers of the tests: the first tie is always accepted,
    and a rejected one has the best differential already. -/
theorem selectNexthop_sameCounts (tie tie' : TieTest) {c : Commodity} :
    ∀ {nlist : List Neighbor} {s t : Selection}, (∀ n ∈ nlist, ∃ e, entryOf n c = some e) →
      SameCounts s t → ∃ s' t', selectNexthop tie c nlist s = .ok s' ∧
        selectNexthop tie' c nlist t = .ok t' ∧ SameCounts s' t'
  | [], s, t, _, same => ⟨s, t, rfl, rfl, same⟩
  | n :: rest, s, t, entries, same => by
      obtain ⟨e, found⟩ := entries n (List.mem_cons_self ..)
      have later : ∀ {s t}, SameCounts s t → ∃ s' t', selectNexthop tie c rest s = .ok s' ∧
          selectNexthop tie' c rest t = .ok t' ∧ SameCounts s' t' := fun agree =>
        selectNexthop_sameCounts tie tie' (fun m member => entries m (List.mem_cons_of_mem _ member)) agree
      by_cases oneWay : n.bidir = 0
      · rw [selectNexthop_oneWay found oneWay, selectNexthop_oneWay found oneWay]
        exact later same
      by_cases destination : n.addr = c.cdata.addr
      · exact ⟨_, _, selectNexthop_atDestination found oneWay destination,
          selectNexthop_atDestination found oneWay destination, same.num, rfl, same.tests⟩
      rw [selectNexthop_compare found oneWay destination, selectNexthop_compare found oneWay destination,
        ← same.diffopt, ← same.num, ← same.tests]
      by_cases smaller : e.backdiff < s.diffopt
      · rw [if_pos smaller, if_pos smaller]
        exact later same
      rw [if_neg smaller, if_neg smaller]
      by_cases tied : e.backdiff = s.diffopt
      · simp only [if_pos tied]
        split <;> split <;>
          exact later ⟨rfl, by simp [tied, same.diffopt], rfl⟩
      · simp only [if_neg tied, TieTest.first_accepted, if_true]
        exact later ⟨rfl, rfl, rfl⟩

/-- The number of tests made up to the end of a commodity's turn does not depend on their answers. -/
theorem updateCommodity_sameTests (naddr : Netaddr) (bprd : BprdT) {nlist : List Neighbor}
    {c : Commodity} (made : Nat) (entries : ∀ n ∈ nlist, ∃ e, entryOf n c = some e) :
    ∃ made', ∀ tie, ∃ c' routes, updateCommodity naddr bprd tie nlist made c = .ok (made', c', routes) := by
  by_cases own : netaddrCmp naddr c.cdata.addr = 0
  · exact ⟨made, fun tie => ⟨_, _, by rw [updateCommodity, if_pos own]⟩⟩
  · obtain ⟨s, _, ran, _⟩ := selectNexthop_sameCounts acceptTies acceptTies
      (s := ⟨0, 0, none, made⟩) (t := ⟨0, 0, none, made⟩) entries ⟨rfl, rfl, rfl⟩
    refine ⟨s.tests, fun tie => ?_⟩
    obtain ⟨t, u, ran', ran'', same⟩ := selectNexthop_sameCounts tie acceptTies
      (s := ⟨0, 0, none, made⟩) (t := ⟨0, 0, none, made⟩) entries ⟨rfl, rfl, rfl⟩
    rw [ran] at ran''
    cases ran''
    rw [updateCommodity, if_neg own, ran', ← same.tests]
    cases chosen : t.nopt with
    | none => exact ⟨{ c with backdiff := 0 }, [], by simp [bind, Except.bind, chosen]⟩
    | some n =>
        exact ⟨{ c with backdiff := t.diffopt }, [routeVia bprd c n],
          by simp [bind, Except.bind, chosen, routeVia]⟩

/-- Each commodity's scan in an update starts after a number of tests that does not depend on their
    answers. -/
theorem updateCommodities_at (naddr : Netaddr) (bprd : BprdT) {nlist : List Neighbor} {c : Commodity}
    {post : List Commodity} : ∀ {pre : List Commodity} (made : Nat),
      (∀ f ∈ pre ++ c :: post, ∀ n ∈ nlist, ∃ e, entryOf n f = some e) →
        ∃ start, ∀ tie, ∃ before after made' c' routes routes₁ routes₂,
          updateCommodity naddr bprd tie nlist start c = .ok (made', c', routes) ∧
            updateCommodities naddr bprd tie nlist made (pre ++ c :: post) =
              .ok (before ++ c' :: after, routes₁ ++ routes ++ routes₂) ∧ before.length = pre.length
  | [], made, entries => by
      obtain ⟨made', here⟩ := updateCommodity_sameTests naddr bprd made
        (entries c (List.mem_cons_self ..))
      refine ⟨made, fun tie => ?_⟩
      obtain ⟨c', routes, ran⟩ := here tie
      obtain ⟨after, routes₂, rest⟩ : ∃ after routes₂,
          updateCommodities naddr bprd tie nlist made' post = .ok (after, routes₂) :=
        updateCommodities_total fun f member => entries f (List.mem_cons_of_mem _ member)
      exact ⟨[], after, made', c', routes, [], routes₂, ran,
        updateCommodities_cons.mpr ⟨_, _, _, _, _, ran, rest, rfl, rfl⟩, rfl⟩
  | f :: pre, made, entries => by
      obtain ⟨made', here⟩ := updateCommodity_sameTests naddr bprd made
        (entries f (List.mem_cons_self ..))
      obtain ⟨start, later⟩ := updateCommodities_at naddr bprd made'
        (fun g member => entries g (List.mem_cons_of_mem _ member))
      refine ⟨start, fun tie => ?_⟩
      obtain ⟨f', routes₀, ran₀⟩ := here tie
      obtain ⟨before, after, last, c', routes, routes₁, routes₂, ran, rest, long⟩ := later tie
      refine ⟨f' :: before, after, last, c', routes, routes₀ ++ routes₁, routes₂, ran, ?_,
        congrArg Nat.succ long⟩
      exact updateCommodities_cons.mpr ⟨_, _, _, _, _, ran₀, rest, rfl, by simp⟩

/-- The scan for a commodity that starts after `made` tests ends with the neighbour `n` chosen. -/
def NexthopIs (tie : TieTest) (c : Commodity) (nlist : List Neighbor) (made : Nat) (n : Neighbor) : Prop :=
  ∃ s, selectNexthop tie c nlist { num := 0, diffopt := 0, nopt := none, tests := made } = .ok s ∧
    s.nopt = some n

theorem nexthopIs_iff {tie : TieTest} {c : Commodity} {nlist : List Neighbor} {made : Nat} {n : Neighbor}
    (entries : ∀ n ∈ nlist, ∃ e, entryOf n c = some e)
    (plain : ∀ n ∈ nlist, n.bidir ≠ 0 → n.addr ≠ c.cdata.addr) :
    NexthopIs tie c nlist made n ↔
      (Reservoir.scan tie.outcome (Reservoir.Scan.start made) (candidates c nlist)).choice = some n := by
  obtain ⟨s, selected, scanned⟩ := selectNexthop_scan tie made entries plain
  rw [← scanned]
  constructor
  · rintro ⟨s', selected', chosen⟩
    rw [selected] at selected'
    cases selected'
    exact chosen
  · exact fun chosen => ⟨s, selected, chosen⟩

section

variable {Ω : Type*} [MeasurableSpace Ω] {μ : Measure Ω}

/-- The scan chooses each neighbour with its share among the best ones. -/
theorem nexthopIs_share {tie : Ω → TieTest} {c : Commodity} {nlist : List Neighbor}
    (fair : Reservoir.FairTests μ fun ω => (tie ω).outcome)
    (entries : ∀ n ∈ nlist, ∃ e, entryOf n c = some e)
    (plain : ∀ n ∈ nlist, n.bidir ≠ 0 → n.addr ≠ c.cdata.addr) (made : Nat) (n : Neighbor) :
    μ {ω | NexthopIs (tie ω) c nlist made n} =
      (bestNeighbors c nlist).count n / (bestNeighbors c nlist).length := by
  simp only [nexthopIs_iff entries plain, bestNeighbors_eq_ties]
  exact Reservoir.choice_law fair (fun ω => (tie ω).first_accepted) made _ n

/-- Ties are broken uniformly: when no bidirectional neighbour is the destination, the scan chooses each
    of the best neighbours with the same probability, wherever in the update its tests begin. -/
theorem selectNexthop_uniform {tie : Ω → TieTest} {c : Commodity} {nlist : List Neighbor}
    (fair : Reservoir.FairTests μ fun ω => (tie ω).outcome)
    (entries : ∀ n ∈ nlist, ∃ e, entryOf n c = some e)
    (plain : ∀ n ∈ nlist, n.bidir ≠ 0 → n.addr ≠ c.cdata.addr) (made : Nat) :
    (∀ n, μ {ω | NexthopIs (tie ω) c nlist made n} =
      (bestNeighbors c nlist).count n / (bestNeighbors c nlist).length) ∧
    (nlist.Nodup → ∀ n ∈ bestNeighbors c nlist,
      μ {ω | NexthopIs (tie ω) c nlist made n} = 1 / (bestNeighbors c nlist).length) ∧
    ∀ n, n ∉ bestNeighbors c nlist → μ {ω | NexthopIs (tie ω) c nlist made n} = 0 := by
  have share := nexthopIs_share fair entries plain made
  refine ⟨share, ?_, ?_⟩
  · intro distinct n best
    have once : (bestNeighbors c nlist).count n = 1 :=
      List.count_eq_one_of_mem (distinct.filter _) best
    rw [share, once, Nat.cast_one]
  · intro n other
    rw [share, List.count_eq_zero_of_not_mem other, Nat.cast_zero, ENNReal.zero_div]

/-- The choice within a whole `router_update`: the scan for a commodity starts after the same number of
    tests in every run, and sets its route through each of the best neighbours equally often. -/
theorem routerUpdate_uniform {tie : Ω → TieTest} {leftover : Leftover} {bprd : BprdT} {c : Commodity}
    {pre post : List Commodity} {nlist : List Neighbor}
    (fair : Reservoir.FairTests μ fun ω => (tie ω).outcome)
    (first : bprd.clist.mapM updateBacklog = .ok (pre ++ c :: post))
    (second : bprd.nlist.mapM (updateNeighbor (pre ++ c :: post)) = .ok nlist)
    (entries : ∀ f ∈ pre ++ c :: post, ∀ n ∈ nlist, ∃ e, entryOf n f = some e)
    (plain : ∀ n ∈ nlist, n.bidir ≠ 0 → n.addr ≠ c.cdata.addr) :
    ∃ start,
      (∀ ω, ∃ bprd' made c' routes routes₁ routes₂,
        updateCommodity (copiedNetaddr leftover bprd.saddr) bprd (tie ω) nlist start c =
            .ok (made, c', routes) ∧
          routerUpdate (tie ω) leftover bprd = .ok (bprd', routes₁ ++ routes ++ routes₂)) ∧
      ∀ n, μ {ω | NexthopIs (tie ω) c nlist start n} =
        (bestNeighbors c nlist).count n / (bestNeighbors c nlist).length := by
  obtain ⟨start, turns⟩ :=
    updateCommodities_at (copiedNetaddr leftover bprd.saddr) bprd 0 entries
  refine ⟨start, ?_, ?_⟩
  · intro ω
    obtain ⟨before, after, made, c', routes, routes₁, routes₂, turn, third, _⟩ := turns (tie ω)
    exact ⟨_, made, c', routes, routes₁, routes₂, turn,
      routerUpdate_ok.mpr ⟨_, nlist, _, first, second, third, rfl⟩⟩
  · exact nexthopIs_share fair (entries c (by simp)) plain start

end

/-- The source's test `rand()/RAND_MAX >= (num-1)/num` where the k-th quotient is `ω k`. -/
noncomputable def idealRand (ω : Nat → unitInterval) : TieTest where
  outcome k num := decide (((num : ℝ) - 1) / num ≤ (ω k : ℝ))
  first_accepted k := by simpa using (ω k).2.1

/-- Independent quotients, each uniform on the unit interval. -/
noncomputable def idealLaw : Measure (Nat → unitInterval) := Measure.infinitePi fun _ => volume

theorem measurable_test (num : Nat) :
    Measurable fun u : unitInterval => decide (((num : ℝ) - 1) / num ≤ (u : ℝ)) := by
  apply measurable_to_bool
  have event : Set.preimage (fun u : unitInterval => decide (((num : ℝ) - 1) / num ≤ (u : ℝ))) {true} =
      {u : unitInterval | ((num : ℝ) - 1) / num ≤ (u : ℝ)} := by
    ext u
    simp
  rw [event]
  exact measurableSet_le measurable_const measurable_subtype_coe

/-- On an ideal `rand()` the source's test accepts the num-th tie with probability `1 / num`. -/
theorem test_fair {num : Nat} (positive : 0 < num) :
    volume {u : unitInterval | ((num : ℝ) - 1) / num ≤ (u : ℝ)} = (num : ℝ≥0∞)⁻¹ := by
  have above : (0 : ℝ) < num := Nat.cast_pos.mpr positive
  have atLeastOne : (1 : ℝ) ≤ num := Nat.one_le_cast.mpr positive
  have threshold : ((num : ℝ) - 1) / num ∈ unitInterval := by
    constructor
    · exact div_nonneg (by linarith) above.le
    · rw [div_le_one above]
      linarith
  have interval : {u : unitInterval | ((num : ℝ) - 1) / num ≤ (u : ℝ)} =
      Set.Ici (⟨((num : ℝ) - 1) / num, threshold⟩ : unitInterval) := rfl
  have remaining : 1 - ((num : ℝ) - 1) / num = (num : ℝ)⁻¹ := by
    field_simp
    ring
  rw [interval, unitInterval.volume_Ici, remaining, ENNReal.ofReal_inv_of_pos above,
    ENNReal.ofReal_natCast]

theorem idealRand_fair : Reservoir.FairTests idealLaw fun ω => (idealRand ω).outcome where
  measurable k num := (measurable_test num).comp (measurable_pi_apply k)
  fair k num positive := by
    have law := measurePreserving_eval_infinitePi (fun _ : Nat => (volume : Measure unitInterval)) k
    have event : {ω : Nat → unitInterval | (idealRand ω).outcome k num = true} =
        Set.preimage (Function.eval k) {u : unitInterval | ((num : ℝ) - 1) / num ≤ (u : ℝ)} := by
      ext ω
      simp [idealRand]
    have known : MeasurableSet {u : unitInterval | ((num : ℝ) - 1) / num ≤ (u : ℝ)} :=
      measurableSet_le measurable_const measurable_subtype_coe
    rw [event, idealLaw, law.measure_preimage known.nullMeasurableSet, test_fair positive]
  independent num := by
    have all := iIndepFun_infinitePi (P := fun _ : Nat => (volume : Measure unitInterval))
      (X := fun k u => decide (((num k : ℝ) - 1) / num k ≤ (u : ℝ))) fun k => measurable_test (num k)
    exact all

def tiedCommodity : Commodity :=
  { cdata := ⟨host4 [10, 0, 0, 9], 7⟩, backdiff := 0, nfqId := 0, queue := none }

/-- A neighbour at 10.0.0.`last` that offers `backdiff` for the commodity. -/
def tiedNeighbor (last bidir : UInt8) (backdiff : UInt32) : Neighbor :=
  { addr := host4 [10, 0, 0, last], bidir := bidir, updateTime := ⟨0, 0⟩,
    clist := [{ tiedCommodity with backdiff := backdiff }] }

/-- Two of the neighbours tie at 5; one offers less, and one that offers more is not bidirectional. -/
def tiedNeighbors : List Neighbor :=
  [tiedNeighbor 1 1 2, tiedNeighbor 2 1 5, tiedNeighbor 3 0 9, tiedNeighbor 4 1 5]

/-- On an ideal `rand()` each of the two tied neighbours is chosen with probability 1/2. -/
theorem tiedNeighbors_uniform :
    bestNeighbors tiedCommodity tiedNeighbors = [tiedNeighbor 2 1 5, tiedNeighbor 4 1 5] ∧
      (∀ n ∈ [tiedNeighbor 2 1 5, tiedNeighbor 4 1 5],
        idealLaw {ω | NexthopIs (idealRand ω) tiedCommodity tiedNeighbors 0 n} = 1 / 2) ∧
      idealLaw {ω | NexthopIs (idealRand ω) tiedCommodity tiedNeighbors 0 (tiedNeighbor 3 0 9)} = 0 := by
  have best : bestNeighbors tiedCommodity tiedNeighbors = [tiedNeighbor 2 1 5, tiedNeighbor 4 1 5] := by
    decide
  have entries : ∀ n ∈ tiedNeighbors, ∃ e, entryOf n tiedCommodity = some e := by
    have listed : ∀ n ∈ tiedNeighbors, (entryOf n tiedCommodity).isSome = true := by decide
    exact fun n member => Option.isSome_iff_exists.mp (listed n member)
  have plain : ∀ n ∈ tiedNeighbors, n.bidir ≠ 0 → n.addr ≠ tiedCommodity.cdata.addr := by decide
  obtain ⟨_, each, others⟩ := selectNexthop_uniform idealRand_fair entries plain 0
  refine ⟨best, ?_, ?_⟩
  · intro n member
    rw [each (by decide) n (best ▸ member), best]
    simp
  · exact others _ (by rw [best]; decide)

end Bprd
