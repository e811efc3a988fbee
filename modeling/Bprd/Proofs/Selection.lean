/-
Module: Bprd.Proofs.Selection
Layer: Proofs
Purpose: What the next-hop scan selects. Only bidirectional neighbours are offered; the first of them that
  is the commodity's destination ends the scan; otherwise the scan ends with the largest offered
  differential and a neighbour that offers it, whatever the tie test answers.
Imports: Bprd.Proofs.NodeFrame
Trusted boundary: none
Main exports: entryOf, offered, selectNexthop_total, scanNexthop, scanNexthop_max, selectNexthop_max,
  selectNexthop_destination, updateCommodity_selected
-/
import Bprd.Proofs.NodeFrame

namespace Bprd

/-- What a neighbour recorded for a commodity. -/
def entryOf (n : Neighbor) (c : Commodity) : Option Commodity :=
  n.clist.find? fun f => decide (f.cdata.addr = c.cdata.addr)

/-- The differential a neighbour offers in the scan for a commodity: none unless it is bidirectional. -/
def offered (c : Commodity) (n : Neighbor) : Option UInt32 :=
  if n.bidir = 0 then none else (entryOf n c).map Commodity.backdiff

theorem entryOf_addr {n : Neighbor} {c e : Commodity} (found : entryOf n c = some e) :
    e.cdata.addr = c.cdata.addr := by
  have same := List.find?_some found
  exact of_decide_eq_true same

theorem offered_eq_some_iff {c : Commodity} {n : Neighbor} {d : UInt32} :
    offered c n = some d ↔ n.bidir ≠ 0 ∧ ∃ e, entryOf n c = some e ∧ e.backdiff = d := by
  unfold offered
  split
  · rename_i oneWay
    simp [oneWay]
  · rename_i twoWay
    simp [twoWay]

section

variable {tie : TieTest} {c : Commodity} {n : Neighbor} {rest nlist : List Neighbor}
  {s s' : Selection} {e : Commodity}

theorem selectNexthop_missing (found : entryOf n c = none) :
    selectNexthop tie c (n :: rest) s =
      .error (.logErr "I know about a commodity that my neighbor doesn't!") := by
  rw [selectNexthop, clistFind_pointee]
  simp only [entryOf] at found
  rw [found]

theorem selectNexthop_oneWay (found : entryOf n c = some e) (oneWay : n.bidir = 0) :
    selectNexthop tie c (n :: rest) s = selectNexthop tie c rest s := by
  rw [selectNexthop, clistFind_pointee]
  simp only [entryOf] at found
  rw [found]
  exact if_pos oneWay

theorem selectNexthop_atDestination (found : entryOf n c = some e) (twoWay : n.bidir ≠ 0)
    (destination : n.addr = c.cdata.addr) :
    selectNexthop tie c (n :: rest) s = .ok { s with nopt := some n, diffopt := e.backdiff } := by
  have same : n.addr = e.cdata.addr := destination.trans (entryOf_addr found).symm
  rw [selectNexthop, clistFind_pointee]
  simp only [entryOf] at found
  rw [found]
  dsimp only
  rw [if_neg twoWay, if_pos (netaddrCmp_eq_zero.mpr same)]

theorem selectNexthop_compare (found : entryOf n c = some e) (twoWay : n.bidir ≠ 0)
    (elsewhere : n.addr ≠ c.cdata.addr) :
    selectNexthop tie c (n :: rest) s =
      if e.backdiff < s.diffopt then selectNexthop tie c rest s
      else
        let num := if e.backdiff = s.diffopt then s.num + 1 else 1
        if tie.outcome s.tests num then
          selectNexthop tie c rest
            { num := num, diffopt := e.backdiff, nopt := some n, tests := s.tests + 1 }
        else selectNexthop tie c rest { s with num := num, tests := s.tests + 1 } := by
  have differ : n.addr ≠ e.cdata.addr := fun same => elsewhere (same.trans (entryOf_addr found))
  rw [selectNexthop, clistFind_pointee]
  simp only [entryOf] at found
  rw [found]
  dsimp only
  rw [if_neg twoWay, if_neg fun same => differ (netaddrCmp_eq_zero.mp same)]

/-- The scan completes when every neighbour has the commodity. -/
theorem selectNexthop_total : ∀ {nlist : List Neighbor} {s : Selection},
    (∀ n ∈ nlist, ∃ e, entryOf n c = some e) → ∃ s', selectNexthop tie c nlist s = .ok s'
  | [], s, _ => ⟨s, rfl⟩
  | n :: rest, s, entries => by
      obtain ⟨e, found⟩ := entries n (List.mem_cons_self ..)
      have later : ∀ s, ∃ s', selectNexthop tie c rest s = .ok s' := fun s =>
        selectNexthop_total fun m member => entries m (List.mem_cons_of_mem _ member)
      by_cases oneWay : n.bidir = 0
      · rw [selectNexthop_oneWay found oneWay]
        exact later s
      · by_cases destination : n.addr = c.cdata.addr
        · exact ⟨_, selectNexthop_atDestination found oneWay destination⟩
        · rw [selectNexthop_compare found oneWay destination]
          dsimp only
          repeat' split
          all_goals exact later _

/-- The state of a scan that has not chosen yet. -/
def Selection.Unchosen (s : Selection) : Prop := s.nopt = none → s.num = 0 ∧ s.diffopt = 0

/-- What a scan over neighbours none of which is the destination ends with. -/
structure MaxSelected (c : Commodity) (nlist : List Neighbor) (s s' : Selection) : Prop where
  grows : s.diffopt ≤ s'.diffopt
  upper : ∀ n ∈ nlist, ∀ d, offered c n = some d → d ≤ s'.diffopt
  attained : (s'.nopt = s.nopt ∧ s'.diffopt = s.diffopt) ∨
    ∃ n ∈ nlist, s'.nopt = some n ∧ offered c n = some s'.diffopt
  chosen : s.Unchosen → s.nopt ≠ none ∨ (∃ n ∈ nlist, n.bidir ≠ 0) → s'.nopt ≠ none

/-- A neighbour that is passed over keeps the state, up to the tie counters. -/
theorem MaxSelected.skip {t : Selection} (later : MaxSelected c rest t s')
    (nopt : t.nopt = s.nopt) (diffopt : t.diffopt = s.diffopt)
    (small : ∀ d, offered c n = some d → d ≤ s.diffopt)
    (unchosen : s.Unchosen → t.Unchosen ∧ (n.bidir ≠ 0 → s.nopt ≠ none)) :
    MaxSelected c (n :: rest) s s' := by
  have grows : s.diffopt ≤ s'.diffopt := diffopt ▸ later.grows
  refine ⟨grows, ?_, ?_, ?_⟩
  · intro m member d offer
    rcases List.mem_cons.mp member with rfl | behind
    · exact UInt32.le_trans (small d offer) grows
    · exact later.upper m behind d offer
  · rcases later.attained with ⟨same, best⟩ | ⟨m, member, picked, offer⟩
    · exact .inl ⟨same.trans nopt, best.trans diffopt⟩
    · exact .inr ⟨m, List.mem_cons_of_mem _ member, picked, offer⟩
  · intro start candidate
    obtain ⟨start', picked⟩ := unchosen start
    apply later.chosen start'
    rcases candidate with already | ⟨m, member, twoWay⟩
    · exact .inl (nopt ▸ already)
    · rcases List.mem_cons.mp member with rfl | behind
      · exact .inl (nopt ▸ picked twoWay)
      · exact .inr ⟨m, behind, twoWay⟩

/-- A neighbour that is accepted becomes the best so far. -/
theorem MaxSelected.accept {t : Selection} (later : MaxSelected c rest t s')
    (nopt : t.nopt = some n) (offer : offered c n = some t.diffopt)
    (large : s.diffopt ≤ t.diffopt) : MaxSelected c (n :: rest) s s' := by
  refine ⟨UInt32.le_trans large later.grows, ?_, ?_, ?_⟩
  · intro m member d offer'
    rcases List.mem_cons.mp member with rfl | behind
    · rw [offer] at offer'
      cases offer'
      exact later.grows
    · exact later.upper m behind d offer'
  · rcases later.attained with ⟨same, best⟩ | ⟨m, member, picked, offer'⟩
    · exact .inr ⟨n, List.mem_cons_self .., same.trans nopt, best ▸ offer⟩
    · exact .inr ⟨m, List.mem_cons_of_mem _ member, picked, offer'⟩
  · intro _ _
    have picked : t.nopt ≠ none := by simp [nopt]
    exact later.chosen (fun unset => absurd unset picked) (.inl picked)

/-- The scan without the early end at the destination. -/
def scanNexthop (tie : TieTest) (c : Commodity) :
    List Neighbor → Selection → Except Fault Selection
  | [], s => .ok s
  | n :: rest, s =>
      match entryOf n c with
      | none => .error (.logErr "I know about a commodity that my neighbor doesn't!")
      | some e =>
          if n.bidir = 0 then scanNexthop tie c rest s
          else if e.backdiff < s.diffopt then scanNexthop tie c rest s
          else
            let num := if e.backdiff = s.diffopt then s.num + 1 else 1
            if tie.outcome s.tests num then
              scanNexthop tie c rest
                { num := num, diffopt := e.backdiff, nopt := some n, tests := s.tests + 1 }
            else scanNexthop tie c rest { s with num := num, tests := s.tests + 1 }

theorem scanNexthop_missing (found : entryOf n c = none) :
    scanNexthop tie c (n :: rest) s =
      .error (.logErr "I know about a commodity that my neighbor doesn't!") := by
  rw [scanNexthop, found]

theorem scanNexthop_oneWay (found : entryOf n c = some e) (oneWay : n.bidir = 0) :
    scanNexthop tie c (n :: rest) s = scanNexthop tie c rest s := by
  rw [scanNexthop, found]
  exact if_pos oneWay

theorem scanNexthop_compare (found : entryOf n c = some e) (twoWay : n.bidir ≠ 0) :
    scanNexthop tie c (n :: rest) s =
      if e.backdiff < s.diffopt then scanNexthop tie c rest s
      else
        let num := if e.backdiff = s.diffopt then s.num + 1 else 1
        if tie.outcome s.tests num then
          scanNexthop tie c rest
            { num := num, diffopt := e.backdiff, nopt := some n, tests := s.tests + 1 }
        else scanNexthop tie c rest { s with num := num, tests := s.tests + 1 } := by
  rw [scanNexthop, found]
  exact if_neg twoWay

/-- Where no bidirectional neighbour is the destination, the early end never happens. -/
theorem selectNexthop_eq_scan : ∀ {nlist : List Neighbor} {s : Selection},
    (∀ n ∈ nlist, n.bidir ≠ 0 → n.addr ≠ c.cdata.addr) →
      selectNexthop tie c nlist s = scanNexthop tie c nlist s
  | [], s, _ => rfl
  | n :: rest, s, plain => by
      have later : ∀ t, selectNexthop tie c rest t = scanNexthop tie c rest t := fun t =>
        selectNexthop_eq_scan fun m member => plain m (List.mem_cons_of_mem _ member)
      cases found : entryOf n c with
      | none => rw [selectNexthop_missing found, scanNexthop_missing found]
      | some e =>
          by_cases oneWay : n.bidir = 0
          · rw [selectNexthop_oneWay found oneWay, scanNexthop_oneWay found oneWay, later]
          · rw [selectNexthop_compare found oneWay (plain n (List.mem_cons_self ..) oneWay),
              scanNexthop_compare found oneWay]
            simp only [later]

/-- The plain scan completes when every neighbour has the commodity. -/
theorem scanNexthop_total : ∀ {nlist : List Neighbor} {s : Selection},
    (∀ n ∈ nlist, ∃ e, entryOf n c = some e) → ∃ s', scanNexthop tie c nlist s = .ok s'
  | [], s, _ => ⟨s, rfl⟩
  | n :: rest, s, entries => by
      obtain ⟨e, found⟩ := entries n (List.mem_cons_self ..)
      have later : ∀ s, ∃ s', scanNexthop tie c rest s = .ok s' := fun s =>
        scanNexthop_total fun m member => entries m (List.mem_cons_of_mem _ member)
      by_cases oneWay : n.bidir = 0
      · rw [scanNexthop_oneWay found oneWay]
        exact later s
      · rw [scanNexthop_compare found oneWay]
        dsimp only
        repeat' split
        all_goals exact later _

/-- The plain scan ends with the largest offered differential. -/
theorem scanNexthop_max : ∀ {nlist : List Neighbor} {s s' : Selection},
    scanNexthop tie c nlist s = .ok s' → MaxSelected c nlist s s'
  | [], s, s', ran => by
      cases ran
      exact ⟨UInt32.le_refl _, by simp, .inl ⟨rfl, rfl⟩, by simp⟩
  | n :: rest, s, s', ran => by
      cases found : entryOf n c with
      | none =>
          rw [scanNexthop_missing found] at ran
          cases ran
      | some e =>
          by_cases oneWay : n.bidir = 0
          · rw [scanNexthop_oneWay found oneWay] at ran
            refine (scanNexthop_max ran).skip rfl rfl ?_ ?_
            · intro d offer
              exact absurd oneWay (offered_eq_some_iff.mp offer).1
            · exact fun start => ⟨start, fun twoWay => absurd oneWay twoWay⟩
          · have offer : offered c n = some e.backdiff :=
              offered_eq_some_iff.mpr ⟨oneWay, e, found, rfl⟩
            rw [scanNexthop_compare found oneWay] at ran
            by_cases smaller : e.backdiff < s.diffopt
            · rw [if_pos smaller] at ran
              refine (scanNexthop_max ran).skip rfl rfl ?_ ?_
              · intro d offer'
                rw [offer] at offer'
                cases offer'
                exact UInt32.le_of_lt smaller
              · refine fun start => ⟨start, fun _ unset => ?_⟩
                rw [(start unset).2] at smaller
                exact absurd smaller (UInt32.not_lt.mpr (UInt32.zero_le))
            · rw [if_neg smaller] at ran
              dsimp only at ran
              by_cases accepted : tie.outcome s.tests
                  (if e.backdiff = s.diffopt then s.num + 1 else 1) = true
              · rw [if_pos accepted] at ran
                exact (scanNexthop_max ran).accept rfl offer (UInt32.not_lt.mp smaller)
              · rw [if_neg accepted] at ran
                -- Only a tie can be rejected, and not the first candidate of all.
                have tied : e.backdiff = s.diffopt := by
                  by_contra strict
                  rw [if_neg strict] at accepted
                  exact accepted (tie.first_accepted _)
                have again : s.Unchosen → s.nopt ≠ none := by
                  intro start unset
                  rw [if_pos tied, (start unset).1] at accepted
                  exact accepted (tie.first_accepted _)
                refine (scanNexthop_max ran).skip rfl rfl ?_ ?_
                · intro d offer'
                  rw [offer] at offer'
                  cases offer'
                  exact UInt32.le_of_eq tied
                · exact fun start => ⟨fun unset => absurd unset (again start), fun _ => again start⟩

/-- The scan ends with the largest offered differential when no bidirectional neighbour is the
    destination. -/
theorem selectNexthop_max {nlist : List Neighbor}
    (plain : ∀ n ∈ nlist, n.bidir ≠ 0 → n.addr ≠ c.cdata.addr)
    (ran : selectNexthop tie c nlist s = .ok s') : MaxSelected c nlist s s' := by
  rw [selectNexthop_eq_scan plain] at ran
  exact scanNexthop_max ran

/-- The scan stops at the first bidirectional neighbour that is the destination. -/
theorem selectNexthop_destination : ∀ {nlist : List Neighbor} {s s' : Selection},
    (∃ n ∈ nlist, n.bidir ≠ 0 ∧ n.addr = c.cdata.addr) →
      selectNexthop tie c nlist s = .ok s' →
        ∃ n ∈ nlist, n.addr = c.cdata.addr ∧ s'.nopt = some n ∧ offered c n = some s'.diffopt
  | [], s, s', destination, _ => by
      obtain ⟨n, member, _⟩ := destination
      cases member
  | n :: rest, s, s', destination, ran => by
      have later : ∀ {t}, ¬(n.bidir ≠ 0 ∧ n.addr = c.cdata.addr) →
          selectNexthop tie c rest t = .ok s' →
          ∃ m ∈ n :: rest, m.addr = c.cdata.addr ∧ s'.nopt = some m ∧
            offered c m = some s'.diffopt := by
        intro t notHere ranLater
        have behind : ∃ m ∈ rest, m.bidir ≠ 0 ∧ m.addr = c.cdata.addr := by
          obtain ⟨m, member, isDestination⟩ := destination
          rcases List.mem_cons.mp member with rfl | behind
          · exact absurd isDestination notHere
          · exact ⟨m, behind, isDestination⟩
        obtain ⟨m, member, result⟩ := selectNexthop_destination behind ranLater
        exact ⟨m, List.mem_cons_of_mem _ member, result⟩
      cases found : entryOf n c with
      | none =>
          rw [selectNexthop_missing found] at ran
          cases ran
      | some e =>
          by_cases oneWay : n.bidir = 0
          · rw [selectNexthop_oneWay found oneWay] at ran
            exact later (fun here => here.1 oneWay) ran
          · by_cases here : n.addr = c.cdata.addr
            · rw [selectNexthop_atDestination found oneWay here] at ran
              cases ran
              exact ⟨n, List.mem_cons_self .., here, rfl, offered_eq_some_iff.mpr ⟨oneWay, e, found, rfl⟩⟩
            · rw [selectNexthop_compare found oneWay here] at ran
              dsimp only at ran
              have notHere : ¬(n.bidir ≠ 0 ∧ n.addr = c.cdata.addr) := fun both => here both.2
              by_cases smaller : e.backdiff < s.diffopt
              · rw [if_pos smaller] at ran
                exact later notHere ran
              · rw [if_neg smaller] at ran
                by_cases accepted : tie.outcome s.tests
                    (if e.backdiff = s.diffopt then s.num + 1 else 1) = true
                · rw [if_pos accepted] at ran
                  exact later notHere ran
                · rw [if_neg accepted] at ran
                  exact later notHere ran

end

/-- The route set when `n` is chosen for a commodity. -/
def routeVia (bprd : BprdT) (c : Commodity) (n : Neighbor) : RouteUpdate :=
  routerRouteUpdate (netaddrToSocket c.cdata.addr).2 (some (netaddrToSocket n.addr).2) bprd.ipver
    bprd.ifIndex

/-- What an update stores for a commodity that is not destined to this node: 0 when no neighbour is
    bidirectional; otherwise the differential that the chosen neighbour offers, and the chosen neighbour
    is the destination, or no bidirectional neighbour is and none offers more. -/
theorem updateCommodity_selected {naddr : Netaddr} {bprd : BprdT} {tie : TieTest} {nlist : List Neighbor}
    {tests tests' : Nat} {c c' : Commodity} {routes : List RouteUpdate}
    (forOthers : naddr ≠ c.cdata.addr)
    (ran : updateCommodity naddr bprd tie nlist tests c = .ok (tests', c', routes)) :
    ((∀ n ∈ nlist, n.bidir = 0) ∧ c' = { c with backdiff := 0 } ∧ routes = []) ∨
      ∃ n ∈ nlist, ∃ d, offered c n = some d ∧ c' = { c with backdiff := d } ∧
        routes = [routeVia bprd c n] ∧
        (n.addr = c.cdata.addr ∨
          (∀ m ∈ nlist, m.bidir ≠ 0 → m.addr ≠ c.cdata.addr) ∧
            ∀ m ∈ nlist, ∀ d', offered c m = some d' → d' ≤ d) := by
  rw [updateCommodity, if_neg fun own => forOthers (netaddrCmp_eq_zero.mp own)] at ran
  obtain ⟨s, selected, chosen⟩ := Fallible.bind_eq_ok_iff.mp ran
  by_cases destination : ∃ n ∈ nlist, n.bidir ≠ 0 ∧ n.addr = c.cdata.addr
  · obtain ⟨n, member, here, picked, offer⟩ := selectNexthop_destination destination selected
    rw [picked] at chosen
    cases chosen
    exact .inr ⟨n, member, s.diffopt, offer, rfl, rfl, .inl here⟩
  · have plain : ∀ n ∈ nlist, n.bidir ≠ 0 → n.addr ≠ c.cdata.addr :=
      fun n member twoWay here => destination ⟨n, member, twoWay, here⟩
    have best := selectNexthop_max plain selected
    by_cases twoWay : ∃ n ∈ nlist, n.bidir ≠ 0
    · have picked : s.nopt ≠ none := best.chosen (fun _ => ⟨rfl, rfl⟩) (.inr twoWay)
      rcases best.attained with ⟨unchanged, _⟩ | ⟨n, member, isPicked, offer⟩
      · exact absurd unchanged picked
      · rw [isPicked] at chosen
        cases chosen
        exact .inr ⟨n, member, s.diffopt, offer, rfl, rfl, .inr ⟨plain, best.upper⟩⟩
    · have oneWay : ∀ n ∈ nlist, n.bidir = 0 := by
        intro n member
        by_contra isTwoWay
        exact twoWay ⟨n, member, isTwoWay⟩
      rcases best.attained with ⟨unchanged, _⟩ | ⟨n, member, _, offer⟩
      · rw [unchanged] at chosen
        cases chosen
        exact .inl ⟨oneWay, rfl, rfl⟩
      · exact absurd (oneWay n member) (offered_eq_some_iff.mp offer).1

/-- A tie test that accepts every candidate. -/
def acceptTies : TieTest := ⟨fun _ _ => true, fun _ => rfl⟩

end Bprd
