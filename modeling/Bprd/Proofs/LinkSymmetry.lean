/-
Module: Bprd.Proofs.LinkSymmetry
Layer: Proofs
Purpose: Whether the bidirectional flag of a neighbour follows its last hello. The reader only ever sets
  the flag, and it does so when it takes a listed address for the own one. So the flags are current exactly
  in the runs where every hello lists this node if and only if its sender has the flag already or the
  reader recognises the node in it. Over IPv4 this says that no neighbour with the flag sends a hello that
  does not list this node.
Imports: Bprd.Proofs.TableHistory, Bprd.Proofs.RouterUpdate
Trusted boundary: none
Main exports: lastHello, SymmetryCurrent, LinksRecognised, linksRecognised_inet, link_symmetry_current_iff
-/
import Bprd.Proofs.TableHistory
import Bprd.Proofs.RouterUpdate

namespace Bprd

/-- The hello an event is, when it comes from `a`. -/
def heardFrom (a : Netaddr) : TableEvent → Option Hello
  | .heard _ hello => if hello.sender = a then some hello else none
  | .expired _ => none

/-- The most recent hello processed from `a`. -/
def lastHello (a : Netaddr) (events : List TableEvent) : Option Hello :=
  (events.filterMap (heardFrom a)).getLast?

theorem lastHello_heard (a : Netaddr) (events : List TableEvent) (time : Timeval) (hello : Hello) :
    lastHello a (events ++ [.heard time hello]) =
      if hello.sender = a then some hello else lastHello a events := by
  by_cases from_a : hello.sender = a
  · simp [lastHello, heardFrom, from_a]
  · simp [lastHello, heardFrom, from_a]

theorem lastHello_expired (a : Netaddr) (events : List TableEvent) (gone : Netaddr → Bool) :
    lastHello a (events ++ [.expired gone]) = lastHello a events := by
  simp [lastHello, heardFrom]

/-- The most recent hello processed from `a` lists `own`. -/
def ListedLast (own a : Netaddr) (events : List TableEvent) : Prop :=
  ∃ hello, lastHello a events = some hello ∧ own ∈ hello.listed

theorem listedLast_heard {own a : Netaddr} {events : List TableEvent} {time : Timeval} {hello : Hello} :
    ListedLast own a (events ++ [.heard time hello]) ↔
      if hello.sender = a then own ∈ hello.listed else ListedLast own a events := by
  rw [ListedLast, lastHello_heard]
  split
  · simp
  · rfl

/-- Every flag follows the last hello, and routes only go through neighbours whose last hello listed
    this node. -/
structure SymmetryCurrent (own : Netaddr) (events : List TableEvent) (bprd : BprdT) : Prop where
  flags : ∀ n ∈ bprd.nlist, n.bidir = 1 ↔ ListedLast own n.addr events
  routes : ∀ {tie leftover bprd' routes}, routerUpdate tie leftover bprd = .ok (bprd', routes) →
    ∀ route ∈ routes, ∃ c ∈ bprd.clist, ∃ n ∈ bprd.nlist, SetsRoute bprd c.cdata.addr n.addr route ∧
      ListedLast own n.addr events

/-- Every hello lists this node if and only if its sender has the flag already or the reader takes one of
    the listed addresses for the own one. -/
def LinksRecognised (order : Words.ByteOrder) (start : BprdT) (ops : List HelloOp) : Prop :=
  ∀ {before ambient m after bprd trace}, ops = before ++ .hello ambient m :: after →
    Runs.run (helloStep order) start before = .ok (bprd, trace) →
      (ownNetaddr start.saddr ∈ (helloOf start.ipver order m).listed ↔
        (∃ n ∈ bprd.nlist, n.addr = (helloOf start.ipver order m).sender ∧ n.bidir = 1) ∨
          recognises ambient start.saddr 0 (helloOf start.ipver order m).listed = true)

/-- No hello that does not list this node is processed from a neighbour whose flag is set. -/
def LinksStayListed (order : Words.ByteOrder) (start : BprdT) (ops : List HelloOp) : Prop :=
  ∀ {before ambient m after bprd trace}, ops = before ++ .hello ambient m :: after →
    Runs.run (helloStep order) start before = .ok (bprd, trace) →
      ∀ n ∈ bprd.nlist, n.addr = (helloOf start.ipver order m).sender → n.bidir = 1 →
        ownNetaddr start.saddr ∈ (helloOf start.ipver order m).listed

/-- Over IPv4 the reader recognises the node wherever it is listed. -/
theorem linksRecognised_inet {order : Words.ByteOrder} {start : BprdT} {ops : List HelloOp}
    (inet : start.saddr.family = afInet) :
    LinksRecognised order start ops ↔ LinksStayListed order start ops := by
  constructor
  · intro recognised before ambient m after bprd trace split ran n member sender isSet
    exact (recognised split ran).mpr (.inl ⟨n, member, sender, isSet⟩)
  · intro stay before ambient m after bprd trace split ran
    rw [recognises_inet inet]
    constructor
    · exact .inr
    · rintro (⟨n, member, sender, isSet⟩ | lists)
      · exact stay split ran n member sender isSet
      · exact lists

/-- Every state that a prefix of a run reaches. -/
def EveryState (order : Words.ByteOrder) (start : BprdT) (ops : List HelloOp)
    (holds : List TableEvent → BprdT → Prop) : Prop :=
  ∀ {before after bprd trace}, ops = before ++ after →
    Runs.run (helloStep order) start before = .ok (bprd, trace) → holds (eventsOf trace) bprd

/-! ### Flags of a table -/

/-- The table shows an address as bidirectional. -/
def TableView.Flagged (table : TableView) (a : Netaddr) : Prop := ∃ v, table a = some v ∧ v.bidir = 1

/-- The flag of every entry follows the last hello. -/
def FlagsCurrent (own : Netaddr) (events : List TableEvent) (table : TableView) : Prop :=
  ∀ a, table a ≠ none → (table.Flagged a ↔ ListedLast own a events)

/-- Every flag is 0 or 1. -/
def FlagsBinary (table : TableView) : Prop := ∀ a v, table a = some v → v.bidir = 0 ∨ v.bidir = 1

section

variable {own : Netaddr} {events : List TableEvent} {table : TableView} {time : Timeval}
  {hello seen : Hello}

theorem flagged_hear_self :
    (table.hear own time hello).Flagged hello.sender ↔ own ∈ hello.listed ∨ table.Flagged hello.sender := by
  rw [TableView.Flagged, TableView.hear, Function.update_self]
  simp only [Option.some.injEq, exists_eq_left', NeighborView.absorb, TableView.Flagged]
  by_cases lists : own ∈ hello.listed
  · simp [lists]
  · cases known : table hello.sender with
    | none => simp [lists, NeighborView.fresh]
    | some v => simp [lists]

/-- A hello keeps the flags current if it lists the node exactly when its sender is shown as
    bidirectional afterwards. -/
theorem FlagsCurrent.hear (older : FlagsCurrent own events table) (same : seen.sender = hello.sender)
    (agrees : own ∈ hello.listed ↔ table.Flagged hello.sender ∨ own ∈ seen.listed) :
    FlagsCurrent own (events ++ [.heard time hello]) (table.hear own time seen) := by
  intro a present
  rw [listedLast_heard]
  by_cases from_a : hello.sender = a
  · rw [if_pos from_a, agrees, ← from_a, ← same, flagged_hear_self, or_comm]
  · have other : a ≠ seen.sender := by
      rw [same]
      exact Ne.symm from_a
    rw [TableView.hear, Function.update_of_ne other] at present
    rw [if_neg from_a, ← older a present, TableView.Flagged, TableView.Flagged, TableView.hear,
      Function.update_of_ne other]

/-- The other way round: this is what current flags say of the last hello. -/
theorem FlagsCurrent.of_hear (same : seen.sender = hello.sender)
    (current : FlagsCurrent own (events ++ [.heard time hello]) (table.hear own time seen)) :
    own ∈ hello.listed ↔ table.Flagged hello.sender ∨ own ∈ seen.listed := by
  have present : table.hear own time seen hello.sender ≠ none := by
    rw [← same, TableView.hear, Function.update_self]
    exact Option.some_ne_none _
  have follows := current hello.sender present
  rw [listedLast_heard, if_pos rfl, ← same, flagged_hear_self, or_comm, same] at follows
  exact follows.symm

theorem FlagsCurrent.expire (older : FlagsCurrent own events table) (gone : Netaddr → Bool) :
    FlagsCurrent own (events ++ [.expired gone]) (table.expire gone) := by
  intro a present
  have stays : table.expire gone a = table a := by
    rw [TableView.expire] at present ⊢
    split at present
    · exact absurd rfl present
    · rename_i kept
      exact if_neg kept
  rw [stays] at present
  rw [ListedLast, lastHello_expired, TableView.Flagged, stays]
  exact older a present

theorem FlagsBinary.step (binary : FlagsBinary table) (event : TableEvent) :
    FlagsBinary (table.step own event) := by
  intro a v entry
  cases event with
  | expired gone =>
      rw [TableView.step, TableView.expire] at entry
      split at entry
      · cases entry
      · exact binary a v entry
  | heard time hello =>
      rw [TableView.step, TableView.hear] at entry
      by_cases here : a = hello.sender
      · rw [here, Function.update_self] at entry
        cases entry
        rw [NeighborView.absorb]
        dsimp only
        split
        · exact .inr rfl
        · cases known : table hello.sender with
          | none => exact .inl rfl
          | some v => exact binary _ v known
      · rw [Function.update_of_ne here] at entry
        exact binary a v entry

end

theorem WellKept.tableView_eq_some_iff {nlist : List Neighbor} (wellKept : WellKept nlist) {a : Netaddr}
    {v : NeighborView} : tableView nlist a = some v ↔ ∃ n ∈ nlist, n.addr = a ∧ n.view = v := by
  rw [tableView, Option.map_eq_some_iff]
  simp only [wellKept.neighbors.lookup_eq_some_iff, and_assoc]

theorem WellKept.flagged_iff {nlist : List Neighbor} (wellKept : WellKept nlist) {a : Netaddr} :
    (tableView nlist).Flagged a ↔ ∃ n ∈ nlist, n.addr = a ∧ n.bidir = 1 := by
  constructor
  · rintro ⟨v, entry, isSet⟩
    obtain ⟨n, member, here, rfl⟩ := wellKept.tableView_eq_some_iff.mp entry
    exact ⟨n, member, here, isSet⟩
  · rintro ⟨n, member, here, isSet⟩
    exact ⟨n.view, wellKept.tableView_eq_some_iff.mpr ⟨n, member, here, rfl⟩, isSet⟩

/-- In a list an address has one entry, so flags can be compared entry by entry. -/
theorem WellKept.flag_iff {nlist : List Neighbor} (wellKept : WellKept nlist) {n : Neighbor}
    (member : n ∈ nlist) : n.bidir = 1 ↔ (tableView nlist).Flagged n.addr := by
  rw [TableView.Flagged, wellKept.view_of_mem member]
  simp [Neighbor.view]

/-! ### Runs -/

/-- What every run of hellos and refreshes keeps. -/
structure LinkRun (start bprd : BprdT) : Prop where
  frame : bprd = { start with nlist := bprd.nlist }
  wellKept : WellKept bprd.nlist
  binary : FlagsBinary (tableView bprd.nlist)

section

variable {start bprd bprd' : BprdT} {order : Words.ByteOrder} {ops : List HelloOp} {op : HelloOp}
  {trace : List (HelloOp × TableEvent)} {events : List TableEvent} {event : TableEvent}

/-- One step of such a run. -/
theorem LinkRun.step (running : RunningFamily start.ipver) (kept : LinkRun start bprd)
    (admissible : Admissible start.ipver op) :
    ∃ bprd' event, helloStep order bprd op = .ok (bprd', event) ∧ LinkRun start bprd' ∧
      tableView bprd'.nlist =
        (tableView bprd.nlist).step (ownNetaddr start.saddr) (seenEvent start.saddr op event) := by
  have family : bprd.ipver = start.ipver := by rw [kept.frame]
  have own : bprd.saddr = start.saddr := by rw [kept.frame]
  obtain ⟨nlist, event, stepped, wellKept, view⟩ := @helloStep_table bprd order (family ▸ running)
    kept.wellKept op (family ▸ admissible)
  rw [own] at view
  refine ⟨_, event, stepped, ⟨?_, wellKept, ?_⟩, view⟩
  · rw [kept.frame]
  · show FlagsBinary (tableView nlist)
    rw [view]
    exact kept.binary.step _

theorem linkRun_of_run (running : RunningFamily start.ipver) (empty : start.nlist = [])
    (admissible : ∀ op ∈ ops, Admissible start.ipver op)
    (ran : Runs.run (helloStep order) start ops = .ok (bprd, trace)) : LinkRun start bprd := by
  rw [← Runs.run_inputs ran] at admissible
  revert admissible
  apply @Runs.run_induction _ _ _ _ (helloStep order)
    (fun trace bprd => (∀ op ∈ trace.map Prod.fst, Admissible start.ipver op) → LinkRun start bprd)
  · intro _
    show LinkRun start start
    refine ⟨rfl, ?_, ?_⟩
    · rw [empty]
      exact ⟨List.nodup_nil, by simp⟩
    · rw [empty]
      intro a v entry
      cases entry
  · intro trace bprd op bprd' event ih stepped admissible
    simp only [List.map_append, List.mem_append] at admissible
    obtain ⟨_, _, stepped', kept, _⟩ := (ih fun o inside => admissible o (.inl inside)).step running
      (admissible op (.inr (List.mem_singleton.mpr rfl)))
    rw [stepped] at stepped'
    cases stepped'
    exact kept
  · exact ran

theorem helloStep_hello {ambient : Ambient} {m : Message}
    (ran : helloStep order bprd (.hello ambient m) = .ok (bprd', event)) :
    event = .heard (ambient.clock 0) (helloOf bprd.ipver order m) := by
  rw [helloStep] at ran
  split at ran
  · cases ran
  · cases ran
    rfl

/-- A hello as it is seen comes from the same sender, and lists the node when the node recognises itself. -/
theorem LinkRun.condition_iff (kept : LinkRun start bprd) {ambient : Ambient} {hello : Hello} :
    (tableView bprd.nlist).Flagged hello.sender ∨
        ownNetaddr start.saddr ∈ (seenHello ambient start.saddr 0 hello).listed ↔
      (∃ n ∈ bprd.nlist, n.addr = hello.sender ∧ n.bidir = 1) ∨
        recognises ambient start.saddr 0 hello.listed = true := by
  rw [kept.wellKept.flagged_iff, mem_seenHello_listed]

/-- Current flags make the links current: a route only goes through a neighbour with its flag set. -/
theorem LinkRun.symmetryCurrent (kept : LinkRun start bprd) {own : Netaddr}
    (flags : FlagsCurrent own events (tableView bprd.nlist)) : SymmetryCurrent own events bprd := by
  have current : ∀ n ∈ bprd.nlist, n.bidir = 1 ↔ ListedLast own n.addr events := by
    intro n member
    rw [kept.wellKept.flag_iff member]
    exact flags n.addr (tableView_isSome_iff.mpr ⟨n, member, rfl⟩)
  refine ⟨current, ?_⟩
  intro tie leftover bprd' routes updated route set
  obtain ⟨c, isOwn, n, member, twoWay, rfl⟩ := routerUpdate_routes updated set
  have isSet : n.bidir = 1 :=
    (kept.binary n.addr n.view (kept.wellKept.view_of_mem member)).resolve_left twoWay
  exact ⟨c, isOwn, n, member, setsRoute_routeVia bprd c n, (current n member).mp isSet⟩

/-- Along a run in which the links are recognised, the flags are current. -/
theorem flagsCurrent_of_recognised (running : RunningFamily start.ipver) (empty : start.nlist = [])
    (recognised : LinksRecognised order start ops) : ∀ {before after : List HelloOp},
      ops = before ++ after → (∀ op ∈ before, Admissible start.ipver op) →
      ∀ {bprd trace}, Runs.run (helloStep order) start before = .ok (bprd, trace) →
        FlagsCurrent (ownNetaddr start.saddr) (eventsOf trace) (tableView bprd.nlist) := by
  intro before
  induction before using List.reverseRecOn with
  | nil =>
      intro after split admissible bprd trace ran a present
      cases ran
      rw [empty] at present
      exact absurd rfl present
  | append_singleton before op ih =>
      intro after split admissible bprd trace ran
      obtain ⟨bprd₁, trace₁, _, ranBefore, ranLast, rfl⟩ := Runs.run_append.mp ran
      obtain ⟨bprd₂, event, _, stepped, ended, rfl⟩ := Runs.run_cons.mp ranLast
      cases ended
      have split' : ops = before ++ op :: after := by
        rw [split, List.append_assoc]
        rfl
      have admissible' : ∀ o ∈ before, Admissible start.ipver o :=
        fun o inside => admissible o (List.mem_append_left _ inside)
      have older := ih split' admissible' ranBefore
      have kept := linkRun_of_run running empty admissible' ranBefore
      obtain ⟨_, _, stepped', _, view⟩ := kept.step running
        (admissible op (List.mem_append_right _ (List.mem_singleton.mpr rfl)))
      rw [stepped] at stepped'
      cases stepped'
      rw [eventsOf, List.map_append, view]
      cases op with
      | hello ambient m =>
          have family : bprd₁.ipver = start.ipver := by rw [kept.frame]
          obtain rfl := helloStep_hello stepped
          rw [family]
          have agrees := recognised split' ranBefore
          rw [← kept.condition_iff] at agrees
          exact older.hear rfl agrees
      | refresh clock =>
          cases stepped
          exact older.expire _

/-- The flags are current, and the router relies on current flags, in every state of a run exactly when
    every hello lists this node if and only if its sender has the flag already or the reader recognises
    this node in it. -/
theorem link_symmetry_current_iff (running : RunningFamily start.ipver) (empty : start.nlist = [])
    (admissible : ∀ op ∈ ops, Admissible start.ipver op) :
    EveryState order start ops (SymmetryCurrent (ownNetaddr start.saddr)) ↔
      LinksRecognised order start ops := by
  constructor
  · intro current before ambient m after bprd trace split ran
    have within : ∀ op ∈ before ++ [.hello ambient m], Admissible start.ipver op := by
      intro op inside
      apply admissible op
      rw [split, List.append_cons]
      exact List.mem_append_left _ inside
    have kept := linkRun_of_run running empty
      (fun op inside => within op (List.mem_append_left _ inside)) ran
    obtain ⟨bprd', event, stepped, kept', view⟩ := @LinkRun.step start bprd order _ running kept
      (within _ (List.mem_append_right _ (List.mem_singleton.mpr rfl)))
    have family : bprd.ipver = start.ipver := by rw [kept.frame]
    obtain rfl := helloStep_hello stepped
    rw [family] at stepped view
    have ranBoth : Runs.run (helloStep order) start (before ++ [.hello ambient m]) =
        .ok (bprd', trace ++ [(.hello ambient m,
          .heard (ambient.clock 0) (helloOf start.ipver order m))]) :=
      Runs.run_append.mpr ⟨bprd, trace, _, ran,
        Runs.run_cons.mpr ⟨bprd', _, [], stepped, rfl, rfl⟩, rfl⟩
    have now := (current (by rw [split, List.append_cons]) ranBoth).flags
    have flags : FlagsCurrent (ownNetaddr start.saddr)
        (eventsOf trace ++ [.heard (ambient.clock 0) (helloOf start.ipver order m)])
        (tableView bprd'.nlist) := by
      intro a present
      obtain ⟨n, member, rfl⟩ := tableView_isSome_iff.mp present
      rw [← kept'.wellKept.flag_iff member, now n member, eventsOf, List.map_append]
      rfl
    rw [view] at flags
    rw [← kept.condition_iff]
    exact FlagsCurrent.of_hear rfl flags
  · intro recognised before after bprd trace split ran
    have admissible' : ∀ op ∈ before, Admissible start.ipver op := by
      intro op inside
      apply admissible op
      rw [split]
      exact List.mem_append_left _ inside
    exact (linkRun_of_run running empty admissible' ran).symmetryCurrent
      (flagsCurrent_of_recognised running empty recognised split admissible' ran)

end

/-- The listener after the two hellos of `fadingOps`: the flag of 10.0.0.2 is still set. -/
def fadedNeighbor : Neighbor :=
  { addr := host4 [10, 0, 0, 2], bidir := 1, updateTime := ⟨0, 0⟩
    clist := [{ cdata := ⟨host4 [10, 0, 0, 9], 5⟩, backdiff := 0, nfqId := 0, queue := none }] }

/-- The last hello of 10.0.0.2 lists nobody, yet its flag is set and the router sends through it. -/
theorem link_symmetry_stale : ∃ bprd trace,
    Runs.run (helloStep .little) listener fadingOps = .ok (bprd, trace) ∧
      bprd.nlist = [fadedNeighbor] ∧
      lastHello fadedNeighbor.addr (eventsOf trace) =
        some (helloOf afInet .little (neighborHello [])) ∧
      (∃ bprd', routerUpdate acceptTies zeroLeftover bprd =
        .ok (bprd', [⟨[10, 0, 0, 9], some [10, 0, 0, 2], afInet, 1⟩])) ∧
      ¬EveryState .little listener fadingOps (SymmetryCurrent (host4 [10, 0, 0, 1])) := by
  refine ⟨_, _, rfl, rfl, rfl, ⟨_, rfl⟩, ?_⟩
  intro current
  have now := current (List.append_nil fadingOps).symm rfl
  obtain ⟨hello, isLast, listed⟩ := (now.flags fadedNeighbor (List.mem_singleton.mpr rfl)).mp rfl
  cases isLast
  cases listed

/-- The neighbour is heard twice, and lists the listener both times. -/
def stayingOps : List HelloOp :=
  [.hello stillAmbient (neighborHello [[10, 0, 0, 1]]), .refresh fun _ => ⟨1, 0⟩,
    .hello stillAmbient (neighborHello [[10, 0, 0, 1]])]

/-- While the neighbour keeps listing the listener, its flag is current. -/
theorem link_symmetry_current_run :
    EveryState .little listener stayingOps (SymmetryCurrent (host4 [10, 0, 0, 1])) := by
  have each : ∀ {ambient m}, HelloOp.hello ambient m ∈ stayingOps →
      m = neighborHello [[10, 0, 0, 1]] := by
    intro ambient m inside
    simp only [stayingOps, List.mem_cons, List.not_mem_nil, HelloOp.hello.injEq, reduceCtorEq, or_false,
      false_or] at inside
    exact inside.elim And.right And.right
  have admissible : ∀ op ∈ stayingOps, Admissible afInet op := by
    intro op inside
    cases op with
    | refresh clock => trivial
    | hello ambient m =>
        rw [each inside]
        exact neighborHello_wellFormed.1
  apply (link_symmetry_current_iff (.inl rfl) rfl admissible).mpr
  apply (linksRecognised_inet rfl).mpr
  intro before ambient m after bprd trace split _ n _ _ _
  have inside : HelloOp.hello ambient m ∈ stayingOps := by
    rw [split]
    exact List.mem_append_right _ (List.mem_cons_self ..)
  rw [each inside]
  decide

end Bprd
