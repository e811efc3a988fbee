/-
Module: Bprd.Proofs.RouteTracking
Layer: Proofs
Purpose: What the kernel's routes say about the table. An update that finds a bidirectional neighbour sets
  the route of every commodity that it does not take for one destined to this node, through such a
  neighbour; any other update sets none and removes none. So the routes follow the table exactly in those
  runs in which, once an update has found a bidirectional neighbour, every later one does. Over IPv6 this
  is said of the runs in which no incomplete copy of the own address is another commodity's destination.
Imports: Bprd.Proofs.UniformConfig
Trusted boundary: none
Main exports: kernelRoutes, Usable, RoutesTrack, HadUsable, Unmistaken, nodeStep_routes, routes_after_run,
  routes_track_iff, routes_track_while_heard, expired_route_kept
-/
import Bprd.Proofs.UniformConfig

namespace Bprd

/-- Where the routing table keeps the route to a destination. -/
def routeKey (ipver : UInt8) (dest : Netaddr) : UInt8 × List UInt8 := (ipver, addressBytes ipver dest)

/-- The kernel's routes after the changes of a run. -/
def kernelRoutes (trace : List (NodeOp × Output)) : KernelRoutes :=
  KernelRoutes.empty.changeAll (trace.flatMap fun event => event.2.routes)

/-- The table holds a bidirectional neighbour. -/
def Usable (bprd : BprdT) : Prop := ∃ n ∈ bprd.nlist, n.bidir ≠ 0

/-- The commodity is not destined to this node. -/
def Foreign (bprd : BprdT) (c : Commodity) : Prop := ownNetaddr bprd.saddr ≠ c.cdata.addr

/-- Every commodity that is not destined to this node has a route exactly when the table holds a
    bidirectional neighbour, and its gateway is the address of one. -/
def RoutesTrack (bprd : BprdT) (routes : KernelRoutes) : Prop :=
  ∀ c ∈ bprd.clist, Foreign bprd c →
    ((routes (routeKey bprd.ipver c.cdata.addr)).isSome ↔ Usable bprd) ∧
      ∀ gateway, routes (routeKey bprd.ipver c.cdata.addr) = some gateway →
        ∃ n ∈ bprd.nlist, n.bidir ≠ 0 ∧ gateway = addressBytes bprd.ipver n.addr

/-- The routes track the table after every completed update of a run. -/
def TrackedRun (start : Node) (ops : List NodeOp) : Prop :=
  ∀ before tie leftover rest node trace, ops = before ++ .update tie leftover :: rest →
    Runs.run nodeStep start (before ++ [.update tie leftover]) = .ok (node, trace) →
      RoutesTrack node.bprd (kernelRoutes trace)

/-- Once an update of a run has started with a bidirectional neighbour, every later one that completes
    starts with one. -/
def UsableStays (start : Node) (ops : List NodeOp) : Prop :=
  ∀ before tie leftover between tie' leftover' rest first second trace trace' done,
    ops = before ++ .update tie leftover :: (between ++ .update tie' leftover' :: rest) →
      Runs.run nodeStep start before = .ok (first, trace) →
        Runs.run nodeStep start (before ++ .update tie leftover :: between) = .ok (second, trace') →
          nodeStep second (.update tie' leftover') = .ok done → Usable first.bprd → Usable second.bprd

/-- Some update of a run started with a bidirectional neighbour. -/
def HadUsable (start : Node) (ops : List NodeOp) : Prop :=
  ∃ before tie leftover rest node trace, ops = before ++ .update tie leftover :: rest ∧
    Runs.run nodeStep start before = .ok (node, trace) ∧ Usable node.bprd

/-- No update of a run takes the destination of a commodity for another node for the own address. -/
def Unmistaken (start : Node) (ops : List NodeOp) : Prop :=
  ∀ tie leftover, NodeOp.update tie leftover ∈ ops → ∀ c ∈ start.bprd.clist, Foreign start.bprd c →
    copiedNetaddr leftover start.bprd.saddr ≠ c.cdata.addr

/-- Over IPv4 no update does. -/
theorem unmistaken_inet {start : Node} (inet : start.bprd.saddr.family = afInet) (ops : List NodeOp) :
    Unmistaken start ops := by
  intro tie leftover _ c _ foreign
  rw [copiedNetaddr_inet inet]
  exact foreign

/-! ### One update -/

section

variable {tie : TieTest} {leftover : Leftover} {bprd bprd' : BprdT} {routes : List RouteUpdate}
  {c : Commodity} {n : Neighbor}

@[simp] theorem key_routeVia : (routeVia bprd c n).key = routeKey bprd.ipver c.cdata.addr :=
  congrArg (Prod.mk bprd.ipver) (setsRoute_routeVia bprd c n).dst

@[simp] theorem nh_routeVia : (routeVia bprd c n).nh = some (addressBytes bprd.ipver n.addr) :=
  (setsRoute_routeVia bprd c n).nh

/-- An update keeps what the routes are about. -/
theorem routerUpdate_frame (ran : routerUpdate tie leftover bprd = .ok (bprd', routes)) :
    bprd'.ipver = bprd.ipver ∧ bprd'.saddr = bprd.saddr ∧ (Usable bprd' ↔ Usable bprd) ∧
      ∀ n ∈ bprd.nlist, ∃ n' ∈ bprd'.nlist, n'.addr = n.addr ∧ n'.bidir = n.bidir := by
  have neighbors := routerUpdate_nlist ran
  have forward : ∀ n ∈ bprd.nlist, ∃ n' ∈ bprd'.nlist, n'.addr = n.addr ∧ n'.bidir = n.bidir := by
    intro n member
    obtain ⟨n', member', sameAddr, sameBidir, _⟩ := Fallible.related_mem_left neighbors member
    exact ⟨n', member', sameAddr, sameBidir⟩
  obtain ⟨_, _, _, _, _, _, rfl⟩ := routerUpdate_ok.mp ran
  refine ⟨rfl, rfl, ⟨?_, ?_⟩, forward⟩
  · rintro ⟨n', member', twoWay⟩
    obtain ⟨n, member, _, sameBidir, _⟩ := Fallible.related_mem neighbors member'
    exact ⟨n, member, sameBidir ▸ twoWay⟩
  · rintro ⟨n, member, twoWay⟩
    obtain ⟨n', member', _, sameBidir⟩ := forward n member
    exact ⟨n', member', sameBidir ▸ twoWay⟩

/-- An update with a bidirectional neighbour sets a route for every commodity whose destination it does not
    take for the own address. -/
theorem routerUpdate_sets (ran : routerUpdate tie leftover bprd = .ok (bprd', routes)) (usable : Usable bprd)
    {c' : Commodity} (member : c' ∈ bprd'.clist)
    (forOthers : copiedNetaddr leftover bprd'.saddr ≠ c'.cdata.addr) :
    ∃ route ∈ routes, route.key = routeKey bprd'.ipver c'.cdata.addr := by
  obtain ⟨sameIpver, sameSaddr, sameUsable, _⟩ := routerUpdate_frame ran
  obtain ⟨c, _, updated⟩ := Fallible.related_mem (routerUpdate_commodities ran) member
  obtain ⟨queue, d, _, rfl, change⟩ := updated
  rw [sameSaddr] at forOthers
  rw [sameIpver]
  rcases change with ⟨_, isOwn | oneWay⟩ | ⟨_, n, _, _, set, _⟩
  · exact absurd isOwn forOthers
  · obtain ⟨n, isNeighbor, twoWay⟩ := sameUsable.mpr usable
    exact absurd (oneWay n isNeighbor) twoWay
  · exact ⟨routeVia bprd c n, set, key_routeVia⟩

/-- A route that an update sets goes through a bidirectional neighbour of the table it leaves. -/
theorem routerUpdate_gateway (ran : routerUpdate tie leftover bprd = .ok (bprd', routes))
    {route : RouteUpdate} (set : route ∈ routes) :
    ∃ n ∈ bprd'.nlist, n.bidir ≠ 0 ∧ route.nh = some (addressBytes bprd'.ipver n.addr) := by
  obtain ⟨sameIpver, _, _, neighbors⟩ := routerUpdate_frame ran
  obtain ⟨c, _, n, member, twoWay, rfl⟩ := routerUpdate_routes ran set
  obtain ⟨n', member', sameAddr, sameBidir⟩ := neighbors n member
  refine ⟨n', member', sameBidir ▸ twoWay, ?_⟩
  rw [nh_routeVia, sameAddr, sameIpver]

/-- An update without a bidirectional neighbour changes no route. -/
theorem routerUpdate_idle (ran : routerUpdate tie leftover bprd = .ok (bprd', routes))
    (unusable : ¬Usable bprd) : routes = [] := by
  apply List.eq_nil_iff_forall_not_mem.mpr
  intro route set
  obtain ⟨_, _, n, member, twoWay, _⟩ := routerUpdate_routes ran set
  exact unusable ⟨n, member, twoWay⟩

end

/-! ### One step -/

section

variable {node node' : Node} {op : NodeOp} {out : Output} {tie : TieTest} {leftover : Leftover}
  {routes : KernelRoutes}

/-- Only updates change routes. -/
theorem nodeStep_routes (ran : nodeStep node op = .ok (node', out))
    (other : ∀ tie leftover, op ≠ .update tie leftover) : out.routes = [] := by
  cases op with
  | backlogger op =>
      cases ran
      rfl
  | update tie leftover => exact absurd rfl (other tie leftover)
  | recv ambient buf =>
      obtain ⟨_, _, _, rfl⟩ := nodeStep_recv.mp ran
      rfl
  | refresh clock =>
      cases ran
      rfl
  | hello padding clock sendto =>
      obtain ⟨_, _, _, _, rfl⟩ := nodeStep_hello.mp ran
      rfl

/-- After an update with a bidirectional neighbour the routes track the table, whatever they were. -/
theorem update_tracks (ran : nodeStep node (.update tie leftover) = .ok (node', out))
    (usable : Usable node.bprd)
    (unmistaken : ∀ c ∈ node'.bprd.clist, Foreign node'.bprd c →
      copiedNetaddr leftover node'.bprd.saddr ≠ c.cdata.addr) :
    RoutesTrack node'.bprd (routes.changeAll out.routes) := by
  obtain ⟨bprd', set, updated, rfl, rfl⟩ := nodeStep_update.mp ran
  dsimp only
  intro c member foreign
  have sameUsable : Usable bprd' ↔ Usable node.bprd := (routerUpdate_frame updated).2.2.1
  obtain ⟨route, isSet, isKey⟩ := routerUpdate_sets updated usable member (unmistaken c member foreign)
  rcases routes.changeAll_cases (routeKey bprd'.ipver c.cdata.addr) set with
    ⟨none_, _⟩ | ⟨last, isLast, _, value⟩
  · exact absurd isKey (none_ route isSet)
  · obtain ⟨n, isNeighbor, twoWay, gateway⟩ := routerUpdate_gateway updated isLast
    rw [value, gateway]
    refine ⟨iff_of_true rfl (sameUsable.mpr usable), ?_⟩
    intro g isGateway
    cases isGateway
    exact ⟨n, isNeighbor, twoWay, rfl⟩

/-- Steps without such an update leave the routes alone. -/
theorem step_keeps_routes (ran : nodeStep node op = .ok (node', out))
    (idle : ∀ tie leftover, op = .update tie leftover → ¬Usable node.bprd) :
    routes.changeAll out.routes = routes := by
  have unchanged : out.routes = [] := by
    by_cases isUpdate : ∃ tie leftover, op = .update tie leftover
    · obtain ⟨tie, leftover, rfl⟩ := isUpdate
      obtain ⟨bprd', set, updated, _, rfl⟩ := nodeStep_update.mp ran
      exact routerUpdate_idle updated (idle tie leftover rfl)
    · exact nodeStep_routes ran fun tie leftover same => isUpdate ⟨tie, leftover, same⟩
  rw [unchanged, KernelRoutes.changeAll_nil]

/-- A node keeps its commodities that are not destined to it. -/
theorem SameSetup.foreign (same : SameSetup node node') {c' : Commodity} (member : c' ∈ node'.bprd.clist)
    (foreign : Foreign node'.bprd c') :
    ∃ c ∈ node.bprd.clist, Foreign node.bprd c ∧ c.cdata.addr = c'.cdata.addr := by
  obtain ⟨c, isOwn, sameAddr⟩ := (same.dests c'.cdata.addr).mp ⟨c', member, rfl⟩
  refine ⟨c, isOwn, ?_, sameAddr⟩
  rw [Foreign, sameAddr, ← same.saddr]
  exact foreign

theorem SameSetup.foreign_after (same : SameSetup node node') {c : Commodity}
    (member : c ∈ node.bprd.clist) (foreign : Foreign node.bprd c) :
    ∃ c' ∈ node'.bprd.clist, Foreign node'.bprd c' := by
  obtain ⟨c', isOwn, sameAddr⟩ := (same.dests c.cdata.addr).mpr ⟨c, member, rfl⟩
  refine ⟨c', isOwn, ?_⟩
  rw [Foreign, sameAddr, same.saddr]
  exact foreign

end

/-! ### A run -/

section

variable {start node : Node} {ops : List NodeOp} {trace : List (NodeOp × Output)}

theorem run_sameSetup (ran : Runs.run nodeStep start ops = .ok (node, trace)) : SameSetup start node :=
  @Runs.run_induction _ _ _ _ nodeStep (fun _ node => SameSetup start node) start ⟨rfl, rfl, rfl, rfl⟩
    (fun same stepped => same.trans (nodeStep_sameSetup stepped)) _ _ _ ran

/-- The last step of a run. -/
theorem run_concat {op : NodeOp} (ran : Runs.run nodeStep start (ops ++ [op]) = .ok (node, trace)) :
    ∃ node₁ trace₁ out, Runs.run nodeStep start ops = .ok (node₁, trace₁) ∧
      nodeStep node₁ op = .ok (node, out) ∧ trace = trace₁ ++ [(op, out)] := by
  obtain ⟨node₁, trace₁, after, first, last, rfl⟩ := Runs.run_append.mp ran
  obtain ⟨node₂, out, rest, stepped, ended, rfl⟩ := Runs.run_cons.mp last
  cases ended
  exact ⟨node₁, trace₁, out, first, stepped, rfl⟩

theorem kernelRoutes_concat (trace : List (NodeOp × Output)) (event : NodeOp × Output) :
    kernelRoutes (trace ++ [event]) = (kernelRoutes trace).changeAll event.2.routes := by
  rw [kernelRoutes, List.flatMap_append, KernelRoutes.changeAll_append]
  simp [kernelRoutes]

/-- The updates of a longer run: those of the shorter one and the last step. -/
theorem hadUsable_concat {op : NodeOp} (ran : Runs.run nodeStep start ops = .ok (node, trace)) :
    HadUsable start (ops ++ [op]) ↔
      HadUsable start ops ∨ (∃ tie leftover, op = .update tie leftover) ∧ Usable node.bprd := by
  constructor
  · rintro ⟨before, tie, leftover, rest, mid, trace₁, split, ranBefore, usable⟩
    rcases List.eq_nil_or_concat rest with rfl | ⟨rest, last, rfl⟩
    · obtain ⟨rfl, same⟩ := List.append_inj' split rfl
      cases same
      rw [ran] at ranBefore
      cases ranBefore
      exact .inr ⟨⟨tie, leftover, rfl⟩, usable⟩
    · rw [List.concat_eq_append, ← List.cons_append, ← List.append_assoc] at split
      obtain ⟨rfl, _⟩ := List.append_inj' split rfl
      exact .inl ⟨before, tie, leftover, rest, mid, trace₁, rfl, ranBefore, usable⟩
  · rintro (⟨before, tie, leftover, rest, mid, trace₁, rfl, ranBefore, usable⟩ |
      ⟨⟨tie, leftover, rfl⟩, usable⟩)
    · exact ⟨before, tie, leftover, rest ++ [op], mid, trace₁, by simp, ranBefore, usable⟩
    · exact ⟨ops, tie, leftover, [], node, trace, rfl, ran, usable⟩

/-- Longer runs make more updates. -/
theorem Unmistaken.shorter {more : List NodeOp} (unmistaken : Unmistaken start (ops ++ more)) :
    Unmistaken start ops :=
  fun tie leftover inside => unmistaken tie leftover (List.mem_append_left _ inside)

/-- What the assumption says about the daemon at the end of a run. -/
theorem Unmistaken.at_end (unmistaken : Unmistaken start ops)
    (same : SameSetup start node) {tie : TieTest} {leftover : Leftover}
    (inside : NodeOp.update tie leftover ∈ ops) : ∀ c ∈ node.bprd.clist, Foreign node.bprd c →
      copiedNetaddr leftover node.bprd.saddr ≠ c.cdata.addr := by
  intro c member foreign
  obtain ⟨c₀, isOwn, foreign₀, sameAddr⟩ := same.foreign member foreign
  rw [same.saddr, ← sameAddr]
  exact unmistaken tie leftover inside c₀ isOwn foreign₀

/-- A commodity that is not destined to this node has a route exactly when some update of the run has
    found a bidirectional neighbour. -/
theorem routes_after_run (unmistaken : Unmistaken start ops) :
    ∀ {node : Node} {trace : List (NodeOp × Output)},
      Runs.run nodeStep start ops = .ok (node, trace) → ∀ c ∈ node.bprd.clist, Foreign node.bprd c →
        ((kernelRoutes trace (routeKey node.bprd.ipver c.cdata.addr)).isSome ↔ HadUsable start ops) := by
  induction ops using List.reverseRecOn with
  | nil =>
      intro node trace ran c _ _
      cases ran
      refine iff_of_false (by simp [kernelRoutes, KernelRoutes.empty]) ?_
      rintro ⟨before, tie, leftover, rest, _, _, split, _⟩
      exact List.cons_ne_nil _ _ (List.append_eq_nil_iff.mp split.symm).2
  | append_singleton ops op ih =>
      intro node trace ran c member foreign
      obtain ⟨node₁, trace₁, out, first, stepped, rfl⟩ := run_concat ran
      rw [hadUsable_concat first, kernelRoutes_concat]
      by_cases finds : (∃ tie leftover, op = .update tie leftover) ∧ Usable node₁.bprd
      · obtain ⟨⟨tie, leftover, rfl⟩, usable⟩ := finds
        have sameUsable : Usable node.bprd := by
          obtain ⟨_, _, updated, rfl, _⟩ := nodeStep_update.mp stepped
          exact (routerUpdate_frame updated).2.2.1.mpr usable
        have others := unmistaken.at_end (run_sameSetup ran)
          (List.mem_append_right _ (List.mem_singleton.mpr rfl))
        rw [(update_tracks stepped usable others c member foreign).1]
        exact iff_of_true sameUsable (.inr ⟨⟨tie, leftover, rfl⟩, usable⟩)
      · have same := nodeStep_sameSetup stepped
        obtain ⟨c₁, member₁, foreign₁, sameAddr⟩ := same.foreign member foreign
        rw [or_iff_left finds, same.ipver, ← sameAddr, ← ih unmistaken.shorter first c₁ member₁ foreign₁]
        rw [@step_keeps_routes _ _ _ _ (kernelRoutes trace₁) stepped
          fun tie leftover isUpdate usable => finds ⟨⟨tie, leftover, isUpdate⟩, usable⟩]

/-- The routes track the table after every completed update of a run exactly when all commodities are
    destined to this node, or once an update has found a bidirectional neighbour every later one does.
    Nothing is assumed over IPv4 (`unmistaken_inet`). -/
theorem routes_track_iff (start : Node) (ops : List NodeOp) (unmistaken : Unmistaken start ops) :
    TrackedRun start ops ↔ (∀ c ∈ start.bprd.clist, ¬Foreign start.bprd c) ∨ UsableStays start ops := by
  constructor
  · intro tracked
    by_cases some_ : ∃ c ∈ start.bprd.clist, Foreign start.bprd c
    · obtain ⟨c, member, foreign⟩ := some_
      refine .inr ?_
      rintro before tie leftover between tie' leftover' rest first second trace trace' ⟨node, out⟩ split
        ranFirst ranSecond
        stepped usable
      have ran : Runs.run nodeStep start
          ((before ++ .update tie leftover :: between) ++ [.update tie' leftover']) =
            .ok (node, trace' ++ [(.update tie' leftover', out)]) :=
        Runs.run_append.mpr ⟨second, trace', _, ranSecond,
          Runs.run_cons.mpr ⟨node, out, [], stepped, rfl, rfl⟩, rfl⟩
      have tracks := tracked (before ++ .update tie leftover :: between) tie' leftover' rest node _
        (by rw [split, List.append_assoc, List.cons_append]) ran
      have had : HadUsable start
          ((before ++ .update tie leftover :: between) ++ [.update tie' leftover']) :=
        ⟨before, tie, leftover, between ++ [.update tie' leftover'], first, trace, by simp, ranFirst, usable⟩
      have unmistaken' : Unmistaken start
          ((before ++ .update tie leftover :: between) ++ [.update tie' leftover']) := by
        apply @Unmistaken.shorter start _ rest
        have whole :
            (before ++ .update tie leftover :: between) ++ [.update tie' leftover'] ++ rest = ops := by
          rw [split]
          simp
        rwa [whole]
      obtain ⟨c', member', foreign'⟩ := (run_sameSetup ran).foreign_after member foreign
      have usableAfter : Usable node.bprd :=
        (tracks c' member' foreign').1.mp ((routes_after_run unmistaken' ran c' member' foreign').mpr had)
      obtain ⟨_, _, updated, rfl, _⟩ := nodeStep_update.mp stepped
      exact (routerUpdate_frame updated).2.2.1.mp usableAfter
    · exact .inl fun c member foreign => some_ ⟨c, member, foreign⟩
  · rintro condition before tie leftover rest node trace split ran
    have unmistaken' : Unmistaken start (before ++ [.update tie leftover]) := by
      apply @Unmistaken.shorter start _ rest
      have whole : before ++ [.update tie leftover] ++ rest = ops := by
        rw [split]
        simp
      rwa [whole]
    obtain ⟨node₁, trace₁, out, first, stepped, rfl⟩ := run_concat ran
    rw [kernelRoutes_concat]
    intro c member foreign
    by_cases usable : Usable node₁.bprd
    · have others := unmistaken'.at_end (run_sameSetup ran)
        (List.mem_append_right _ (List.mem_singleton.mpr rfl))
      exact update_tracks stepped usable others c member foreign
    · have stays : UsableStays start ops := by
        rcases condition with allOwn | stays
        · obtain ⟨c₀, member₀, foreign₀, _⟩ := (run_sameSetup ran).foreign member foreign
          exact absurd foreign₀ (allOwn c₀ member₀)
        · exact stays
      have had : ¬HadUsable start (before ++ [.update tie leftover]) := by
        rw [hadUsable_concat first]
        rintro (⟨before₀, tie₀, leftover₀, between, mid, trace₀, rfl, ranMid, usableMid⟩ | ⟨_, here⟩)
        · exact usable (stays before₀ tie₀ leftover₀ between tie leftover rest mid node₁ trace₀ trace₁ _
            (by rw [split, List.append_assoc, List.cons_append]) ranMid first stepped usableMid)
        · exact usable here
      have noRoute := mt (routes_after_run unmistaken' ran c member foreign).mp had
      rw [kernelRoutes_concat] at noRoute
      have unusable : ¬Usable node.bprd := by
        obtain ⟨_, _, updated, rfl, _⟩ := nodeStep_update.mp stepped
        exact fun after => usable ((routerUpdate_frame updated).2.2.1.mp after)
      refine ⟨iff_of_false noRoute unusable, ?_⟩
      intro gateway isRoute
      rw [isRoute] at noRoute
      exact absurd rfl noRoute

end

/-- A hello of the neighbour that lists this node. -/
def twoWayDatagram : List UInt8 :=
  [0, 1, 0x93, 0, 47, 10, 0, 0, 2, 0, 0, 0, 27, 1, 16, 24, 10, 0, 0, 9, 0, 0, 0, 0, 0, 0, 0, 0, 0, 0, 0,
    0, 2, 32, 0, 0, 5, 0, 0, 0, 1, 0, 10, 0, 0, 1, 0, 0]

/-- The neighbour is heard, and two updates follow. -/
def neighborHeard : List NodeOp :=
  [.recv stillAmbient twoWayDatagram, .update acceptTies zeroLeftover, .update acceptTies zeroLeftover]

/-- While the neighbour is there the routes track the table. -/
theorem routes_track_while_heard : TrackedRun listenerNode neighborHeard := by
  apply (routes_track_iff listenerNode neighborHeard (unmistaken_inet rfl _)).mpr
  right
  intro before tie leftover between tie' leftover' rest first second trace trace' done split _ ranSecond _ _
  -- The second update comes last, so the two steps before it lead to its start.
  have steps : before ++ .update tie leftover :: between = neighborHeard.take 2 := by
    rcases before with _ | ⟨a, _ | ⟨b, before⟩⟩
    · cases split
    · rcases between with _ | ⟨c, between⟩
      · cases split
        rfl
      · simp [neighborHeard] at split
    · have long := congrArg List.length split
      simp only [neighborHeard, List.length_cons, List.length_append, List.length_nil] at long
      omega
  rw [steps] at ranSecond
  have outcome : ((Runs.run nodeStep listenerNode (neighborHeard.take 2)).toOption.map fun done =>
      done.1.bprd.nlist.map Neighbor.bidir) = some [1] := by
    decide +kernel
  rw [ranSecond] at outcome
  have flags : second.bprd.nlist.map Neighbor.bidir = [1] := Option.some.inj outcome
  obtain ⟨n, member, twoWay⟩ := List.mem_map.mp (flags ▸ List.mem_singleton.mpr rfl)
  exact ⟨n, member, by rw [twoWay]; decide⟩

/-- The neighbour is heard once, and silent for three seconds afterwards. -/
def neighborLost : List NodeOp :=
  [.recv stillAmbient twoWayDatagram, .update acceptTies zeroLeftover, .refresh fun _ => ⟨3, 0⟩,
    .update acceptTies zeroLeftover]

/-- The route through a neighbour that has expired stays after the next update. -/
theorem expired_route_kept : ¬TrackedRun listenerNode neighborLost := by
  intro tracked
  have outcome : ((Runs.run nodeStep listenerNode neighborLost).toOption.map fun done =>
      (done.1.bprd.ipver, done.1.bprd.nlist, done.1.bprd.clist.map fun c => c.cdata.addr,
        kernelRoutes done.2 (routeKey afInet (host4 [10, 0, 0, 9])))) =
      some (afInet, [], [host4 [10, 0, 0, 9]], some [10, 0, 0, 2]) := by
    decide +kernel
  cases ran : Runs.run nodeStep listenerNode neighborLost with
  | error fault =>
      rw [ran] at outcome
      cases outcome
  | ok done =>
      obtain ⟨node, trace⟩ := done
      rw [ran] at outcome
      obtain ⟨ipver, empty, commodities, kept⟩ :
          node.bprd.ipver = afInet ∧ node.bprd.nlist = [] ∧
            node.bprd.clist.map (fun c => c.cdata.addr) = [host4 [10, 0, 0, 9]] ∧
            kernelRoutes trace (routeKey afInet (host4 [10, 0, 0, 9])) = some [10, 0, 0, 2] := by
        simpa [Except.toOption, Prod.ext_iff] using outcome
      obtain ⟨c, member, isDest⟩ : ∃ c ∈ node.bprd.clist, c.cdata.addr = host4 [10, 0, 0, 9] :=
        List.mem_map.mp (commodities ▸ List.mem_singleton.mpr rfl)
      have own : node.bprd.saddr = listenerNode.bprd.saddr := (run_sameSetup ran).saddr
      have foreign : Foreign node.bprd c := by
        rw [Foreign, isDest, own]
        decide
      have tracks :=
        tracked (neighborLost.take 3) acceptTies zeroLeftover [] node trace rfl ran c member foreign
      rw [isDest, ipver, kept] at tracks
      obtain ⟨n, member, _⟩ := tracks.1.mp rfl
      rw [empty] at member
      cases member

end Bprd
