/-
Module: Bprd.Proofs.UniformConfig
Layer: Proofs
Purpose: The router's consistency exits in a uniformly configured network. When every hello carries exactly
  the destinations of this node, every entry of the table lists exactly them whenever the table is not
  locked, whatever the order of receptions, refreshes and updates, and no update exits.
Imports: Bprd.Proofs.NodeTable, Bprd.Proofs.Backpressure
Trusted boundary: none
Main exports: KnowsExactly, UniformStep, nodeStep_uniform, routerUpdate_noExit,
  consistency_exits_unreachable
-/
import Bprd.Proofs.NodeTable
import Bprd.Proofs.Backpressure

namespace Bprd

/-- Every neighbour of a table has a backlog for exactly these destinations. -/
def KnowsExactly (dests : Netaddr → Prop) (table : TableView) : Prop :=
  ∀ a v, table a = some v → ∀ d, v.backlog d ≠ none ↔ dests d

/-- A hello that carries exactly these destinations. -/
def Hello.CarriesExactly (dests : Netaddr → Prop) (hello : Hello) : Prop :=
  ∀ d, (∃ c ∈ hello.commodities, c.addr = d) ↔ dests d

section

variable {dests : Netaddr → Prop} {table : TableView}

theorem KnowsExactly.empty : KnowsExactly dests TableView.empty := by
  intro a v contrary
  cases contrary

theorem KnowsExactly.expire (knows : KnowsExactly dests table) (gone : Netaddr → Bool) :
    KnowsExactly dests (table.expire gone) := by
  intro a v found
  rw [TableView.expire] at found
  split at found
  · cases found
  · exact knows a v found

/-- A hello that carries exactly the destinations leaves every entry with exactly them, also the one it
    creates. -/
theorem KnowsExactly.hear (knows : KnowsExactly dests table) {hello : Hello}
    (carries : hello.CarriesExactly dests) (own : Netaddr) (time : Timeval) :
    KnowsExactly dests (table.hear own time hello) := by
  intro a v found d
  by_cases fromSender : a = hello.sender
  · rw [fromSender, TableView.hear, Function.update_self] at found
    cases found
    show (lastBacklog d hello.commodities).or _ ≠ none ↔ dests d
    cases last : lastBacklog d hello.commodities with
    | some backlog =>
        have carried := (carries d).mp (lastBacklog_isSome_iff.mp ⟨backlog, last⟩)
        exact iff_of_true (Option.some_ne_none _) carried
    | none =>
        have uncarried : ¬dests d := by
          intro isDest
          obtain ⟨backlog, some_⟩ := lastBacklog_isSome_iff.mpr ((carries d).mpr isDest)
          rw [last] at some_
          cases some_
        refine iff_of_false ?_ uncarried
        rw [Option.none_or, ne_eq, not_not]
        cases older : table hello.sender with
        | none => rfl
        | some w =>
            have unknown := mt (knows hello.sender w older d).mp uncarried
            exact not_not.mp unknown
  · rw [TableView.hear, Function.update_of_ne fromSender] at found
    exact knows a v found d

/-- The neighbour list of such a table. -/
theorem KnowsExactly.listed {nlist : List Neighbor} (knows : KnowsExactly dests (tableView nlist))
    (wellKept : WellKept nlist) {n : Neighbor} (member : n ∈ nlist) (d : Netaddr) :
    (∃ e ∈ n.clist, e.cdata.addr = d) ↔ dests d := by
  rw [← knows n.addr n.view (wellKept.view_of_mem member) d]
  show _ ↔ (KeyedList.lookup Commodity.dest d n.clist).map _ ≠ none
  rw [ne_eq, Option.map_eq_none_iff, KeyedList.lookup_eq_none_iff]
  push Not
  rfl

end

/-! ### Runs -/

/-- A step of a uniformly configured network: the hellos of a datagram are well-formed and carry exactly
    this node's destinations. -/
def UniformStep (start : Node) : NodeOp → Prop
  | .recv _ buf => ∀ m ∈ (scanPacket buf).1, m.msgType = bprdMsgTypeHello →
      WellFormed start.bprd.ipver m ∧
        (helloOf start.bprd.ipver start.order m).CarriesExactly fun d =>
          ∃ c ∈ start.bprd.clist, c.cdata.addr = d
  | _ => True

/-- What holds of a node whenever its table is not locked. -/
structure UniformNode (start node : Node) : Prop where
  setup : SameSetup start node
  wellKept : WellKept node.bprd.nlist
  knows : KnowsExactly (fun d => ∃ c ∈ start.bprd.clist, c.cdata.addr = d)
    (tableView node.bprd.nlist)

section

variable {start node node' : Node} {op : NodeOp} {out : Output}

/-- A node that was set up alike has the same destinations. -/
theorem SameSetup.dests (same : SameSetup start node) (d : Netaddr) :
    (∃ c ∈ node.bprd.clist, c.cdata.addr = d) ↔ ∃ c ∈ start.bprd.clist, c.cdata.addr = d := by
  have dests := congrArg (fun dests => d ∈ dests) same.map_dest
  simpa [Commodity.dest] using dests

/-- Hellos that carry exactly the destinations, heard one after the other. -/
theorem heardHellos_knows {dests : Netaddr → Prop} {own : Netaddr} :
    ∀ {hellos : List (Timeval × Hello)} {nlist : List Neighbor},
      (∀ entry ∈ hellos, entry.2.CarriesExactly dests) → WellKept nlist →
        KnowsExactly dests (tableView nlist) →
          WellKept (heardHellos own hellos nlist) ∧
            KnowsExactly dests (tableView (heardHellos own hellos nlist))
  | [], nlist, _, wellKept, knows => ⟨wellKept, knows⟩
  | entry :: hellos, nlist, carry, wellKept, knows => by
      have heard : KnowsExactly dests (tableView (heardHello own entry.1 entry.2 nlist)) := by
        rw [tableView_heardHello]
        exact knows.hear (carry entry (List.mem_cons_self ..)) own entry.1
      have rest : ∀ e ∈ hellos, e.2.CarriesExactly dests :=
        fun e later => carry e (List.mem_cons_of_mem _ later)
      exact @heardHellos_knows dests own hellos _ rest (wellKept_heardHello wellKept) heard

/-- As it is seen, a hello carries the same commodities. -/
theorem mem_seenFrom {ambient : Ambient} {saddr : Sockaddr} :
    ∀ {hellos : List (Timeval × Hello)} {j : Nat} {entry : Timeval × Hello},
      entry ∈ seenFrom ambient saddr j hellos →
        ∃ original ∈ hellos, entry.2.commodities = original.2.commodities
  | [], j, entry, inside => by cases inside
  | (time, hello) :: hellos, j, entry, inside => by
      rw [seenFrom] at inside
      rcases List.mem_cons.mp inside with rfl | later
      · exact ⟨_, List.mem_cons_self .., rfl⟩
      · obtain ⟨original, member, same⟩ := mem_seenFrom later
        exact ⟨original, List.mem_cons_of_mem _ member, same⟩

theorem mem_hellosFrom {ipver : UInt8} {order : Words.ByteOrder} {clock : Nat → Timeval} :
    ∀ {ms : List Message} {k : Nat} {entry : Timeval × Hello},
      entry ∈ hellosFrom ipver order clock k ms →
        ∃ m ∈ ms, m.msgType = bprdMsgTypeHello ∧ entry.2 = helloOf ipver order m
  | [], k, entry, inside => by cases inside
  | m :: ms, k, entry, inside => by
      rw [hellosFrom] at inside
      split at inside
      · rename_i isHello
        rcases List.mem_cons.mp inside with rfl | later
        · exact ⟨m, List.mem_cons_self .., isHello, rfl⟩
        · obtain ⟨m', member, found⟩ := mem_hellosFrom later
          exact ⟨m', List.mem_cons_of_mem _ member, found⟩
      · obtain ⟨m', member, found⟩ := mem_hellosFrom inside
        exact ⟨m', List.mem_cons_of_mem _ member, found⟩

/-- A reception that returns met no fault in its datagram. -/
theorem helloRecv_noFault {bprd bprd' : BprdT} {order : Words.ByteOrder} {ambient : Ambient}
    {buf : List UInt8} (received : helloRecv bprd order ambient buf = .ok bprd') :
    ∀ fault, (scanPacket buf).2 ≠ some (.fault fault) := by
  intro fault stops
  rw [helloRecv, pbbReaderHandlePacket_eq, stops] at received
  cases ran : forEach (scheduleMessage (helloConsumers bprd order ambient)) (scanPacket buf).1
      (.start bprd.nlist) with
  | error f =>
      rw [ran] at received
      cases received
  | ok r =>
      rw [ran] at received
      cases received

/-- Every step keeps the table uniform. -/
theorem nodeStep_uniform (running : RunningFamily start.bprd.ipver) (holds : UniformNode start node)
    (uniform : UniformStep start op) (ran : nodeStep node op = .ok (node', out)) :
    UniformNode start node' := by
  have setup := holds.setup.trans (nodeStep_sameSetup ran)
  by_cases own : ∀ ambient buf, op ≠ .recv ambient buf
  · obtain ⟨wellKept, gone, table⟩ := nodeStep_table own holds.wellKept ran
    refine ⟨setup, wellKept, ?_⟩
    rw [table]
    exact holds.knows.expire gone
  · simp only [ne_eq, not_forall, not_not] at own
    obtain ⟨ambient, buf, rfl⟩ := own
    have family := holds.setup.ipver
    have order := holds.setup.order
    obtain ⟨bprd, received, rfl, _⟩ := nodeStep_recv.mp ran
    have heard := @helloRecv_eq node.bprd node.order ambient (by rw [family]; exact running) buf
      (helloRecv_noFault received) (fun m member isHello => by
        rw [family]
        exact (uniform m member isHello).1)
    rw [received] at heard
    cases heard
    have carry : ∀ entry ∈ seenFrom ambient node.bprd.saddr 0
        (hellosFrom node.bprd.ipver node.order ambient.clock 0 (scanPacket buf).1),
        entry.2.CarriesExactly fun d => ∃ c ∈ start.bprd.clist, c.cdata.addr = d := by
      intro entry inside
      obtain ⟨original, fromDatagram, same⟩ := mem_seenFrom inside
      obtain ⟨m, member, isHello, isEntry⟩ := mem_hellosFrom fromDatagram
      rw [Hello.CarriesExactly, same, isEntry, family, order]
      exact (uniform m member isHello).2
    obtain ⟨wellKept, knows⟩ := @heardHellos_knows _ (ownNetaddr node.bprd.saddr) _ _ carry
      holds.wellKept holds.knows
    exact ⟨setup, wellKept, knows⟩

/-- A run keeps the table uniform. -/
theorem run_uniform (running : RunningFamily start.bprd.ipver) (empty : start.bprd.nlist = [])
    {ops : List NodeOp} {trace : List (NodeOp × Output)} (uniform : ∀ op ∈ ops, UniformStep start op)
    (ran : Runs.run nodeStep start ops = .ok (node, trace)) : UniformNode start node := by
  rw [← Runs.run_inputs ran] at uniform
  revert uniform
  apply @Runs.run_induction _ _ _ _ nodeStep
    (fun trace node => (∀ op ∈ trace.map Prod.fst, UniformStep start op) → UniformNode start node)
  · intro _
    refine ⟨⟨rfl, rfl, rfl, rfl⟩, ?_, ?_⟩
    · rw [empty]
      exact ⟨List.nodup_nil, by simp⟩
    · rw [empty]
      exact KnowsExactly.empty
  · intro trace node op node' out ih stepped uniform
    rw [List.map_append] at uniform
    have before := ih fun o member => uniform o (List.mem_append_left _ member)
    exact nodeStep_uniform running before
      (uniform op (List.mem_append_right _ (List.mem_singleton.mpr rfl))) stepped
  · exact ran

end

/-! ### The exits -/

/-- An update of a table that lists the own commodities takes neither exit, whatever the queues. -/
theorem routerUpdate_noExit {tie : TieTest} {leftover : Leftover} {bprd : BprdT} (lists : ListsOwn bprd)
    (message : String) : routerUpdate tie leftover bprd ≠ .error (.logErr message) := by
  intro exits
  cases first : bprd.clist.mapM updateBacklog with
  | ok backlogs =>
      have queues : ∀ c ∈ bprd.clist, ∃ queue, c.queue = some queue := by
        intro c member
        obtain ⟨c', _, updated⟩ :=
          Fallible.related_mem_left (Fallible.mapM_eq_ok_iff.mp first) member
        obtain ⟨queue, hasQueue, _⟩ := updateBacklog_ok.mp updated
        exact ⟨queue, hasQueue⟩
      obtain ⟨_, _, completes⟩ := @routerUpdate_total tie leftover bprd lists queues
      rw [exits] at completes
      cases completes
  | error fault =>
      obtain ⟨c, _, failed⟩ := Fallible.mapM_error first
      rw [routerUpdate, first] at exits
      cases exits
      rw [updateBacklog] at failed
      split at failed
      · cases failed
      · cases failed

/-- In a uniformly configured network every neighbour lists exactly this node's destinations in every
    reachable state, and no router update takes one of the consistency exits; over both families, whatever
    is taken for the own address. -/
theorem consistency_exits_unreachable {start node : Node} {ops : List NodeOp}
    {trace : List (NodeOp × Output)} (running : RunningFamily start.bprd.ipver)
    (empty : start.bprd.nlist = []) (uniform : ∀ op ∈ ops, UniformStep start op)
    (ran : Runs.run nodeStep start ops = .ok (node, trace)) :
    ListsOwn node.bprd ∧
      ∀ tie leftover message, routerUpdate tie leftover node.bprd ≠ .error (.logErr message) := by
  have holds := run_uniform running empty uniform ran
  have lists : ListsOwn node.bprd := by
    intro n member d
    rw [holds.setup.dests d]
    exact holds.knows.listed holds.wellKept member d
  exact ⟨lists, fun tie leftover message => routerUpdate_noExit lists message⟩

/-- A hello of 10.0.0.2 on the wire, with a backlog of 5 for 10.0.0.9. -/
def neighborDatagram : List UInt8 :=
  [0, 1, 0x93, 0, 39, 10, 0, 0, 2, 0, 0, 0, 27, 1, 16, 24, 10, 0, 0, 9, 0, 0, 0, 0, 0, 0, 0, 0, 0, 0,
    0, 0, 2, 32, 0, 0, 5, 0, 0, 0]

/-- The daemon of `listener`. -/
def listenerNode : Node := { bprd := listener, writer := helloWriterInit, order := .little }

theorem neighborDatagram_hello : ∃ m, (scanPacket neighborDatagram).1 = [m] ∧ WellFormed afInet m ∧
    (helloOf afInet .little m).commodities = [⟨host4 [10, 0, 0, 9], 5⟩] :=
  ⟨_, rfl, ⟨rfl, rfl, rfl, by decide, by decide, by decide⟩, rfl⟩

/-- The daemon hears its neighbour and updates. -/
theorem consistency_exits_unreachable_listener : ∃ node trace,
    Runs.run nodeStep listenerNode
        [.recv stillAmbient neighborDatagram, .update acceptTies zeroLeftover] = .ok (node, trace) ∧
      node.bprd.nlist ≠ [] ∧ ListsOwn node.bprd ∧
      ∀ tie leftover message, routerUpdate tie leftover node.bprd ≠ .error (.logErr message) := by
  obtain ⟨node, trace, ran, heard⟩ : ∃ node trace, Runs.run nodeStep listenerNode
      [.recv stillAmbient neighborDatagram, .update acceptTies zeroLeftover] = .ok (node, trace) ∧
        node.bprd.nlist.length = 1 :=
    ⟨_, _, rfl, rfl⟩
  have uniform : ∀ op ∈ [NodeOp.recv stillAmbient neighborDatagram, .update acceptTies zeroLeftover],
      UniformStep listenerNode op := by
    intro op member
    rcases List.mem_cons.mp member with rfl | later
    · intro m inside _
      obtain ⟨m', scanned, wellFormed, commodities⟩ := neighborDatagram_hello
      rw [scanned] at inside
      obtain rfl := List.mem_singleton.mp inside
      refine ⟨wellFormed, fun d => ?_⟩
      show (∃ c ∈ (helloOf afInet .little m).commodities, c.addr = d) ↔ _
      rw [commodities]
      simp [listenerNode, listener]
    · rw [List.mem_singleton.mp later]
      trivial
  refine ⟨node, trace, ran, ?_, consistency_exits_unreachable (.inl rfl) rfl uniform ran⟩
  intro none_
  rw [none_] at heard
  cases heard

end Bprd
