/-
Module: Bprd.Proofs.Shortcut
Layer: Proofs
Purpose: The early end of the next-hop scan at the destination. The capture rules never divert a packet to
  the queue of a commodity destined to the node itself, so that queue stays empty, the node advertises
  backlog 0 for itself, and every table records 0 for it. The destination's differential is then the
  largest there can be, and ending the scan there changes nothing.
Imports: Bprd.Proofs.NetworkFacts, Bprd.Proofs.Backpressure
Trusted boundary: none
Main exports: OwnEmpty, nodeStep_ownEmpty, reachable_ownQueuesEmpty, destination_records_zero,
  destination_shortcut
-/
import Bprd.Proofs.NetworkFacts
import Bprd.Proofs.Backpressure

namespace Bprd

/-! ### The own queue -/

/-- The queues of commodities for an address hold nothing. -/
def OwnEmpty (own : Netaddr) (clist : List Commodity) : Prop :=
  ∀ j queue, (clist.map Commodity.dest)[j]? = some own → queueAt clist j = some queue →
    ¬queue.head < queue.tail

theorem OwnEmpty.length {own : Netaddr} {clist : List Commodity} {length : UInt32}
    (empty : OwnEmpty own clist) (isLength : QueueLength clist own length) : length = 0 := by
  obtain ⟨c, member, queue, isOwn, hasQueue, rfl⟩ := isLength
  obtain ⟨j, at_j⟩ := List.mem_iff_getElem?.mp member
  have holds := empty j queue (by rw [List.getElem?_map, at_j, ← isOwn]; rfl)
    (queueAt_eq_some_iff.mpr ⟨c, at_j, hasQueue⟩)
  exact if_neg holds

/-- An empty queue gives no verdict. -/
theorem giver_empty {act : Fifo → Fifo × List Verdict}
    (giver : act = fifoSendPacket ∨ act = fifoDropPacket ∨ act = fifoDelete ∨
      ∃ count, act = sendLoop count) {queue : Fifo} (empty : ¬queue.head < queue.tail) :
    (act queue).1 = queue := by
  have none_ : ∀ verdict, fifoVerdict verdict queue = (queue, []) := fun _ => if_neg empty
  rcases giver with rfl | rfl | rfl | ⟨count, rfl⟩
  · exact congrArg Prod.fst (none_ .accept)
  · exact congrArg Prod.fst (none_ .drop)
  · rw [fifoDelete, dif_neg empty]
  · induction count with
    | zero => rfl
    | succ count ih =>
        have sent : fifoSendPacket queue = (queue, []) := none_ .accept
        rw [sendLoop, sent]
        exact ih

/-- The rules divert to the queues of commodities for others only. -/
theorem divert_forOthers {naddr : Netaddr} {clist : List Commodity} {chain : Chain}
    {dst : List.Vector UInt8 16} {q : UInt16}
    (diverts : divert (captureRules naddr clist) chain dst = some q) :
    ∃ c ∈ clist, c.dest ≠ naddr ∧ c.nfqId = q := by
  obtain ⟨rule, found, isQueue⟩ := Option.map_eq_some_iff.mp diverts
  obtain ⟨c, member, installs⟩ := List.mem_flatMap.mp (List.mem_of_find?_eq_some found)
  split at installs
  · cases installs
  · rename_i forOthers
    have queueNum : rule.queueNum = c.nfqId := by
      rcases List.mem_cons.mp installs with rfl | last
      · rfl
      · rw [List.mem_singleton.mp last]
    refine ⟨c, member, ?_, queueNum.symm.trans isQueue⟩
    exact fun same => forOthers (netaddrCmp_eq_zero.mpr same.symm)

section

variable {naddr : Netaddr} {clist : List Commodity} {node node' : Node} {op : NodeOp} {out : Output}

/-- With distinct queue numbers, a packet that the rules divert is for another node. -/
theorem captured_forOthers (distinct : (clist.map Commodity.nfqId).Nodup)
    (same : node.bprd.clist.map (fun c => (c.dest, c.nfqId)) = clist.map fun c => (c.dest, c.nfqId))
    {i : Nat} (captured : Captured (captureRules naddr clist) node (.backlogger (.add i))) :
    (node.bprd.clist.map Commodity.dest)[i]? ≠ some naddr := by
  obtain ⟨chain, dst, c, at_i, diverts⟩ := captured
  obtain ⟨c₀, member₀, forOthers, sameQueue⟩ := divert_forOthers diverts
  have configured : (c.dest, c.nfqId) ∈ clist.map fun c => (c.dest, c.nfqId) := by
    rw [← same]
    exact List.mem_map_of_mem (List.mem_of_getElem? at_i)
  obtain ⟨c₁, member₁, isEntry⟩ := List.mem_map.mp configured
  obtain ⟨sameDest, sameId⟩ := Prod.mk.inj isEntry
  have isSame : c₁ = c₀ := List.inj_on_of_nodup_map distinct member₁ member₀ (sameId.trans sameQueue.symm)
  intro isOwn
  rw [List.getElem?_map, at_i] at isOwn
  apply forOthers
  rw [← isSame, sameDest]
  exact Option.some.inj isOwn

/-- No step that the rules allow puts a packet into the queue of a commodity for the node itself. -/
theorem nodeStep_ownEmpty (distinct : (clist.map Commodity.nfqId).Nodup)
    (same : node.bprd.clist.map (fun c => (c.dest, c.nfqId)) = clist.map fun c => (c.dest, c.nfqId))
    (captured : Captured (captureRules naddr clist) node op) (empty : OwnEmpty naddr node.bprd.clist)
    (ran : nodeStep node op = .ok (node', out)) : OwnEmpty naddr node'.bprd.clist := by
  intro j queue isOwn at_j
  rw [(nodeStep_sameSetup ran).map_dest] at isOwn
  have queues := nodeStep_queueStep ran
  generalize node'.bprd.clist = clist' at at_j queues
  generalize out.verdicts = verdicts at queues
  cases queues with
  | arrival i =>
      have elsewhere : j ≠ i := fun here =>
        captured_forOthers distinct same captured (here ▸ isOwn)
      rw [queueAt_onQueue, if_neg elsewhere] at at_j
      exact empty j queue isOwn at_j
  | verdicts i act giver _ =>
      rw [queueAt_onQueue] at at_j
      split at at_j
      · obtain ⟨queue₀, at_j₀, rfl⟩ := Option.map_eq_some_iff.mp at_j
        have holds := empty j queue₀ isOwn at_j₀
        rw [giver_empty giver holds]
        exact holds
      · exact empty j queue isOwn at_j
  | silent unchanged _ =>
      rw [unchanged] at at_j
      exact empty j queue isOwn at_j

end

/-! ### The network -/

section

variable {ι : Type}

/-- Every node keeps what it was configured with, and its queue for itself is empty, now and at every
    logged update. -/
structure OwnQueuesEmpty (start net : Network ι) : Prop where
  setup : ∀ i, SameSetup (start.node i) (net.node i)
  empty : ∀ i, OwnEmpty (ownNetaddr (start.node i).bprd.saddr) (net.node i).bprd.clist
  logged : ∀ i clist, .updated i clist ∈ net.log →
    OwnEmpty (ownNetaddr (start.node i).bprd.saddr) clist

variable {order : Words.ByteOrder} {rules : ι → List Rule} {start net : Network ι}

theorem Started.rules_eq (started : Started order rules start) (i : ι) :
    rules i = captureRules (ownNetaddr (start.node i).bprd.saddr) (start.node i).bprd.clist := by
  obtain ⟨_, leftover, config, ran, _, family, _⟩ := started.nodes i
  obtain ⟨clist, isNode, _, installed⟩ := nodeInit_ok ran
  rw [isNode]
  rw [copiedNetaddr_inet family] at installed
  exact installed

theorem Started.ownQueuesEmpty (started : Started order rules start) : OwnQueuesEmpty start start where
  setup := fun _ => ⟨rfl, rfl, rfl, rfl⟩
  empty := by
    intro i j queue _ at_j
    obtain ⟨c, at_j', hasQueue⟩ := queueAt_eq_some_iff.mp at_j
    obtain ⟨entry, qh, rfl⟩ := started.fresh (List.mem_of_getElem? at_j')
    cases hasQueue
    exact (by decide : ¬fifoInit.head < fifoInit.tail)
  logged := by
    intro i clist updated
    rw [started.log] at updated
    cases updated

theorem ownEvents_updated {i b : ι} {node : Node} {op : NodeOp} {numbered : Nat} {out : Output}
    {clist : List Commodity} (updated : .updated b clist ∈ ownEvents i node op numbered out) :
    b = i ∧ clist = node.bprd.clist := by
  rcases mem_ownEvents updated with here | ⟨_, sent⟩
  · cases here
    exact ⟨rfl, rfl⟩
  · cases sent

variable [DecidableEq ι]

/-- A step of one node keeps the invariant of the network. -/
theorem OwnQueuesEmpty.step (holds : OwnQueuesEmpty start net) {net' : Network ι} {i : ι}
    {op : NodeOp} {node' : Node} {out : Output}
    (distinct : ((start.node i).bprd.clist.map Commodity.nfqId).Nodup)
    (captured : Captured (captureRules (ownNetaddr (start.node i).bprd.saddr)
      (start.node i).bprd.clist) (net.node i) op)
    (ran : nodeStep (net.node i) op = .ok (node', out))
    (nodes : net'.node = Function.update net.node i node')
    (log : ∀ b clist, .updated b clist ∈ net'.log →
      .updated b clist ∈ net.log ∨ b = i ∧ clist = (net.node i).bprd.clist) :
    OwnQueuesEmpty start net' := by
  have here : net'.node i = node' := by rw [nodes, Function.update_self]
  have elsewhere : ∀ j, j ≠ i → net'.node j = net.node j := fun j other => by
    rw [nodes, Function.update_of_ne other]
  refine ⟨?_, ?_, ?_⟩
  · intro j
    by_cases isSelf : j = i
    · subst isSelf
      rw [here]
      exact (holds.setup j).trans (nodeStep_sameSetup ran)
    · rw [elsewhere j isSelf]
      exact holds.setup j
  · intro j
    by_cases isSelf : j = i
    · subst isSelf
      rw [here]
      exact nodeStep_ownEmpty distinct (holds.setup j).commodities captured (holds.empty j) ran
    · rw [elsewhere j isSelf]
      exact holds.empty j
  · intro b clist updated
    rcases log b clist updated with old | ⟨rfl, rfl⟩
    · exact holds.logged b clist old
    · exact holds.empty b

/-- Where only packets that the rules divert enter the queues, a node's queue for itself stays empty. -/
theorem reachable_ownQueuesEmpty (started : Started order rules start)
    (distinct : ∀ i, ((start.node i).bprd.clist.map Commodity.nfqId).Nodup)
    (reachable : Reachable (fun i => Captured (rules i)) start net) : OwnQueuesEmpty start net := by
  induction reachable with
  | refl => exact started.ownQueuesEmpty
  | tail _ step ih =>
      cases step with
      | act i op node' out _ permitted ran =>
          rw [started.rules_eq i] at permitted
          refine ih.step (distinct i) permitted ran rfl ?_
          intro b clist updated
          exact (List.mem_append.mp updated).imp_right ownEvents_updated
      | deliver i k d ambient node' out sent ran =>
          have captured : ∀ rules node, Captured rules node (.recv ambient d.bytes) := fun _ _ => trivial
          refine ih.step (distinct i) (captured _ _) ran rfl ?_
          intro b clist updated
          rcases List.mem_append.mp updated with old | new
          · exact .inl old
          · cases List.mem_singleton.mp new

/-- A neighbour that is a destination records backlog 0 for it. -/
theorem destination_records_zero (started : Started order rules start)
    (injective : Function.Injective fun i => ownNetaddr (start.node i).bprd.saddr)
    (distinct : ∀ i, ((start.node i).bprd.clist.map Commodity.nfqId).Nodup)
    (reachable : Reachable (fun i => Captured (rules i)) start net) (a : ι) {n : Neighbor}
    (member : n ∈ (net.node a).bprd.nlist) {e : Commodity} (recorded : e ∈ n.clist)
    (destination : e.cdata.addr = n.addr) : e.cdata.backlog = 0 := by
  have truthful := reachable_truthful started injective reachable
  have empty := reachable_ownQueuesEmpty started distinct reachable
  have wellKept := (truthful.ready a).wellKept
  obtain ⟨b, isNode, _, _, backlogs⟩ := truthful.known a _ _ (wellKept.view_of_mem member)
  obtain ⟨k, _, _, _, _, _, origin⟩ := backlogs _ _ (wellKept.backlog_of_mem member recorded)
  rcases origin with zero | ⟨clist, isLength, inOrder⟩
  · exact zero
  · have updated : .updated b clist ∈ net.log := inOrder.subset (List.mem_cons_self ..)
    have isOwn : e.dest = ownNetaddr (start.node b).bprd.saddr := destination.trans isNode
    rw [isOwn] at isLength
    exact (empty.logged b clist updated).length isLength

/-- A bidirectional neighbour that is the destination offers what a completed update stores. -/
theorem destination_offers {own : Netaddr} {bprd bprd' : BprdT} {routes : List RouteUpdate}
    {c c' : Commodity} (keyed : (bprd'.nlist.map Neighbor.addr).Nodup)
    (updated : UpdatedCommodity own bprd bprd'.nlist routes c c') (forOthers : own ≠ c.cdata.addr)
    {n : Neighbor} (member : n ∈ bprd'.nlist) (twoWay : n.bidir ≠ 0)
    (destination : n.addr = c.cdata.addr) :
    offered c n = some c'.backdiff := by
  obtain ⟨queue, d, _, rfl, choice⟩ := updated
  rcases choice with ⟨_, isOwn | oneWay⟩ | ⟨_, m, chosen, offer, _, best⟩
  · exact absurd isOwn forOthers
  · exact absurd (oneWay n member) twoWay
  · rcases best with atDestination | ⟨plain, _⟩
    · have same : m = n :=
        List.inj_on_of_nodup_map keyed chosen member (atDestination.trans destination.symm)
      rw [← same]
      exact offer
    · exact absurd destination (plain n member twoWay)

/-- Where destinations record backlog 0, the early end of the scan at the destination stores what the
    scan without it finds. -/
theorem shortcut_eq_scan {tie : TieTest} {leftover : Leftover} {bprd bprd' : BprdT}
    {routes : List RouteUpdate} (inet : bprd.saddr.family = afInet)
    (keyed : (bprd.nlist.map Neighbor.addr).Nodup)
    (distinct : (bprd.clist.map fun c => c.cdata.addr).Nodup)
    (atDestination : ∀ n ∈ bprd.nlist, ∀ e ∈ n.clist, e.cdata.addr = n.addr → e.cdata.backlog = 0)
    (updated : routerUpdate tie leftover bprd = .ok (bprd', routes)) :
    List.Forall₂ (fun c c' => ownNetaddr bprd.saddr ≠ c.cdata.addr →
      c'.backdiff.toNat = (differentialsOf bprd.nlist c).toFinset.sup id ∧
      (∀ tie' tests s', scanNexthop tie' c bprd'.nlist ⟨0, 0, none, tests⟩ = .ok s' →
        s'.diffopt = c'.backdiff) ∧
      ∀ n ∈ bprd'.nlist, n.bidir ≠ 0 → n.addr = c.cdata.addr → offered c n = some c'.backdiff)
      bprd.clist bprd'.clist := by
  have stored := updated_backdiff_max updated distinct atDestination
  have pointwise := routerUpdate_commodities updated
  rw [copiedNetaddr_inet inet] at stored pointwise
  have keyed' : (bprd'.nlist.map Neighbor.addr).Nodup := by
    rw [KeyedList.map_related (routerUpdate_sameEntries updated) fun _ _ => SameEntry.addr]
    exact keyed
  rw [List.forall₂_iff_get] at stored pointwise ⊢
  refine ⟨stored.1, ?_⟩
  intro i inside inside' forOthers
  have member : bprd.clist.get ⟨i, inside⟩ ∈ bprd.clist := List.get_mem ..
  have maximal := (stored.2 i inside inside').2.2.2 forOthers
  have change := pointwise.2 i inside inside'
  obtain ⟨queue, _, hasQueue, _, _⟩ := id change
  generalize bprd.clist.get ⟨i, inside⟩ = c at *
  have differential := @mem_differentialsOf_iff_offered tie leftover bprd bprd' routes updated distinct c
    member queue hasQueue
  refine ⟨maximal, ?_, ?_⟩
  · intro tie' tests s' scanned
    have best := scanNexthop_max scanned
    apply UInt32.toNat_inj.mp
    rw [maximal]
    apply Nat.le_antisymm
    · rcases best.attained with ⟨_, none_⟩ | ⟨n, isNeighbor, _, offer⟩
      · rw [none_]
        exact Nat.zero_le _
      · exact Finset.le_sup (f := id)
          (List.mem_toFinset.mpr (differential.mpr ⟨n, isNeighbor, _, offer, rfl⟩))
    · apply Finset.sup_le
      intro x isDifferential
      obtain ⟨n, isNeighbor, d, offer, rfl⟩ := differential.mp (List.mem_toFinset.mp isDifferential)
      exact UInt32.le_iff_toNat_le.mp (best.upper n isNeighbor d offer)
  · intro n isNeighbor twoWay destination
    exact destination_offers keyed' change forOthers isNeighbor twoWay destination

/-- In every reachable state a neighbour that is a destination records backlog 0 for it, and every
    router update stores for a commodity the largest differential over the bidirectional neighbours:
    what the scan without the early end finds, and what the destination offers when it is one of
    them. -/
theorem destination_shortcut (started : Started order rules start)
    (injective : Function.Injective fun i => ownNetaddr (start.node i).bprd.saddr)
    (ids : ∀ i, ((start.node i).bprd.clist.map Commodity.nfqId).Nodup)
    (dests : ∀ i, ((start.node i).bprd.clist.map Commodity.dest).Nodup)
    (reachable : Reachable (fun i => Captured (rules i)) start net) (a : ι) :
    (∀ n ∈ (net.node a).bprd.nlist, ∀ e ∈ n.clist, e.cdata.addr = n.addr → e.cdata.backlog = 0) ∧
    ∀ tie leftover bprd' routes, routerUpdate tie leftover (net.node a).bprd = .ok (bprd', routes) →
      List.Forall₂ (fun c c' => ownNetaddr (net.node a).bprd.saddr ≠ c.cdata.addr →
        c'.backdiff.toNat = (differentialsOf (net.node a).bprd.nlist c).toFinset.sup id ∧
        (∀ tie' tests s', scanNexthop tie' c bprd'.nlist ⟨0, 0, none, tests⟩ = .ok s' →
          s'.diffopt = c'.backdiff) ∧
        ∀ n ∈ bprd'.nlist, n.bidir ≠ 0 → n.addr = c.cdata.addr → offered c n = some c'.backdiff)
        (net.node a).bprd.clist bprd'.clist := by
  have records := fun n (member : n ∈ (net.node a).bprd.nlist) e recorded =>
    @destination_records_zero ι order rules start net _ started injective ids reachable a n member e
      recorded
  have truthful := reachable_truthful started injective reachable
  have setup := (reachable_ownQueuesEmpty started ids reachable).setup a
  have distinct : ((net.node a).bprd.clist.map fun c => c.cdata.addr).Nodup := by
    show ((net.node a).bprd.clist.map Commodity.dest).Nodup
    rw [setup.map_dest]
    exact dests a
  refine ⟨records, ?_⟩
  intro tie leftover bprd' routes updated
  have ready := truthful.ready a
  exact shortcut_eq_scan ready.family ready.wellKept.neighbors distinct records updated

end

/-- Two daemons at 10.0.0.1 and 10.0.0.2 with commodities for 10.0.0.2 and 10.0.0.9. -/
def shortcutConfig (i : Bool) : NodeConfig :=
  { pairConfig i with commodities := [(host4 [10, 0, 0, 2], 1), (host4 [10, 0, 0, 9], 2)] }

/-- The two daemons after their start. -/
def shortcutStart : Network Bool :=
  { node := fun i =>
      { bprd := { (shortcutConfig i).bprd with
          clist := (shortcutConfig i).commodities.map fun entry =>
            { newCommodity entry with queue := some { fifoInit with qh := some entry.2.toNat } } }
        writer := helloWriterInit
        order := .little }
    sent := []
    log := [] }

/-- The rules they have installed: the destination has none for itself. -/
def shortcutRules (i : Bool) : List Rule :=
  (if i then []
    else [⟨.output, host4 [10, 0, 0, 2], 1⟩, ⟨.prerouting, host4 [10, 0, 0, 2], 1⟩]) ++
    [⟨.output, host4 [10, 0, 0, 9], 2⟩, ⟨.prerouting, host4 [10, 0, 0, 9], 2⟩]

theorem shortcutStart_started : Started .little shortcutRules shortcutStart where
  nodes := fun i =>
    ⟨fun q => some q.toNat, zeroLeftover, shortcutConfig i, by cases i <;> rfl, rfl, rfl, rfl⟩
  sent := rfl
  log := rfl

theorem shortcutStart_distinct :
    Function.Injective fun i => ownNetaddr (shortcutStart.node i).bprd.saddr := by
  unfold Function.Injective
  decide

/-- A packet for 10.0.0.2 enters its queue at the first daemon. -/
def shortcutArrival : Network Bool :=
  shortcutStart.acted false (.backlogger (.add 0))
    { shortcutStart.node false with
      bprd := { (shortcutStart.node false).bprd with
        clist := (backloggerStep (shortcutStart.node false).bprd.clist (.add 0)).1 } } ⟨[], [], []⟩

theorem shortcutArrival_reachable :
    Reachable (fun i => Captured (shortcutRules i)) shortcutStart shortcutArrival := by
  have diverted : Captured (shortcutRules false) (shortcutStart.node false) (.backlogger (.add 0)) :=
    ⟨.output, (host4 [10, 0, 0, 2]).addr, _, rfl, by decide⟩
  exact .tail .refl (.act false _ _ _ (fun _ _ other => by cases other) diverted rfl)

/-- The daemons hear each other. -/
def shortcutScript : List (Turn Bool) :=
  [.act false greet, .deliver true 0 stillAmbient, .act true greet, .deliver false 1 stillAmbient]

theorem shortcutScript_open :
    ∀ turn ∈ shortcutScript, turn.Open fun i => Captured (shortcutRules i) := by
  simp [shortcutScript, Turn.Open, greet, Captured]

theorem destination_shortcut_pair : ∃ net n,
    Reachable (fun i => Captured (shortcutRules i)) shortcutStart net ∧
    n ∈ (net.node false).bprd.nlist ∧ n.bidir = 1 ∧
    (∃ c ∈ (net.node false).bprd.clist, c.cdata.addr = n.addr ∧ queueLength c = 1) ∧
    (∃ bprd' routes, routerUpdate acceptTies zeroLeftover (net.node false).bprd = .ok (bprd', routes) ∧
      bprd'.clist.map (fun c => c.backdiff) = [1, 0]) ∧
    (∀ n ∈ (net.node false).bprd.nlist, ∀ e ∈ n.clist, e.cdata.addr = n.addr → e.cdata.backlog = 0) ∧
    ∀ tie leftover bprd' routes, routerUpdate tie leftover (net.node false).bprd = .ok (bprd', routes) →
      List.Forall₂ (fun c c' => ownNetaddr (net.node false).bprd.saddr ≠ c.cdata.addr →
        c'.backdiff.toNat = (differentialsOf (net.node false).bprd.nlist c).toFinset.sup id ∧
        (∀ tie' tests s', scanNexthop tie' c bprd'.nlist ⟨0, 0, none, tests⟩ = .ok s' →
          s'.diffopt = c'.backdiff) ∧
        ∀ n ∈ bprd'.nlist, n.bidir ≠ 0 → n.addr = c.cdata.addr → offered c n = some c'.backdiff)
        (net.node false).bprd.clist bprd'.clist := by
  obtain ⟨net, later, found⟩ := @Network.exists_of_perform _ _ _ shortcutArrival shortcutScript
    (fun net => (net.node false).bprd.nlist.any (fun n => n.bidir == 1 &&
        (net.node false).bprd.clist.any fun c => c.cdata.addr == n.addr && queueLength c == 1) &&
      (routerUpdate acceptTies zeroLeftover (net.node false).bprd).toOption.any fun result =>
        result.1.clist.map (fun c => c.backdiff) == [1, 0])
    shortcutScript_open (by decide +kernel)
  have reachable := shortcutArrival_reachable.trans later
  simp only [Bool.and_eq_true, beq_iff_eq, List.any_eq_true, Option.any_eq_true] at found
  obtain ⟨⟨n, member, twoWay, backlogged⟩, ⟨bprd', routes⟩, updated, stored⟩ := found
  refine ⟨net, n, reachable, member, twoWay, backlogged, ⟨bprd', routes, ?_, stored⟩,
    destination_shortcut shortcutStart_started shortcutStart_distinct
      (fun _ => (by decide : [(1 : UInt16), 2].Nodup))
      (fun _ => (by decide : [host4 [10, 0, 0, 2], host4 [10, 0, 0, 9]].Nodup)) reachable false⟩
  cases ran : routerUpdate acceptTies zeroLeftover (net.node false).bprd with
  | error fault =>
      rw [ran] at updated
      cases updated
  | ok result =>
      rw [ran] at updated
      exact congrArg Except.ok (Option.some.inj updated)

end Bprd
