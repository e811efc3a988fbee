/-
Module: Bprd.Proofs.NewestHello
Layer: Proofs
Purpose: Whether the newest hello wins. The hello writer numbers its messages, but no callback of the reader
  looks at the number: an entry of the table always shows the backlogs of the hello processed last. Over
  any run it shows those of the newest hello exactly when no outdated hello was delivered. The numbers
  themselves would tell: of two hellos less than 2^15 apart, the newer one is ahead.
Imports: Bprd.Lib.Overwrite, Bprd.Lib.WrapCounter, Bprd.Proofs.NetworkFacts
Trusted boundary: none
Main exports: hellosHeard, backlogsReadBy, NewestWins, Launched, Tracked, NetworkRun.tracked,
  NetworkRun.newestWins_iff, NoHelloOutdated, newest_hello_wins_iff, scheduleMessage_seqno,
  FewOutstanding, seqno_ahead_iff, late_hello_overwrites
-/
import Bprd.Lib.Overwrite
import Bprd.Lib.WrapCounter
import Bprd.Proofs.NetworkFacts

namespace Bprd

/-! ### Hellos and what they carry -/

section

variable {ι : Type}

/-- The sender of datagram `k`. -/
def senderOf (net : Network ι) (k : Nat) : Option ι := net.sent[k]?.map Datagram.sender

/-- How many of the first `k` datagrams are hellos of `b`. -/
def hellosBefore [DecidableEq ι] (net : Network ι) (b : ι) (k : Nat) : Nat :=
  (net.sent.take k).countP fun d => decide (d.sender = b)

/-- The datagrams that `a` has processed, first to last. -/
def deliveriesTo [DecidableEq ι] (a : ι) (log : List (Event ι)) : List Nat :=
  log.filterMap fun
    | .delivered i k => if i = a then some k else none
    | _ => none

/-- The hellos of `b` that `a` has processed, first to last. -/
def hellosHeard [DecidableEq ι] (net : Network ι) (a b : ι) : List Nat :=
  (deliveriesTo a net.log).filter fun k => decide (senderOf net k = some b)

/-- The backlogs that a host reads from datagram `k`: the last one for each destination. -/
def backlogsIn (ipver : UInt8) (order : Words.ByteOrder) (net : Network ι) (k : Nat) :
    Netaddr → Option UInt32 :=
  fun d => lastBacklog d ((hellosOf ipver order (net.sent[k]?.map Datagram.bytes).toList).flatMap
    Hello.commodities)

/-- The backlogs that `a` reads from datagram `k`. -/
def backlogsReadBy (net : Network ι) (a : ι) : Nat → Netaddr → Option UInt32 :=
  backlogsIn (net.node a).bprd.ipver (net.node a).order net

/-- The address under which a daemon is known. -/
def nodeAddr (net : Network ι) (i : ι) : Netaddr := ownNetaddr (net.node i).bprd.saddr

/-- The entry of `a` for `b`, if there is one, shows the backlogs of the newest hello of `b` that `a` has
    processed. -/
def NewestWins [DecidableEq ι] (net : Network ι) (a b : ι) : Prop :=
  ∀ v, tableView (net.node a).bprd.nlist (nodeAddr net b) = some v →
    some v.backlog = Overwrite.newest (backlogsReadBy net a) (hellosHeard net a b)

/-- The destinations that every hello of a daemon carries: those of the first commodities, as many as
    fit. -/
def helloDests (bprd : BprdT) : List Netaddr :=
  (bprd.clist.map Commodity.dest).take (keptCount bprd.ipver bprd.clist.length)

/-- A datagram that is read, on every host of its family, as one well-formed hello of the daemon that
    started as `start`, with the sequence number `seqno`. -/
structure Announces (start : Node) (seqno : UInt16) (bytes : List UInt8) (m : Message) : Prop where
  scanned : scanPacket bytes = ([m], none)
  numbered : m.seqno = some seqno
  wellFormed : WellFormed start.bprd.ipver m
  sender : ∀ order, (helloOf start.bprd.ipver order m).sender = ownNetaddr start.bprd.saddr
  dests : ∀ order, (helloOf start.bprd.ipver order m).commodities.map CommodityShort.addr =
    helloDests start.bprd

theorem backlogsIn_eq {ipver : UInt8} {order : Words.ByteOrder} {net : Network ι} {k : Nat}
    {d : Datagram ι} {m : Message} (at_k : net.sent[k]? = some d)
    (scanned : scanPacket d.bytes = ([m], none)) :
    backlogsIn ipver order net k = fun x => lastBacklog x (helloOf ipver order m).commodities := by
  unfold backlogsIn hellosOf
  rw [at_k]
  simp [scanned]

/-! ### One daemon -/

/-- A daemon in a run, against its start. -/
structure Ready (start node : Node) : Prop where
  setup : SameSetup start node
  idle : Idle node.writer
  wellKept : WellKept node.bprd.nlist

section

variable {start node node' : Node} {op : NodeOp} {out : Output}

theorem SameSetup.helloDests_eq (same : SameSetup start node) :
    helloDests node.bprd = helloDests start.bprd := by
  have count : node.bprd.clist.length = start.bprd.clist.length := by
    simpa using congrArg List.length same.map_dest
  rw [helloDests, helloDests, same.map_dest, same.ipver, count]

theorem Ready.act (ready : Ready start node) (running : RunningFamily start.bprd.ipver)
    (own : ∀ ambient buf, op ≠ .recv ambient buf) (ran : nodeStep node op = .ok (node', out)) :
    Ready start node' := by
  have running' : RunningFamily node.bprd.ipver := by
    rw [ready.setup.ipver]
    exact running
  exact
    { setup := ready.setup.trans (nodeStep_sameSetup ran)
      idle := nodeStep_idle running' ready.idle ran
      wellKept := (nodeStep_table own ready.wellKept ran).1 }

/-- Whatever the byte orders of the two hosts, the destinations are read as they were written. -/
theorem commodityValues_dests (sender receiver : Words.ByteOrder) (padding : Nat → UInt8 × UInt8)
    (clist : List Commodity) :
    (commodityValues sender padding clist).map (fun value => (commodityFromBytes receiver value).addr) =
      clist.map Commodity.dest := by
  apply List.ext_getElem?
  intro i
  simp only [commodityValues, commodityFromBytes_written, List.getElem?_map, List.getElem?_mapIdx,
    Option.map_map, Function.comp_def]
  rfl

/-- A hello round sends one datagram, numbered by the counter, and advances the counter. -/
theorem Ready.announces (ready : Ready start node) (running : RunningFamily start.bprd.ipver)
    (family : start.bprd.saddr.family = start.bprd.ipver) {padding : Nat → UInt8 × UInt8}
    {clock : Nat → Timeval} {sendto : List UInt8 → Bool}
    (ran : nodeStep node (.hello padding clock sendto) = .ok (node', out)) :
    node'.bprd.helloSeqno = node.bprd.helloSeqno + 1 ∧
      ∃ datagram m, out.datagrams = [datagram] ∧ Announces start node.bprd.helloSeqno datagram m := by
  have ipver := ready.setup.ipver
  have saddr := ready.setup.saddr
  obtain ⟨written, bprd, cycled, rfl, rfl⟩ := nodeStep_hello.mp ran
  obtain ⟨_, _, rfl, datagram, m, sent, _, scanned, numbered, carries⟩ :=
    helloCycle_carries (by rw [ipver]; exact running) ready.idle cycled
  refine ⟨rfl, datagram, m, sent, ⟨scanned, numbered, ?_, ?_, ?_⟩⟩
  · rw [← ipver]
    exact carries.wellFormed
  · intro order
    rw [← ipver, carries.helloOf_eq, ← saddr]
    apply hostAddr_ownNetaddr (by rw [ipver]; exact running)
    rw [ipver, saddr]
    exact family
  · intro order
    rw [← ready.setup.helloDests_eq, ← ipver, carries.helloOf_eq, helloDests]
    simp only [List.map_take, List.map_map]
    rw [← commodityValues_dests node.order order padding node.bprd.clist]
    rfl

end

/-! ### What a step of the network keeps -/

/-- A later state: daemons keep their configuration, and what was sent stays sent. -/
structure Later (net net' : Network ι) : Prop where
  setup : ∀ i, SameSetup (net.node i) (net'.node i)
  sent : net.sent <+: net'.sent

theorem Later.trans {net₁ net₂ net₃ : Network ι} (first : Later net₁ net₂)
    (second : Later net₂ net₃) : Later net₁ net₃ :=
  ⟨fun i => (first.setup i).trans (second.setup i), first.sent.trans second.sent⟩

section

variable [DecidableEq ι] {net net' : Network ι} {a b i : ι} {k : Nat} {node' : Node}

omit [DecidableEq ι] in
theorem Later.nodeAddr_eq (later : Later net net') : nodeAddr net' b = nodeAddr net b := by
  rw [nodeAddr, nodeAddr, (later.setup b).saddr]

omit [DecidableEq ι] in
theorem Later.at_eq (later : Later net net') (old : k < net.sent.length) :
    net'.sent[k]? = net.sent[k]? := by
  obtain ⟨more, isMore⟩ := later.sent
  rw [← isMore, List.getElem?_append_left old]

omit [DecidableEq ι] in
theorem Later.backlogs_eq (later : Later net net') (old : k < net.sent.length) :
    backlogsReadBy net' a k = backlogsReadBy net a k := by
  unfold backlogsReadBy backlogsIn
  rw [(later.setup a).ipver, (later.setup a).order, later.at_eq old]

theorem Later.hellosBefore_eq (later : Later net net') (old : k ≤ net.sent.length) :
    hellosBefore net' b k = hellosBefore net b k := by
  obtain ⟨more, isMore⟩ := later.sent
  rw [hellosBefore, hellosBefore, ← isMore, List.take_append_of_le_length old]

theorem mem_deliveriesTo {log : List (Event ι)} : k ∈ deliveriesTo a log ↔ .delivered a k ∈ log := by
  rw [deliveriesTo, List.mem_filterMap]
  constructor
  · rintro ⟨event, member, isDelivery⟩
    split at isDelivery
    · split at isDelivery
      · rename_i here
        cases isDelivery
        rw [← here]
        exact member
      · cases isDelivery
    · cases isDelivery
  · intro member
    exact ⟨_, member, if_pos rfl⟩

theorem mem_hellosHeard :
    k ∈ hellosHeard net a b ↔ .delivered a k ∈ net.log ∧ senderOf net k = some b := by
  rw [hellosHeard, List.mem_filter, mem_deliveriesTo, decide_eq_true_eq]

/-- Own steps process no hello. -/
theorem hellosHeard_acted {op : NodeOp} {out : Output}
    (later : Later net (net.acted i op node' out))
    (numbered : ∀ k, .delivered a k ∈ net.log → k < net.sent.length) :
    hellosHeard (net.acted i op node' out) a b = hellosHeard net a b := by
  have none_ : deliveriesTo a (ownEvents i (net.node i) op net.sent.length out) = [] := by
    apply List.eq_nil_iff_forall_not_mem.mpr
    intro k member
    exact ownEvents_delivered (mem_deliveriesTo.mp member)
  have same : deliveriesTo a (net.acted i op node' out).log = deliveriesTo a net.log := by
    show deliveriesTo a (net.log ++ _) = _
    rw [deliveriesTo, List.filterMap_append]
    exact (congrArg _ none_).trans (List.append_nil _)
  rw [hellosHeard, hellosHeard, same]
  apply List.filter_congr
  intro k member
  rw [senderOf, senderOf, later.at_eq (numbered k (mem_deliveriesTo.mp member))]

/-- A delivery extends the hellos that the receiver has heard from the sender, and no others. -/
theorem hellosHeard_received :
    hellosHeard (net.received i k node') a b =
      hellosHeard net a b ++ if i = a ∧ senderOf net k = some b then [k] else [] := by
  show List.filter _ (deliveriesTo a (net.log ++ [.delivered i k])) = _
  rw [deliveriesTo, List.filterMap_append, List.filter_append]
  congr 1
  have same : senderOf (net.received i k node') k = senderOf net k := rfl
  by_cases here : i = a
  · subst here
    by_cases isSender : senderOf net k = some b
    · simp [same, isSender]
    · simp [same, isSender]
  · simp [here]

end

/-! ### The invariant -/

/-- Daemons of one family that have just started. -/
structure Launched (ipver : UInt8) (start : Network ι) : Prop where
  running : RunningFamily ipver
  nodes : ∀ i, ∃ createQueue leftover config rules,
    nodeInit createQueue leftover config = .ok (start.node i, rules) ∧ config.ipver = ipver ∧
      config.saddr.family = ipver
  sent : start.sent = []
  log : start.log = []

/-- What holds in every state of a run. The last field is why the number has no effect: an entry shows the
    hello processed last. -/
structure Tracked [DecidableEq ι] (start net : Network ι) : Prop where
  ready : ∀ i, Ready (start.node i) (net.node i)
  numbered : ∀ a k, .delivered a k ∈ net.log → k < net.sent.length
  counted : ∀ i, (net.node i).bprd.helloSeqno = UInt16.ofNat (hellosBefore net i net.sent.length)
  announced : ∀ k d, net.sent[k]? = some d →
    ∃ m, Announces (start.node d.sender) (UInt16.ofNat (hellosBefore net d.sender k)) d.bytes m
  shows : ∀ a b v, tableView (net.node a).bprd.nlist (nodeAddr net b) = some v →
    some v.backlog = Overwrite.shown (backlogsReadBy net a) (hellosHeard net a b)

section

variable {ipver : UInt8} {start net : Network ι} {a b i : ι} {k : Nat} {node' : Node}

/-- A daemon that has just started. -/
theorem Launched.fresh (launched : Launched ipver start) (i : ι) :
    (start.node i).bprd.ipver = ipver ∧ (start.node i).bprd.saddr.family = ipver ∧
      (start.node i).bprd.nlist = [] ∧ (start.node i).bprd.helloSeqno = 0 ∧
        Idle (start.node i).writer := by
  obtain ⟨_, _, config, _, ran, family, own⟩ := launched.nodes i
  obtain ⟨clist, isNode, _, _⟩ := nodeInit_ok ran
  rw [isNode]
  exact ⟨family, own, rfl, rfl, idle_helloWriterInit⟩

variable [DecidableEq ι]

theorem Launched.tracked (launched : Launched ipver start) : Tracked start start := by
  refine ⟨?_, ?_, ?_, ?_, ?_⟩
  · intro i
    obtain ⟨_, _, empty, _, idle⟩ := launched.fresh i
    refine ⟨⟨rfl, rfl, rfl, rfl⟩, idle, ?_⟩
    rw [empty]
    exact ⟨List.nodup_nil, fun _ member => (List.not_mem_nil member).elim⟩
  · intro a k delivered
    rw [launched.log] at delivered
    exact absurd delivered List.not_mem_nil
  · intro i
    rw [(launched.fresh i).2.2.2.1, hellosBefore, launched.sent]
    rfl
  · intro k d at_k
    rw [launched.sent] at at_k
    cases at_k
  · intro a b v recorded
    rw [(launched.fresh a).2.2.1] at recorded
    cases recorded

/-- What was announced stays announced. -/
theorem Tracked.still_announced {net' : Network ι} (tracked : Tracked start net)
    (later : Later net net') {d : Datagram ι} (old : k < net.sent.length)
    (at_k : net'.sent[k]? = some d) :
    ∃ m, Announces (start.node d.sender) (UInt16.ofNat (hellosBefore net' d.sender k)) d.bytes m := by
  rw [later.at_eq old] at at_k
  rw [later.hellosBefore_eq (Nat.le_of_lt old)]
  exact tracked.announced k d at_k

/-- What an entry showed it still shows, if its hellos are the same. -/
theorem Tracked.still_shown {net' : Network ι} (tracked : Tracked start net)
    (later : Later net net') (heard : hellosHeard net' a b = hellosHeard net a b) {v : NeighborView}
    (recorded : tableView (net.node a).bprd.nlist (nodeAddr net b) = some v) :
    some v.backlog = Overwrite.shown (backlogsReadBy net' a) (hellosHeard net' a b) := by
  rw [tracked.shows a b v recorded, heard]
  apply Overwrite.shown_congr
  intro k member
  exact (later.backlogs_eq (tracked.numbered a k (mem_hellosHeard.mp member).1)).symm

/-! ### Own steps -/

section

variable {op : NodeOp} {out : Output}

theorem Network.acted_later (ran : nodeStep (net.node i) op = .ok (node', out)) :
    Later net (net.acted i op node' out) := by
  refine ⟨?_, List.prefix_append _ _⟩
  apply Network.forall_acted (motive := fun j node => SameSetup (net.node j) node)
  · exact nodeStep_sameSetup ran
  · exact fun _ => ⟨rfl, rfl, rfl, rfl⟩

/-- An own step adds nothing to what was sent, or one hello, numbered by the hellos before it. -/
theorem Tracked.adds (launched : Launched ipver start) (tracked : Tracked start net)
    (ran : nodeStep (net.node i) op = .ok (node', out)) :
    (net.acted i op node' out).sent = net.sent ∧
        node'.bprd.helloSeqno = UInt16.ofNat (hellosBefore net i net.sent.length) ∨
      ∃ datagram m, (net.acted i op node' out).sent = net.sent ++ [⟨i, datagram⟩] ∧
        node'.bprd.helloSeqno = UInt16.ofNat (hellosBefore net i net.sent.length + 1) ∧
        Announces (start.node i) (UInt16.ofNat (hellosBefore net i net.sent.length)) datagram m := by
  rcases hello_or_silent op with ⟨padding, clock, sendto, rfl⟩ | silent
  · obtain ⟨family, own, _⟩ := launched.fresh i
    obtain ⟨advanced, datagram, m, sent, announces⟩ := (tracked.ready i).announces
      (by rw [family]; exact launched.running) (own.trans family.symm) ran
    rw [tracked.counted i] at advanced announces
    refine .inr ⟨datagram, m, ?_, ?_, announces⟩
    · show net.sent ++ out.datagrams.map _ = _
      rw [sent]
      rfl
    · rw [advanced, UInt16.ofNat_add]
      rfl
  · exact .inl ⟨Network.acted_sent silent ran,
      (nodeStep_helloSeqno silent ran).trans (tracked.counted i)⟩

theorem hellosBefore_concat {datagram : List UInt8} {j : ι} {net' : Network ι}
    (sent : net'.sent = net.sent ++ [⟨i, datagram⟩]) :
    hellosBefore net' j net'.sent.length =
      hellosBefore net j net.sent.length + if i = j then 1 else 0 := by
  rw [hellosBefore, hellosBefore, List.take_length, List.take_length, sent, List.countP_append,
    List.countP_singleton]
  simp

theorem Tracked.counted_acted (launched : Launched ipver start) (tracked : Tracked start net)
    (ran : nodeStep (net.node i) op = .ok (node', out)) (j : ι) :
    ((net.acted i op node' out).node j).bprd.helloSeqno =
      UInt16.ofNat (hellosBefore (net.acted i op node' out) j (net.acted i op node' out).sent.length) := by
  rcases tracked.adds launched ran with ⟨sent, kept⟩ | ⟨datagram, _, sent, advanced, _⟩
  · have same : hellosBefore (net.acted i op node' out) j (net.acted i op node' out).sent.length =
        hellosBefore net j net.sent.length := by
      rw [hellosBefore, hellosBefore, sent]
    rw [same]
    exact Network.forall_acted (motive := fun j node =>
      node.bprd.helloSeqno = UInt16.ofNat (hellosBefore net j net.sent.length)) kept tracked.counted j
  · rw [hellosBefore_concat sent]
    by_cases here : j = i
    · subst here
      rw [Network.acted_self, if_pos rfl]
      exact advanced
    · rw [Network.acted_other here, if_neg (Ne.symm here)]
      exact tracked.counted j

theorem Tracked.announced_acted (launched : Launched ipver start) (tracked : Tracked start net)
    (ran : nodeStep (net.node i) op = .ok (node', out)) {d : Datagram ι}
    (at_k : (net.acted i op node' out).sent[k]? = some d) :
    ∃ m, Announces (start.node d.sender)
      (UInt16.ofNat (hellosBefore (net.acted i op node' out) d.sender k)) d.bytes m := by
  have later := Network.acted_later ran
  have inside := (List.getElem?_eq_some_iff.mp at_k).1
  by_cases old : k < net.sent.length
  · exact tracked.still_announced later old at_k
  · rcases tracked.adds launched ran with ⟨sent, _⟩ | ⟨datagram, m, sent, _, announces⟩
    · rw [sent] at inside
      exact absurd inside old
    · have isLast : k = net.sent.length := by
        rw [sent, List.length_append, List.length_singleton] at inside
        omega
      subst isLast
      rw [sent, List.getElem?_append_right (Nat.le_refl _), Nat.sub_self] at at_k
      cases at_k
      rw [later.hellosBefore_eq (Nat.le_refl _)]
      exact ⟨m, announces⟩

theorem Tracked.act (launched : Launched ipver start) (tracked : Tracked start net)
    (own : ∀ ambient buf, op ≠ .recv ambient buf)
    (ran : nodeStep (net.node i) op = .ok (node', out)) :
    Tracked start (net.acted i op node' out) := by
  have later := Network.acted_later ran
  have running : RunningFamily (start.node i).bprd.ipver := by
    rw [(launched.fresh i).1]
    exact launched.running
  refine ⟨?_, ?_, tracked.counted_acted launched ran, ?_, ?_⟩
  · exact Network.forall_acted (motive := fun j node => Ready (start.node j) node)
      ((tracked.ready i).act running own ran) tracked.ready
  · intro a k delivered
    exact Nat.lt_of_lt_of_le (tracked.numbered a k (Network.delivered_acted delivered))
      later.sent.length_le
  · exact fun k d at_k => tracked.announced_acted launched ran at_k
  · intro a b v recorded
    apply tracked.still_shown later (hellosHeard_acted later (tracked.numbered a))
    rw [later.nodeAddr_eq] at recorded
    exact Network.recorded_acted own (tracked.ready i).wellKept ran recorded

end

/-! ### Deliveries -/

theorem Network.received_later {ambient : Ambient} {buf : List UInt8} {out : Output}
    (ran : nodeStep (net.node i) (.recv ambient buf) = .ok (node', out)) :
    Later net (net.received i k node') := by
  refine ⟨?_, List.prefix_refl _⟩
  apply Network.forall_received (motive := fun j node => SameSetup (net.node j) node)
  · exact nodeStep_sameSetup ran
  · exact fun _ => ⟨rfl, rfl, rfl, rfl⟩

/-- Every datagram of the network is processed without a fault, as the hello it was announced as. -/
theorem Tracked.receives (launched : Launched ipver start) (tracked : Tracked start net)
    {d : Datagram ι} (at_k : net.sent[k]? = some d) (i : ι) (ambient : Ambient) :
    ∃ m, Announces (start.node d.sender) (UInt16.ofNat (hellosBefore net d.sender k)) d.bytes m ∧
      nodeStep (net.node i) (.recv ambient d.bytes) = .ok ({ net.node i with
        bprd := { (net.node i).bprd with
          nlist := heardHello (nodeAddr net i) (ambient.clock 0)
            (seenHello ambient (net.node i).bprd.saddr 0
              (helloOf (net.node i).bprd.ipver (net.node i).order m)) (net.node i).bprd.nlist } },
        ⟨[], [], []⟩) := by
  obtain ⟨m, announces⟩ := tracked.announced k d at_k
  refine ⟨m, announces, ?_⟩
  have family : (net.node i).bprd.ipver = ipver :=
    (tracked.ready i).setup.ipver.trans (launched.fresh i).1
  have wellFormed : WellFormed (net.node i).bprd.ipver m := by
    rw [family, ← (launched.fresh d.sender).1]
    exact announces.wellFormed
  have heard := @helloRecv_one (net.node i).bprd (net.node i).order ambient
    (by rw [family]; exact launched.running) d.bytes _ announces.scanned wellFormed
  exact nodeStep_recv.mpr ⟨_, heard, rfl, rfl⟩

/-- A hello that carries the destinations an entry knows overwrites all its backlogs. -/
theorem absorb_overwrites {own : Netaddr} {time : Timeval} {hello : Hello} {v : NeighborView}
    (known : ∀ d, v.backlog d ≠ none → d ∈ hello.commodities.map CommodityShort.addr) :
    (v.absorb own time hello).backlog = fun d => lastBacklog d hello.commodities := by
  funext d
  show (lastBacklog d hello.commodities).or (v.backlog d) = _
  cases last : lastBacklog d hello.commodities with
  | some backlog => rfl
  | none =>
      rw [Option.none_or]
      by_contra recorded
      obtain ⟨c, member, isDest⟩ := List.mem_map.mp (known d recorded)
      obtain ⟨_, carried⟩ := lastBacklog_isSome_iff.mpr ⟨c, member, isDest⟩
      rw [last] at carried
      cases carried

/-- An entry knows only destinations that every hello of its neighbour carries. -/
theorem Tracked.known_dests (launched : Launched ipver start) (tracked : Tracked start net)
    {v : NeighborView} (recorded : tableView (net.node a).bprd.nlist (nodeAddr net b) = some v)
    {d : Netaddr} (known : v.backlog d ≠ none) : d ∈ helloDests (start.node b).bprd := by
  obtain ⟨k, isLast, isShown⟩ := Option.map_eq_some_iff.mp (tracked.shows a b v recorded).symm
  have heard := mem_hellosHeard.mp (List.mem_of_getLast? isLast)
  obtain ⟨datagram, at_k, isSender⟩ := Option.map_eq_some_iff.mp heard.2
  obtain ⟨m, announces⟩ := tracked.announced k datagram at_k
  have family : (net.node a).bprd.ipver = (start.node b).bprd.ipver :=
    ((tracked.ready a).setup.ipver.trans (launched.fresh a).1).trans (launched.fresh b).1.symm
  rw [isSender] at announces
  rw [← isShown, backlogsReadBy, backlogsIn_eq at_k announces.scanned, family] at known
  rw [← announces.dests (net.node a).order]
  obtain ⟨backlog, carried⟩ := Option.ne_none_iff_exists'.mp known
  obtain ⟨c, member, isDest⟩ := lastBacklog_isSome_iff.mp ⟨backlog, carried⟩
  exact List.mem_map.mpr ⟨c, member, isDest⟩

/-- The table after a hello of `b`: the entry for `b` shows that hello, the others are as before. -/
theorem Tracked.hears (launched : Launched ipver start)
    (distinct : Function.Injective (nodeAddr start)) (tracked : Tracked start net) {d : Datagram ι}
    {ambient : Ambient} {out : Output} (at_k : net.sent[k]? = some d)
    (ran : nodeStep (net.node i) (.recv ambient d.bytes) = .ok (node', out)) (b : ι) :
    Ready (start.node i) node' ∧ node'.bprd.helloSeqno = (net.node i).bprd.helloSeqno ∧
      if d.sender = b then
        ∃ v, tableView node'.bprd.nlist (nodeAddr net b) = some v ∧ v.backlog = backlogsReadBy net i k
      else tableView node'.bprd.nlist (nodeAddr net b) =
        tableView (net.node i).bprd.nlist (nodeAddr net b) := by
  have started : ∀ j, nodeAddr net j = nodeAddr start j := fun j => by
    rw [nodeAddr, nodeAddr, (tracked.ready j).setup.saddr]
  have setup := (tracked.ready i).setup.trans (nodeStep_sameSetup ran)
  obtain ⟨m, announces, received⟩ := tracked.receives launched at_k i ambient
  rw [received] at ran
  obtain ⟨rfl, _⟩ := Prod.mk.inj (Except.ok.inj ran)
  have family : (net.node i).bprd.ipver = (start.node d.sender).bprd.ipver :=
    ((tracked.ready i).setup.ipver.trans (launched.fresh i).1).trans (launched.fresh d.sender).1.symm
  have sender : (seenHello ambient (net.node i).bprd.saddr 0
      (helloOf (net.node i).bprd.ipver (net.node i).order m)).sender = nodeAddr net d.sender := by
    show (helloOf _ (net.node i).order m).sender = _
    rw [family, announces.sender, started]
    rfl
  refine ⟨⟨setup, (tracked.ready i).idle, wellKept_heardHello (tracked.ready i).wellKept⟩, rfl, ?_⟩
  dsimp only
  rw [tableView_heardHello, TableView.hear, sender]
  split
  · rename_i here
    subst here
    rw [Function.update_self]
    refine ⟨_, rfl, ?_⟩
    rw [backlogsReadBy, backlogsIn_eq at_k announces.scanned]
    apply absorb_overwrites
    intro x known
    show x ∈ (helloOf (net.node i).bprd.ipver (net.node i).order m).commodities.map CommodityShort.addr
    rw [family, announces.dests]
    cases recorded : tableView (net.node i).bprd.nlist (nodeAddr net d.sender) with
    | none =>
        rw [recorded] at known
        exact absurd rfl known
    | some v =>
        rw [recorded] at known
        exact tracked.known_dests launched recorded known
  · rename_i other
    apply Function.update_of_ne
    rw [started, started]
    exact fun same => other (distinct same).symm

theorem Tracked.deliver (launched : Launched ipver start)
    (distinct : Function.Injective (nodeAddr start)) (tracked : Tracked start net) {d : Datagram ι}
    {ambient : Ambient} {out : Output} (at_k : net.sent[k]? = some d)
    (ran : nodeStep (net.node i) (.recv ambient d.bytes) = .ok (node', out)) :
    Tracked start (net.received i k node') := by
  have later : Later net (net.received i k node') := Network.received_later ran
  have hears := tracked.hears launched distinct at_k ran
  have isSender : senderOf net k = some d.sender := by
    rw [senderOf, at_k]
    rfl
  refine ⟨?_, ?_, ?_, ?_, ?_⟩
  · exact Network.forall_received (motive := fun j node => Ready (start.node j) node) (hears i).1
      tracked.ready
  · intro a k' delivered
    rcases List.mem_append.mp delivered with old | new
    · exact tracked.numbered a k' old
    · cases List.mem_singleton.mp new
      exact (List.getElem?_eq_some_iff.mp at_k).1
  · exact Network.forall_received (motive := fun j node =>
      node.bprd.helloSeqno = UInt16.ofNat (hellosBefore net j net.sent.length))
      ((hears i).2.1.trans (tracked.counted i)) tracked.counted
  · intro k' d' at_k'
    exact tracked.still_announced later (List.getElem?_eq_some_iff.mp at_k').1 at_k'
  · intro a b v recorded
    rw [later.nodeAddr_eq] at recorded
    by_cases here : i = a
    · subst here
      rw [Network.received_self] at recorded
      have shows := (hears b).2.2
      by_cases fromHere : d.sender = b
      · subst fromHere
        rw [if_pos rfl] at shows
        obtain ⟨w, now, overwritten⟩ := shows
        rw [now] at recorded
        cases recorded
        rw [hellosHeard_received, if_pos ⟨rfl, isSender⟩, Overwrite.shown_concat,
          later.backlogs_eq (List.getElem?_eq_some_iff.mp at_k).1, overwritten]
      · rw [if_neg fromHere] at shows
        rw [shows] at recorded
        apply tracked.still_shown later ?_ recorded
        rw [hellosHeard_received, if_neg, List.append_nil]
        rintro ⟨_, isSender'⟩
        exact fromHere (Option.some.inj (isSender.symm.trans isSender'))
    · rw [Network.received_other (Ne.symm here)] at recorded
      apply tracked.still_shown later ?_ recorded
      rw [hellosHeard_received, if_neg (fun both => here both.1), List.append_nil]

/-! ### Runs -/

variable {allowed : ι → Node → NodeOp → Prop} {passed : List (Network ι)} {net' : Network ι}

theorem Tracked.step (launched : Launched ipver start)
    (distinct : Function.Injective (nodeAddr start)) (tracked : Tracked start net)
    (step : NetworkStep allowed net net') : Tracked start net' := by
  cases step with
  | act i op node' out own _ ran => exact tracked.act launched own ran
  | deliver i k d ambient node' out sent ran => exact tracked.deliver launched distinct sent ran

theorem NetworkRun.tracked (launched : Launched ipver start)
    (distinct : Function.Injective (nodeAddr start)) (ran : NetworkRun allowed start passed net) :
    Tracked start net := by
  induction ran with
  | start => exact launched.tracked
  | step _ step ih => exact ih.step launched distinct step

/-- The reachable states are the last states of runs. -/
theorem reachable_iff_run :
    Reachable allowed start net ↔ ∃ passed, NetworkRun allowed start passed net := by
  constructor
  · intro reachable
    induction reachable with
    | refl => exact ⟨[], .start⟩
    | tail _ step ih =>
        obtain ⟨passed, ran⟩ := ih
        exact ⟨_, ran.step step⟩
  · rintro ⟨passed, ran⟩
    induction ran with
    | start => exact .refl
    | step _ step ih => exact .tail ih step

omit [DecidableEq ι] in
theorem NetworkStep.later [DecidableEq ι] (step : NetworkStep allowed net net') : Later net net' := by
  cases step with
  | act i op node' out own _ ran => exact Network.acted_later ran
  | deliver i k d ambient node' out sent ran => exact Network.received_later ran

theorem NetworkRun.later {state : Network ι} (ran : NetworkRun allowed start passed net)
    (before : state ∈ passed) : Later state net := by
  induction ran with
  | start => cases before
  | step ran step ih =>
      rcases List.mem_append.mp before with earlier | last
      · exact (ih earlier).trans step.later
      · rw [List.mem_singleton.mp last]
        exact step.later

/-- A step leaves the hellos that `a` has heard from `b`, or `a` processes one more and then has an entry
    for `b`. -/
theorem Tracked.hears_one (launched : Launched ipver start)
    (distinct : Function.Injective (nodeAddr start)) (tracked : Tracked start net)
    (step : NetworkStep allowed net net') (a b : ι) :
    hellosHeard net' a b = hellosHeard net a b ∨
      ∃ k v, hellosHeard net' a b = hellosHeard net a b ++ [k] ∧
        tableView (net'.node a).bprd.nlist (nodeAddr net' b) = some v := by
  have later := step.later
  cases step with
  | act i op node' out own _ ran => exact .inl (hellosHeard_acted later (tracked.numbered a))
  | deliver i k d ambient node' out sent ran =>
      rw [hellosHeard_received, later.nodeAddr_eq]
      by_cases hears : i = a ∧ senderOf net k = some b
      · obtain ⟨rfl, isSender⟩ := hears
        have fromHere : d.sender = b := by
          rw [senderOf, sent] at isSender
          exact Option.some.inj isSender
        have heard := (tracked.hears launched distinct sent ran b).2.2
        rw [if_pos fromHere] at heard
        obtain ⟨v, recorded, _⟩ := heard
        refine .inr ⟨k, v, by rw [if_pos ⟨rfl, isSender⟩], ?_⟩
        rw [Network.received_self]
        exact recorded
      · rw [if_neg hears]
        exact .inl (List.append_nil _)

theorem Tracked.newestWins (tracked : Tracked start net)
    (follows : Overwrite.shown (backlogsReadBy net a) (hellosHeard net a b) =
      Overwrite.newest (backlogsReadBy net a) (hellosHeard net a b)) : NewestWins net a b := by
  intro v recorded
  rw [tracked.shows a b v recorded, follows]

/-- What `a` reads from the hellos it has processed does not change, so the register follows the newest of
    them later exactly when it does now. -/
theorem Tracked.follows_later (tracked : Tracked start net) (later : Later net net') {sofar : List Nat}
    (isPrefix : sofar <+: hellosHeard net a b) :
    Overwrite.shown (backlogsReadBy net' a) sofar = Overwrite.newest (backlogsReadBy net' a) sofar ↔
      Overwrite.shown (backlogsReadBy net a) sofar = Overwrite.newest (backlogsReadBy net a) sofar := by
  have same : ∀ k ∈ sofar, backlogsReadBy net' a k = backlogsReadBy net a k := by
    intro k member
    have heard := mem_hellosHeard.mp (isPrefix.subset member)
    exact later.backlogs_eq (tracked.numbered a k heard.1)
  rw [Overwrite.shown_congr same, Overwrite.newest_congr same]

/-- The newest hello wins in all states of a run exactly when the register that every delivery overwrites
    follows the newest one. -/
theorem NetworkRun.newestWins_iff (launched : Launched ipver start)
    (distinct : Function.Injective (nodeAddr start)) (ran : NetworkRun allowed start passed net)
    (a b : ι) :
    (∀ state ∈ passed ++ [net], NewestWins state a b) ↔
      ∀ sofar, sofar <+: hellosHeard net a b →
        Overwrite.shown (backlogsReadBy net a) sofar = Overwrite.newest (backlogsReadBy net a) sofar := by
  induction ran with
  | start =>
      have nothing : hellosHeard start a b = [] := by
        rw [hellosHeard, launched.log]
        rfl
      rw [nothing, List.nil_append, List.forall_mem_singleton]
      constructor
      · intro _ sofar isPrefix
        rw [List.prefix_nil.mp isPrefix]
        rfl
      · intro _ v recorded
        rw [(launched.fresh a).2.2.1] at recorded
        cases recorded
  | @step passed net net' ran step ih =>
      have tracked := ran.tracked launched distinct
      have tracked' := tracked.step launched distinct step
      rw [List.forall_mem_append, List.forall_mem_singleton, ih]
      constructor
      · rintro ⟨before, now⟩ sofar isPrefix
        rcases tracked.hears_one launched distinct step a b with same | ⟨k, v, oneMore, recorded⟩
        · rw [same] at isPrefix
          exact (tracked.follows_later step.later isPrefix).mpr (before sofar isPrefix)
        · rw [oneMore] at isPrefix
          rcases List.prefix_concat_iff.mp isPrefix with rfl | shorter
          · rw [← oneMore, ← tracked'.shows a b v recorded, now v recorded]
          · exact (tracked.follows_later step.later shorter).mpr (before sofar shorter)
      · intro follows
        have grows : hellosHeard net a b <+: hellosHeard net' a b := by
          rcases tracked.hears_one launched distinct step a b with same | ⟨k, v, oneMore, recorded⟩
          · exact ⟨[], by rw [List.append_nil, same]⟩
          · exact ⟨[k], oneMore.symm⟩
        refine ⟨fun sofar isPrefix => ?_, tracked'.newestWins (follows _ (List.prefix_refl _))⟩
        exact (tracked.follows_later step.later isPrefix).mp (follows sofar (isPrefix.trans grows))

/-- No hello of `b` is outdated when `a` processes it: none brings, behind a newer hello of `b`, other
    backlogs than the newest one. -/
def NoHelloOutdated (net : Network ι) (a b : ι) : Prop :=
  Overwrite.NoneOutdated (backlogsReadBy net a) (hellosHeard net a b)

/-- In every state of a run the entry of `a` for `b` shows the newest hello of `b` processed so far, if and
    only if the run delivered no outdated hello of `b` to `a`. Over IPv6 no run has a hello. -/
theorem newest_hello_wins_iff (launched : Launched ipver start)
    (distinct : Function.Injective (nodeAddr start)) (ran : NetworkRun allowed start passed net)
    (a b : ι) :
    (∀ state ∈ passed ++ [net], NewestWins state a b) ↔ NoHelloOutdated net a b := by
  rw [ran.newestWins_iff launched distinct a b]
  exact Overwrite.follows_iff

/-! ### The numbers -/

/-- The callbacks of the reader do not look at the sequence number. -/
theorem scheduleMessage_seqno (bprd : BprdT) (order : Words.ByteOrder) (ambient : Ambient) (m : Message)
    (seqno : Option UInt16) (r : HelloReader) :
    scheduleMessage (helloConsumers bprd order ambient) { m with seqno := seqno } r =
      scheduleMessage (helloConsumers bprd order ambient) m r := rfl

/-- The sequence number of datagram `k`. -/
def seqnoOf (net : Network ι) (k : Nat) : Option UInt16 :=
  net.sent[k]?.bind fun d => (scanPacket d.bytes).1.head?.bind Message.seqno

/-- The number `y` is ahead of `x`, by less than half a cycle. -/
def SeqnoAhead (x y : UInt16) : Prop := 0 < y - x ∧ y - x < 0x8000

/-- When `a` processes a hello of `b`, fewer than 2^15 hellos of `b` lie between it and the newest one that
    `a` has processed before. -/
def FewOutstanding (net : Network ι) (a b : ι) : Prop :=
  ∀ earlier k later m, hellosHeard net a b = earlier ++ k :: later → earlier.max? = some m →
    hellosBefore net b m < hellosBefore net b k + 0x8000 ∧
      hellosBefore net b k < hellosBefore net b m + 0x8000

theorem seqnoAhead_ofNat_iff {first second : Nat} (near : first < second + 0x8000)
    (near' : second < first + 0x8000) :
    SeqnoAhead (UInt16.ofNat first) (UInt16.ofNat second) ↔ first < second := by
  have gap : (UInt16.ofNat second - UInt16.ofNat first).toNat =
      (0x10000 - first % 0x10000 + second % 0x10000) % 0x10000 := by
    rw [UInt16.toNat_sub, UInt16.toNat_ofNat', UInt16.toNat_ofNat']
  rw [SeqnoAhead, UInt16.lt_iff_toNat_lt, UInt16.lt_iff_toNat_lt, gap]
  exact WrapCounter.ahead_iff (Nat.le_refl _) near near'

/-- Hello `k` of a daemon carries the count of its hellos before, as a 16-bit number. -/
theorem Tracked.seqnoOf_eq (tracked : Tracked start net) (isSender : senderOf net k = some b) :
    seqnoOf net k = some (UInt16.ofNat (hellosBefore net b k)) := by
  obtain ⟨d, at_k, rfl⟩ := Option.map_eq_some_iff.mp isSender
  obtain ⟨m, announces⟩ := tracked.announced k d at_k
  rw [seqnoOf, at_k, Option.bind_some, announces.scanned]
  exact announces.numbered

theorem hellosBefore_eq : hellosBefore net b k =
    ((net.sent.map Datagram.sender).take k).countP fun i => decide (i = b) := by
  rw [hellosBefore, ← List.map_take, List.countP_map]
  rfl

theorem hellosBefore_mono {k' : Nat} (le : k ≤ k') : hellosBefore net b k ≤ hellosBefore net b k' := by
  apply List.Sublist.countP_le
  exact (List.take_prefix_take_left le).sublist

theorem hellosBefore_lt {k' : Nat} (isSender : senderOf net k = some b) (lt : k < k') :
    hellosBefore net b k < hellosBefore net b k' := by
  obtain ⟨d, at_k, rfl⟩ := Option.map_eq_some_iff.mp isSender
  have next : hellosBefore net d.sender (k + 1) = hellosBefore net d.sender k + 1 := by
    rw [hellosBefore, List.take_add_one, at_k, List.countP_append, hellosBefore]
    simp
  have mono : hellosBefore net d.sender (k + 1) ≤ hellosBefore net d.sender k' := hellosBefore_mono lt
  omega

/-- As long as few are outstanding, the numbers that the receiver ignores tell an older hello from the newest
    one before it. -/
theorem seqno_ahead_iff (launched : Launched ipver start)
    (distinct : Function.Injective (nodeAddr start)) (reachable : Reachable allowed start net)
    (few : FewOutstanding net a b) {earlier later : List Nat} {m : Nat}
    (heard : hellosHeard net a b = earlier ++ k :: later) (newest : earlier.max? = some m) :
    ∃ x y, seqnoOf net k = some x ∧ seqnoOf net m = some y ∧ (SeqnoAhead x y ↔ k < m) := by
  obtain ⟨passed, ran⟩ := reachable_iff_run.mp reachable
  have tracked := ran.tracked launched distinct
  have isHello : ∀ j ∈ earlier ++ k :: later, senderOf net j = some b := by
    intro j member
    rw [← heard] at member
    exact (mem_hellosHeard.mp member).2
  have older := isHello k (List.mem_append_right _ (List.mem_cons_self ..))
  have newer := isHello m (List.mem_append_left _ (List.max?_mem newest))
  obtain ⟨near', near⟩ := few earlier k later m heard newest
  refine ⟨_, _, tracked.seqnoOf_eq older, tracked.seqnoOf_eq newer, ?_⟩
  rw [seqnoAhead_ofNat_iff near near']
  constructor
  · intro before
    by_contra above
    exact absurd before (Nat.not_lt.mpr (hellosBefore_mono (Nat.not_lt.mp above)))
  · exact hellosBefore_lt older

/-! ### A late hello -/

/-- A host of the sender's byte order reads the backlogs that the sender advertised when it built the
    hello. -/
theorem Tracked.sends_backlogs (launched : Launched ipver start) (tracked : Tracked start net)
    {padding : Nat → UInt8 × UInt8} {clock : Nat → Timeval} {sendto : List UInt8 → Bool} {out : Output}
    (ran : nodeStep (net.node i) (.hello padding clock sendto) = .ok (node', out))
    (same : (net.node a).order = (net.node i).order) :
    backlogsReadBy (net.acted i (.hello padding clock sendto) node' out) a net.sent.length =
      fun d => lastBacklog d (((net.node i).bprd.clist.map Commodity.cdata).take
        (keptCount ipver (net.node i).bprd.clist.length)) := by
  have families : ∀ j, (net.node j).bprd.ipver = ipver := fun j =>
    (tracked.ready j).setup.ipver.trans (launched.fresh j).1
  have own : (net.node i).bprd.saddr.family = (net.node i).bprd.ipver := by
    rw [(tracked.ready i).setup.saddr, families]
    exact (launched.fresh i).2.1
  have setup := (Network.acted_later ran).setup a
  obtain ⟨written, bprd, cycled, _, isOut⟩ := nodeStep_hello.mp ran
  obtain ⟨_, _, _, datagram, m, sent, _, scanned, _, means⟩ :=
    helloCycle_sends (by rw [families]; exact launched.running) own (tracked.ready i).idle cycled
  have at_k : (net.acted i (.hello padding clock sendto) node' out).sent[net.sent.length]? =
      some ⟨i, datagram⟩ := by
    show (net.sent ++ out.datagrams.map _)[net.sent.length]? = _
    rw [List.getElem?_append_right (Nat.le_refl _), Nat.sub_self, isOut, sent]
    rfl
  rw [families] at means
  rw [backlogsReadBy, backlogsIn_eq at_k scanned, setup.ipver, setup.order, same, families, means]
  show (fun d => lastBacklog d (((net.node i).bprd.clist.map Commodity.cdata).take
    (keptCount (net.node i).bprd.ipver _))) = _
  rw [families]

end

end

theorem Started.launched {ι : Type} {order : Words.ByteOrder} {rules : ι → List Rule}
    {start : Network ι} (started : Started order rules start) : Launched afInet start where
  running := .inl rfl
  nodes := fun i => by
    obtain ⟨createQueue, leftover, config, ran, inet, family, _⟩ := started.nodes i
    exact ⟨createQueue, leftover, config, rules i, ran, inet, family⟩
  sent := started.sent
  log := started.log

/-- The second daemon sends a hello, a packet arrives, and after a router update it sends another. The first
    daemon processes the second hello, and then the first. -/
def lateScript : List (Turn Bool) :=
  [.act true greet, .act true (.backlogger (.add 0)), .act true (.update acceptTies zeroLeftover),
    .act true greet, .deliver false 1 stillAmbient, .deliver false 0 stillAmbient]

theorem late_run : ∃ passed net, NetworkRun (fun _ _ _ => True) pairStart passed net ∧
    net.sent.length = 2 ∧ hellosHeard net false true = [1, 0] ∧ seqnoOf net 0 = some 0 ∧
    seqnoOf net 1 = some 1 ∧ backlogsReadBy net false 1 (host4 [10, 0, 0, 9]) = some 1 ∧
    ∃ v, tableView (net.node false).bprd.nlist (nodeAddr net true) = some v ∧
      v.backlog (host4 [10, 0, 0, 9]) = some 0 := by
  obtain ⟨net, reachable, found⟩ := @Network.exists_of_perform _ _ (fun _ _ _ => True) pairStart
    lateScript
    (fun net => net.sent.length == 2 && hellosHeard net false true == [1, 0] &&
      seqnoOf net 0 == some 0 && seqnoOf net 1 == some 1 &&
      backlogsReadBy net false 1 (host4 [10, 0, 0, 9]) == some 1 &&
      (tableView (net.node false).bprd.nlist (nodeAddr net true)).any fun v =>
        v.backlog (host4 [10, 0, 0, 9]) == some 0)
    (by simp [lateScript, Turn.Open, greet]) (by decide +kernel)
  obtain ⟨passed, ran⟩ := reachable_iff_run.mp reachable
  simp only [Bool.and_eq_true, beq_iff_eq, Option.any_eq_true, and_assoc] at found
  exact ⟨passed, net, ran, found⟩

/-- A late hello overwrites the backlogs of a newer one: the first daemon processes the hello numbered 1 and
    then the one numbered 0, and shows the backlog of the latter. -/
theorem late_hello_overwrites : ∃ passed net,
    NetworkRun (fun _ _ _ => True) pairStart passed net ∧ FewOutstanding net false true ∧
      hellosHeard net false true = [1, 0] ∧ seqnoOf net 0 = some 0 ∧ seqnoOf net 1 = some 1 ∧
      ¬NewestWins net false true := by
  obtain ⟨passed, net, ran, size, heard, older, newer, reads, v, recorded, shows⟩ := late_run
  refine ⟨passed, net, ran, ?_, heard, older, newer, ?_⟩
  · intro earlier k later m _ _
    have few : ∀ j, hellosBefore net true j ≤ 2 := by
      intro j
      rw [← size, hellosBefore]
      exact List.countP_le_length.trans (List.length_take_le' _ _)
    have := few k
    have := few m
    omega
  · intro wins
    have newest := wins v recorded
    rw [heard] at newest
    have same : v.backlog = backlogsReadBy net false 1 := Option.some.inj newest
    rw [same, reads] at shows
    cases shows

/-- The run of a late hello is one to which `newest_hello_wins_iff` applies. -/
theorem newest_hello_wins_iff_late : ∃ passed net,
    NetworkRun (fun _ _ _ => True) pairStart passed net ∧ hellosHeard net false true = [1, 0] ∧
      ((∀ state ∈ passed ++ [net], NewestWins state false true) ↔ NoHelloOutdated net false true) := by
  obtain ⟨passed, net, ran, _, heard, _⟩ := late_run
  exact ⟨passed, net, ran, heard,
    newest_hello_wins_iff pairStart_started.launched pairStart_distinct ran false true⟩

end Bprd
