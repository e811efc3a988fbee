/-
Module: Bprd.Proofs.NetworkFacts
Layer: Proofs
Purpose: Tables hold no invented facts. In a network of daemons over IPv4 every entry of a table goes back
  to hellos that were really sent and delivered: a link marked as bidirectional to a hello heard at the
  far side, a recorded backlog to a queue length at an update of the neighbour. The invariant speaks of
  what daemons advertise, of the hellos under way, and of the tables, each against the log.
Imports: Bprd.Proofs.NodeTable, Bprd.Proofs.HelloRoundTrip, Bprd.Model.Network
Trusted boundary: none
Main exports: Started, Mutual, LastHeard, Truthful, reachable_truthful, tables_invent_nothing
-/
import Bprd.Proofs.NodeTable
import Bprd.Proofs.HelloRoundTrip
import Bprd.Model.Network

namespace Bprd

/-- What a prefix has at a position, the whole has there. -/
theorem getElem?_of_prefix {α : Type} {l l' : List α} (grows : l <+: l') {k : Nat} {x : α}
    (at_k : l[k]? = some x) : l'[k]? = some x := by
  obtain ⟨more, rfl⟩ := grows
  rw [List.getElem?_append_left (List.getElem?_eq_some_iff.mp at_k).1]
  exact at_k

variable {ι : Type}

/-! ### Datagrams and the log -/

/-- Datagram `k` was sent by `b`. -/
def SentBy (net : Network ι) (b : ι) (k : Nat) : Prop := ∃ bytes, net.sent[k]? = some ⟨b, bytes⟩

/-- Datagram `k` is read as one well-formed hello. -/
def Means (order : Words.ByteOrder) (net : Network ι) (k : Nat) (hello : Hello) : Prop :=
  ∃ d m, net.sent[k]? = some d ∧ scanPacket d.bytes = ([m], none) ∧ WellFormed afInet m ∧
    helloOf afInet order m = hello

/-- Datagram `k` is a hello of `b` that carries the destination `d`. -/
def Carries (order : Words.ByteOrder) (net : Network ι) (b : ι) (d : Netaddr) (k : Nat) : Prop :=
  SentBy net b k ∧ ∃ hello, Means order net k hello ∧ ∃ c ∈ hello.commodities, c.addr = d

/-- `b`'s queue for `d` had a length at some router update. -/
def LengthAt (log : List (Event ι)) (b : ι) (d : Netaddr) (length : UInt32) : Prop :=
  ∃ clist, .updated b clist ∈ log ∧ QueueLength clist d length

/-- Some hello of `a` was delivered to `b` before `b` built a hello that was later delivered to `a`. -/
def Mutual (net : Network ι) (a b : ι) : Prop :=
  ∃ ka kb, SentBy net a ka ∧ SentBy net b kb ∧
    [.delivered b ka, .sent b kb, .delivered a kb].Sublist net.log

/-- A backlog for `d` is 0, or the length of `b`'s queue at a router update before `b` built the last
    hello carrying `d` that `a` processed. -/
def LastHeard (order : Words.ByteOrder) (net : Network ι) (a b : ι) (d : Netaddr)
    (backlog : UInt32) : Prop :=
  ∃ k before after, net.log = before ++ .delivered a k :: after ∧ Carries order net b d k ∧
    (∀ k', .delivered a k' ∈ after → ¬Carries order net b d k') ∧
    (backlog = 0 ∨ ∃ clist, QueueLength clist d backlog ∧
      [.updated b clist, .sent b k].Sublist net.log)

section

variable {order : Words.ByteOrder} {net net' : Network ι} {a b : ι} {d : Netaddr} {k : Nat}

theorem SentBy.mono (sent : SentBy net b k) (grows : net.sent <+: net'.sent) : SentBy net' b k := by
  obtain ⟨bytes, at_k⟩ := sent
  exact ⟨bytes, getElem?_of_prefix grows at_k⟩

theorem SentBy.unique (sent : SentBy net a k) (sent' : SentBy net b k) : a = b := by
  obtain ⟨_, at_k⟩ := sent
  obtain ⟨_, at_k'⟩ := sent'
  rw [at_k] at at_k'
  cases at_k'
  rfl

theorem Means.mono {hello : Hello} (means : Means order net k hello)
    (grows : net.sent <+: net'.sent) : Means order net' k hello := by
  obtain ⟨d, m, at_k, reads⟩ := means
  exact ⟨d, m, getElem?_of_prefix grows at_k, reads⟩

theorem Means.unique {hello hello' : Hello} (means : Means order net k hello)
    (means' : Means order net k hello') : hello = hello' := by
  obtain ⟨_, _, at_k, scanned, _, rfl⟩ := means
  obtain ⟨_, _, at_k', scanned', _, rfl⟩ := means'
  rw [at_k] at at_k'
  cases at_k'
  rw [scanned] at scanned'
  cases scanned'
  rfl

theorem Carries.mono (carries : Carries order net b d k) (grows : net.sent <+: net'.sent) :
    Carries order net' b d k := by
  obtain ⟨sent, hello, means, carried⟩ := carries
  exact ⟨sent.mono grows, hello, means.mono grows, carried⟩

/-- A datagram that was there before carried the same. -/
theorem Carries.before (carries : Carries order net' b d k) (grows : net.sent <+: net'.sent)
    (old : k < net.sent.length) : Carries order net b d k := by
  have same : net'.sent[k]? = net.sent[k]? := by
    obtain ⟨more, isMore⟩ := grows
    rw [← isMore, List.getElem?_append_left old]
  obtain ⟨⟨bytes, at_k⟩, hello, ⟨dg, m, at_k', reads⟩, carried⟩ := carries
  exact ⟨⟨bytes, same ▸ at_k⟩, hello, ⟨dg, m, same ▸ at_k', reads⟩, carried⟩

theorem Mutual.mono (mutual_ : Mutual net a b) (sentGrows : net.sent <+: net'.sent)
    (logGrows : net.log <+: net'.log) : Mutual net' a b := by
  obtain ⟨ka, kb, sent, sent', inOrder⟩ := mutual_
  exact ⟨ka, kb, sent.mono sentGrows, sent'.mono sentGrows, inOrder.trans logGrows.sublist⟩

/-- A last hello stays the last one while no other that carries the destination is processed. -/
theorem LastHeard.mono {backlog : UInt32} {later : List (Event ι)}
    (heard : LastHeard order net a b d backlog) (sentGrows : net.sent <+: net'.sent)
    (log : net'.log = net.log ++ later)
    (numbered : ∀ k, .delivered a k ∈ net.log → k < net.sent.length)
    (quiet : ∀ k, .delivered a k ∈ later → ¬Carries order net' b d k) :
    LastHeard order net' a b d backlog := by
  obtain ⟨k, before, after, shape, carries, last, origin⟩ := heard
  refine ⟨k, before, after ++ later, ?_, carries.mono sentGrows, ?_, ?_⟩
  · rw [log, shape, List.append_assoc, List.cons_append]
  · intro k' member carries'
    rcases List.mem_append.mp member with old | new
    · have inLog : .delivered a k' ∈ net.log := by
        rw [shape]
        exact List.mem_append_right _ (List.mem_cons_of_mem _ old)
      exact last k' old (carries'.before sentGrows (numbered k' inLog))
    · exact quiet k' new carries'
  · refine origin.imp_right fun ⟨clist, length, inOrder⟩ => ⟨clist, length, ?_⟩
    rw [log]
    exact inOrder.trans (List.sublist_append_left _ _)

end

/-! ### The invariant -/

/-- A daemon over IPv4, between two rounds of its hello writer. -/
structure ReadyOver (order : Words.ByteOrder) (own : Netaddr) (node : Node) : Prop where
  inet : node.bprd.ipver = afInet
  family : node.bprd.saddr.family = afInet
  own : ownNetaddr node.bprd.saddr = own
  order : node.order = order
  idle : Idle node.writer
  wellKept : WellKept node.bprd.nlist

section

variable (addr : ι → Netaddr) (order : Words.ByteOrder)

/-- What holds of hello `k` of `b`: it names its sender, carries backlogs that `b` had before, and lists
    nodes that `b` had heard. -/
structure Posted (net : Network ι) (b : ι) (k : Nat) (hello : Hello) : Prop where
  sender : hello.sender = addr b
  past : ∃ before after, net.log = before ++ .sent b k :: after ∧
    (∀ c ∈ hello.commodities, c.backlog = 0 ∨ LengthAt before b c.addr c.backlog) ∧
    ∀ x ∈ hello.listed, ∃ a ka, x = addr a ∧ SentBy net a ka ∧ .delivered b ka ∈ before

/-- What holds of an entry of `a` for an address. -/
def Known (net : Network ι) (a : ι) (x : Netaddr) (v : NeighborView) : Prop :=
  ∃ b, x = addr b ∧ (∃ k, SentBy net b k ∧ .delivered a k ∈ net.log) ∧
    (v.bidir = 1 → Mutual net a b) ∧
    ∀ d backlog, v.backlog d = some backlog → LastHeard order net a b d backlog

/-- Everything that is advertised, under way, or recorded goes back to the log. -/
structure Truthful (net : Network ι) : Prop where
  ready : ∀ i, ReadyOver order (addr i) (net.node i)
  numbered : ∀ a k, .delivered a k ∈ net.log → k < net.sent.length
  advertised : ∀ b d backlog, Advertises (net.node b) d backlog →
    backlog = 0 ∨ LengthAt net.log b d backlog
  posted : ∀ k < net.sent.length, ∃ b hello, SentBy net b k ∧ Means order net k hello ∧
    Posted addr net b k hello
  known : ∀ a x v, tableView (net.node a).bprd.nlist x = some v → Known addr order net a x v

end

section

variable {addr : ι → Netaddr} {order : Words.ByteOrder} {net net' : Network ι}

theorem Posted.mono {b : ι} {k : Nat} {hello : Hello} (posted : Posted addr net b k hello)
    (sentGrows : net.sent <+: net'.sent) (logGrows : net.log <+: net'.log) :
    Posted addr net' b k hello := by
  obtain ⟨before, after, shape, backlogs, listed⟩ := posted.past
  obtain ⟨later, log⟩ := logGrows
  refine ⟨posted.sender, before, after ++ later, ?_, backlogs, ?_⟩
  · rw [← log, shape, List.append_assoc, List.cons_append]
  · intro x member
    obtain ⟨a, ka, isNode, sent, heard⟩ := listed x member
    exact ⟨a, ka, isNode, sent.mono sentGrows, heard⟩

theorem Known.mono {a : ι} {x : Netaddr} {v : NeighborView} {later : List (Event ι)}
    (known : Known addr order net a x v) (sentGrows : net.sent <+: net'.sent)
    (log : net'.log = net.log ++ later)
    (numbered : ∀ k, .delivered a k ∈ net.log → k < net.sent.length)
    (quiet : ∀ k b, .delivered a k ∈ later → SentBy net' b k → x ≠ addr b) :
    Known addr order net' a x v := by
  obtain ⟨b, isNode, ⟨k, sent, heard⟩, bidir, backlogs⟩ := known
  have logGrows : net.log <+: net'.log := ⟨later, log.symm⟩
  refine ⟨b, isNode, ⟨k, sent.mono sentGrows, logGrows.subset heard⟩, ?_, ?_⟩
  · exact fun isBidir => (bidir isBidir).mono sentGrows logGrows
  · intro d backlog recorded
    refine (backlogs d backlog recorded).mono sentGrows log numbered ?_
    exact fun k' new carries => quiet k' b new carries.1 isNode

theorem LengthAt.mono {log log' : List (Event ι)} {b : ι} {d : Netaddr} {length : UInt32}
    (lengthAt : LengthAt log b d length) (grows : log <+: log') : LengthAt log' b d length := by
  obtain ⟨clist, updated, isLength⟩ := lengthAt
  exact ⟨clist, grows.subset updated, isLength⟩

end

/-! ### Own steps -/

section

variable {order : Words.ByteOrder} {own : Netaddr} {node node' : Node} {op : NodeOp} {out : Output}

/-- What a hello round of a daemon sends. -/
theorem ReadyOver.sends (ready : ReadyOver order own node) {padding : Nat → UInt8 × UInt8}
    {clock : Nat → Timeval} {sendto : List UInt8 → Bool}
    (ran : nodeStep node (.hello padding clock sendto) = .ok (node', out)) :
    Idle node'.writer ∧ ∃ datagram m, out.datagrams = [datagram] ∧
      scanPacket datagram = ([m], none) ∧ WellFormed afInet m ∧
      helloOf afInet order m =
        helloSent node.bprd (ntableRefresh node.bprd.neighborTimeout clock node.bprd.nlist) := by
  obtain ⟨written, bprd, cycled, rfl, rfl⟩ := nodeStep_hello.mp ran
  obtain ⟨_, idle, _, datagram, m, sent, _, scanned, wellFormed, means⟩ := helloCycle_sends
    (.inl ready.inet) (ready.family.trans ready.inet.symm) ready.idle cycled
  rw [ready.inet] at wellFormed means
  rw [ready.order] at means
  exact ⟨idle, datagram, m, sent, scanned, wellFormed, means⟩

theorem ReadyOver.step (ready : ReadyOver order own node)
    (isOwn : ∀ ambient buf, op ≠ .recv ambient buf) (ran : nodeStep node op = .ok (node', out)) :
    ReadyOver order own node' := by
  have setup := nodeStep_sameSetup ran
  exact
    { inet := setup.ipver.trans ready.inet
      family := by rw [setup.saddr]; exact ready.family
      own := by rw [setup.saddr]; exact ready.own
      order := setup.order.trans ready.order
      idle := nodeStep_idle (.inl ready.inet) ready.idle ran
      wellKept := (nodeStep_table isOwn ready.wellKept ran).1 }

/-- Own steps record updates with the commodities before the step, and datagrams sent. -/
theorem mem_ownEvents {i : ι} {numbered : Nat} {event : Event ι}
    (member : event ∈ ownEvents i node op numbered out) :
    event = .updated i node.bprd.clist ∨ ∃ k, event = .sent i k := by
  unfold ownEvents at member
  rcases List.mem_append.mp member with updated | sent
  · cases op with
    | update _ _ => exact .inl (List.mem_singleton.mp updated)
    | backlogger _ => cases updated
    | recv _ _ => cases updated
    | refresh _ => cases updated
    | hello _ _ _ => cases updated
  · obtain ⟨k, _, isSent⟩ := List.mem_map.mp sent
    exact .inr ⟨numbered + k, isSent.symm⟩

/-- Own steps record no delivery. -/
theorem ownEvents_delivered {i : ι} {numbered k : Nat} {a : ι} :
    .delivered a k ∉ ownEvents i node op numbered out := by
  intro member
  rcases mem_ownEvents member with updated | ⟨_, sent⟩
  · cases updated
  · cases sent

end

section

variable [DecidableEq ι] {addr : ι → Netaddr} {order : Words.ByteOrder} {net : Network ι} {i j : ι}
  {node' : Node}

@[simp] theorem Network.acted_self {op : NodeOp} {out : Output} :
    (net.acted i op node' out).node i = node' :=
  Function.update_self ..

@[simp] theorem Network.acted_other {op : NodeOp} {out : Output} (other : j ≠ i) :
    (net.acted i op node' out).node j = net.node j :=
  Function.update_of_ne other ..

@[simp] theorem Network.received_self {k : Nat} : (net.received i k node').node i = node' :=
  Function.update_self ..

@[simp] theorem Network.received_other {k : Nat} (other : j ≠ i) :
    (net.received i k node').node j = net.node j :=
  Function.update_of_ne other ..

/-- What holds of the daemon that took a step, and held of all daemons before, holds of all after it. -/
theorem Network.forall_acted {motive : ι → Node → Prop} {op : NodeOp} {out : Output}
    (here : motive i node') (before : ∀ j, motive j (net.node j)) (j : ι) :
    motive j ((net.acted i op node' out).node j) := by
  by_cases isActor : j = i
  · subst isActor
    rw [Network.acted_self]
    exact here
  · rw [Network.acted_other isActor]
    exact before j

theorem Network.forall_received {motive : ι → Node → Prop} {k : Nat} (here : motive i node')
    (before : ∀ j, motive j (net.node j)) (j : ι) : motive j ((net.received i k node').node j) := by
  by_cases isReceiver : j = i
  · subst isReceiver
    rw [Network.received_self]
    exact here
  · rw [Network.received_other isReceiver]
    exact before j

/-- Own steps process no datagram. -/
theorem Network.delivered_acted {op : NodeOp} {out : Output} {a : ι} {k : Nat}
    (delivered : .delivered a k ∈ (net.acted i op node' out).log) : .delivered a k ∈ net.log := by
  rcases List.mem_append.mp delivered with old | new
  · exact old
  · exact absurd new ownEvents_delivered

/-- An own step that is no hello round leaves what was sent. -/
theorem Network.acted_sent {op : NodeOp} {out : Output}
    (silent : ∀ padding clock sendto, op ≠ .hello padding clock sendto)
    (ran : nodeStep (net.node i) op = .ok (node', out)) :
    (net.acted i op node' out).sent = net.sent := by
  show net.sent ++ out.datagrams.map _ = _
  rw [(nodeStep_silent silent ran).1, List.map_nil, List.append_nil]

/-- Own steps record nothing new. -/
theorem Network.recorded_acted {op : NodeOp} {out : Output} (own : ∀ ambient buf, op ≠ .recv ambient buf)
    (wellKept : WellKept (net.node i).bprd.nlist) (ran : nodeStep (net.node i) op = .ok (node', out))
    {a : ι} {x : Netaddr} {v : NeighborView}
    (recorded : tableView ((net.acted i op node' out).node a).bprd.nlist x = some v) :
    tableView (net.node a).bprd.nlist x = some v := by
  by_cases here : a = i
  · subst here
    rw [Network.acted_self] at recorded
    obtain ⟨gone, table⟩ := (nodeStep_table own wellKept ran).2
    rw [table, TableView.expire] at recorded
    split at recorded
    · cases recorded
    · exact recorded
  · rw [Network.acted_other here] at recorded
    exact recorded

omit [DecidableEq ι] in
/-- A hello of a daemon is truthful: it tells what the daemon advertises and whom it has heard. -/
theorem Truthful.posts (truthful : Truthful addr order net) {left : List Neighbor}
    (sublist : left.Sublist (net.node i).bprd.nlist) :
    (helloSent (net.node i).bprd left).sender = addr i ∧
      (∀ c ∈ (helloSent (net.node i).bprd left).commodities,
        c.backlog = 0 ∨ LengthAt net.log i c.addr c.backlog) ∧
      ∀ x ∈ (helloSent (net.node i).bprd left).listed,
        ∃ a ka, x = addr a ∧ SentBy net a ka ∧ .delivered i ka ∈ net.log := by
  have ready := truthful.ready i
  refine ⟨ready.own, ?_, ?_⟩
  · intro cdata member
    obtain ⟨c, isOwn, rfl⟩ := List.mem_map.mp (List.mem_of_mem_take member)
    exact truthful.advertised i _ _ ⟨c, isOwn, rfl, rfl⟩
  · intro x member
    obtain ⟨n, isLeft, rfl⟩ := mem_listed_iff.mp member
    have recorded := ready.wellKept.view_of_mem (sublist.subset isLeft)
    obtain ⟨a, isNode, ⟨ka, sent, heard⟩, _⟩ := truthful.known i _ _ recorded
    refine ⟨a, ka, ?_, sent, heard⟩
    have host := hostAddr_ownNetaddr (.inl rfl) (truthful.ready a).family
    rw [listedAs, ready.inet, isNode, ← (truthful.ready a).own, host]

/-- A hello round of a daemon adds one datagram to those sent, and it is truthful. -/
theorem Truthful.sends (truthful : Truthful addr order net) {padding : Nat → UInt8 × UInt8}
    {clock : Nat → Timeval} {sendto : List UInt8 → Bool} {out : Output}
    (ran : nodeStep (net.node i) (.hello padding clock sendto) = .ok (node', out)) :
    (net.acted i (.hello padding clock sendto) node' out).sent.length = net.sent.length + 1 ∧
      ∃ hello, SentBy (net.acted i (.hello padding clock sendto) node' out) i net.sent.length ∧
        Means order (net.acted i (.hello padding clock sendto) node' out) net.sent.length hello ∧
        Posted addr (net.acted i (.hello padding clock sendto) node' out) i net.sent.length hello := by
  obtain ⟨_, datagram, m, isSent, scanned, wellFormed, means⟩ := (truthful.ready i).sends ran
  have sentNow : (net.acted i (.hello padding clock sendto) node' out).sent =
      net.sent ++ [⟨i, datagram⟩] := by
    show net.sent ++ out.datagrams.map _ = _
    rw [isSent]
    rfl
  have logNow : (net.acted i (.hello padding clock sendto) node' out).log =
      net.log ++ [.sent i net.sent.length] := by
    show net.log ++ ownEvents _ _ _ _ _ = _
    unfold ownEvents
    rw [isSent]
    rfl
  have at_k : (net.acted i (.hello padding clock sendto) node' out).sent[net.sent.length]? =
      some ⟨i, datagram⟩ := by
    rw [sentNow, List.getElem?_append_right (Nat.le_refl _), Nat.sub_self]
    rfl
  obtain ⟨sender, backlogs, listed⟩ := truthful.posts
    (listRemoveCond_sublist (fun k n => condNExpired (net.node i).bprd.neighborTimeout (clock k) n)
      0 (net.node i).bprd.nlist)
  refine ⟨by rw [sentNow, List.length_append, List.length_singleton], _, ⟨datagram, at_k⟩,
    ⟨_, m, at_k, scanned, wellFormed, means⟩, sender, net.log, [], logNow, backlogs, ?_⟩
  intro x member
  obtain ⟨a, ka, isNode, sent, heard⟩ := listed x member
  exact ⟨a, ka, isNode, sent.mono (List.prefix_append _ _), heard⟩

theorem Truthful.act (truthful : Truthful addr order net) {op : NodeOp} {out : Output}
    (own : ∀ ambient buf, op ≠ .recv ambient buf)
    (ran : nodeStep (net.node i) op = .ok (node', out)) :
    Truthful addr order (net.acted i op node' out) := by
  have sentGrows : net.sent <+: (net.acted i op node' out).sent := List.prefix_append _ _
  have logGrows : net.log <+: (net.acted i op node' out).log := List.prefix_append _ _
  have ready := truthful.ready i
  refine ⟨?_, ?_, ?_, ?_, ?_⟩
  · exact Network.forall_acted (motive := fun j node => ReadyOver order (addr j) node)
      (ready.step own ran) truthful.ready
  · intro a k delivered
    exact Nat.lt_of_lt_of_le (truthful.numbered a k (Network.delivered_acted delivered))
      sentGrows.length_le
  · intro b d backlog advertised
    by_cases here : b = i
    · subst here
      rw [Network.acted_self] at advertised
      rcases nodeStep_advertises ran advertised with before | ⟨⟨tie, leftover, rfl⟩, isLength⟩
      · exact (truthful.advertised b d backlog before).imp_right fun old => old.mono logGrows
      · refine .inr ⟨_, ?_, isLength⟩
        exact List.mem_append_right _ (List.mem_append_left _ (List.mem_singleton.mpr rfl))
    · rw [Network.acted_other here] at advertised
      exact (truthful.advertised b d backlog advertised).imp_right fun old => old.mono logGrows
  · intro k inside
    by_cases old : k < net.sent.length
    · obtain ⟨b, hello, sent, means, posted⟩ := truthful.posted k old
      exact ⟨b, hello, sent.mono sentGrows, means.mono sentGrows, posted.mono sentGrows logGrows⟩
    · rcases hello_or_silent op with ⟨padding, clock, sendto, rfl⟩ | silent
      · obtain ⟨oneMore, posted⟩ := truthful.sends ran
        have isLast : k = net.sent.length := by omega
        subst isLast
        exact ⟨i, posted⟩
      · rw [Network.acted_sent silent ran] at inside
        exact absurd inside old
  · intro a x v recorded
    have before := Network.recorded_acted own ready.wellKept ran recorded
    exact (truthful.known a x v before).mono sentGrows rfl (truthful.numbered a)
      fun k b delivered => absurd delivered ownEvents_delivered

/-! ### Deliveries -/

theorem lastBacklog_mem {d : Netaddr} {commodities : List CommodityShort} {backlog : UInt32}
    (last : lastBacklog d commodities = some backlog) :
    ∃ c ∈ commodities, c.addr = d ∧ c.backlog = backlog := by
  obtain ⟨c, found, isBacklog⟩ := Option.map_eq_some_iff.mp last
  exact ⟨c, List.mem_reverse.mp (List.mem_of_find?_eq_some found), by simpa using List.find?_some found,
    isBacklog⟩

omit [DecidableEq ι] in
/-- Every datagram of the network is received without a fault, and heard as the hello it was meant to
    be. -/
theorem Truthful.receives (truthful : Truthful addr order net) {k : Nat} {d : Datagram ι}
    (at_k : net.sent[k]? = some d) (i : ι) (ambient : Ambient) :
    ∃ b hello, SentBy net b k ∧ Means order net k hello ∧ Posted addr net b k hello ∧
      nodeStep (net.node i) (.recv ambient d.bytes) = .ok ({ net.node i with
        bprd := { (net.node i).bprd with
          nlist := heardHello (addr i) (ambient.clock 0) hello (net.node i).bprd.nlist } },
        ⟨[], [], []⟩) := by
  have ready := truthful.ready i
  obtain ⟨b, hello, sent, means, posted⟩ := truthful.posted k (List.getElem?_eq_some_iff.mp at_k).1
  refine ⟨b, hello, sent, means, posted, ?_⟩
  obtain ⟨_, m, at_k', scanned, wellFormed, isHello⟩ := means
  rw [at_k] at at_k'
  cases at_k'
  rw [← ready.inet] at wellFormed isHello
  rw [← ready.order] at isHello
  have heard := @helloRecv_one (net.node i).bprd (net.node i).order ambient (.inl ready.inet) d.bytes _
    scanned wellFormed
  rw [isHello, heardHello_seen_inet ready.family, ready.own] at heard
  exact nodeStep_recv.mpr ⟨_, heard, rfl, rfl⟩

omit [DecidableEq ι] in
/-- What is recorded under the address of a node is about that node. -/
theorem Truthful.recorded_for (injective : Function.Injective addr) (truthful : Truthful addr order net)
    {b : ι} {v : NeighborView} (recorded : tableView (net.node i).bprd.nlist (addr b) = some v) :
    (v.bidir = 1 → Mutual net i b) ∧
      ∀ d backlog, v.backlog d = some backlog → LastHeard order net i b d backlog := by
  obtain ⟨b', isNode, _, bidir, backlogs⟩ := truthful.known i _ v recorded
  cases injective isNode
  exact ⟨bidir, backlogs⟩

theorem sublist_pair {α : Type} {first second : α} {before after : List α} (member : first ∈ before) :
    List.Sublist [first, second] (before ++ second :: after) :=
  List.Sublist.append (List.singleton_sublist.mpr member)
    (List.singleton_sublist.mpr (List.mem_cons_self ..))

section

variable {b : ι} {k : Nat} {hello : Hello} (sent : SentBy net b k) (posted : Posted addr net b k hello)

include sent posted

/-- Once a daemon has heard a hello that lists it, the link has worked both ways. -/
theorem Posted.mutual (injective : Function.Injective addr) (lists : addr i ∈ hello.listed) :
    Mutual (net.received i k node') i b := by
  obtain ⟨before, after, shape, _, listed⟩ := posted.past
  obtain ⟨a, ka, same, sentBy, heard⟩ := listed _ lists
  cases injective same
  refine ⟨ka, k, sentBy, sent, ?_⟩
  show List.Sublist ([.delivered b ka, .sent b k] ++ [.delivered i k]) (net.log ++ [.delivered i k])
  rw [shape]
  exact List.Sublist.append (sublist_pair heard) (List.Sublist.refl _)

/-- The hello just heard is the last one to carry the destinations it carries. -/
theorem Posted.lastHeard (means : Means order net k hello) {d : Netaddr} {backlog : UInt32}
    (last : lastBacklog d hello.commodities = some backlog) :
    LastHeard order (net.received i k node') i b d backlog := by
  obtain ⟨before, after, shape, carried, _⟩ := posted.past
  obtain ⟨c, member, isDest, isBacklog⟩ := lastBacklog_mem last
  refine ⟨k, net.log, [], rfl, ⟨sent, hello, means, c, member, isDest⟩,
    fun _ contrary => absurd contrary List.not_mem_nil, ?_⟩
  rw [← isBacklog, ← isDest]
  refine (carried c member).imp_right ?_
  rintro ⟨clist, updated, isLength⟩
  refine ⟨clist, isLength, ?_⟩
  show List.Sublist [.updated b clist, .sent b k] (net.log ++ [.delivered i k])
  rw [shape]
  exact (sublist_pair updated).trans (List.sublist_append_left _ _)

end

/-- What a daemon knows of the sender once it has heard a hello. -/
theorem Truthful.learns (injective : Function.Injective addr) (truthful : Truthful addr order net)
    {b : ι} {k : Nat} {hello : Hello} {time : Timeval} (sent : SentBy net b k)
    (means : Means order net k hello) (posted : Posted addr net b k hello) :
    Known addr order (net.received i k node') i hello.sender
      (((tableView (net.node i).bprd.nlist hello.sender).getD (.fresh time)).absorb (addr i) time
        hello) := by
  have logGrows : net.log <+: (net.received i k node').log := List.prefix_append _ _
  have older : ∀ {v}, tableView (net.node i).bprd.nlist hello.sender = some v →
      (v.bidir = 1 → Mutual net i b) ∧
        ∀ d backlog, v.backlog d = some backlog → LastHeard order net i b d backlog :=
    fun recorded => truthful.recorded_for injective (posted.sender ▸ recorded)
  refine ⟨b, posted.sender, ⟨k, sent, List.mem_append_right _ (List.mem_singleton.mpr rfl)⟩, ?_, ?_⟩
  · intro isBidir
    by_cases lists : addr i ∈ hello.listed
    · exact posted.mutual sent injective lists
    · cases recorded : tableView (net.node i).bprd.nlist hello.sender with
      | none =>
          rw [recorded, NeighborView.absorb, if_neg lists] at isBidir
          cases isBidir
      | some v =>
          rw [recorded, NeighborView.absorb, if_neg lists] at isBidir
          exact ((older recorded).1 isBidir).mono (List.prefix_refl _) logGrows
  · intro d backlog stored
    replace stored : (lastBacklog d hello.commodities).or
      (((tableView (net.node i).bprd.nlist hello.sender).getD (.fresh time)).backlog d) =
        some backlog := stored
    cases last : lastBacklog d hello.commodities with
    | some value =>
        rw [last] at stored
        cases stored
        exact posted.lastHeard sent means last
    | none =>
        cases recorded : tableView (net.node i).bprd.nlist hello.sender with
        | none =>
            rw [recorded, last] at stored
            cases stored
        | some v =>
            rw [recorded, last] at stored
            refine ((older recorded).2 d backlog stored).mono (List.prefix_refl _) rfl
              (truthful.numbered i) ?_
            rintro k' delivered ⟨_, hello', means', c, member, isDest⟩
            cases List.mem_singleton.mp delivered
            cases means.unique means'
            obtain ⟨_, contrary⟩ := lastBacklog_isSome_iff.mpr ⟨c, member, isDest⟩
            rw [last] at contrary
            cases contrary

theorem Truthful.deliver (injective : Function.Injective addr) (truthful : Truthful addr order net)
    {k : Nat} {d : Datagram ι} {ambient : Ambient} {out : Output} (at_k : net.sent[k]? = some d)
    (ran : nodeStep (net.node i) (.recv ambient d.bytes) = .ok (node', out)) :
    Truthful addr order (net.received i k node') := by
  have sentGrows : net.sent <+: (net.received i k node').sent := List.prefix_refl _
  have logGrows : net.log <+: (net.received i k node').log := List.prefix_append _ _
  have ready := truthful.ready i
  obtain ⟨b, hello, sent, means, posted, received⟩ := truthful.receives at_k i ambient
  rw [received] at ran
  obtain ⟨isNode', _⟩ := Prod.mk.inj (Except.ok.inj ran)
  have delivery : ∀ {a k'}, .delivered a k' ∈ ([.delivered i k] : List (Event ι)) → a = i ∧ k' = k := by
    intro a k' member
    cases List.mem_singleton.mp member
    exact ⟨rfl, rfl⟩
  have table : tableView node'.bprd.nlist =
      (tableView (net.node i).bprd.nlist).hear (addr i) (ambient.clock 0) hello := by
    rw [← isNode']
    exact tableView_heardHello _ _ _ _
  refine ⟨?_, ?_, ?_, ?_, ?_⟩
  · apply Network.forall_received (motive := fun j node => ReadyOver order (addr j) node)
    · rw [← isNode']
      exact { ready with wellKept := wellKept_heardHello ready.wellKept }
    · exact truthful.ready
  · intro a k' delivered
    rcases List.mem_append.mp delivered with old | new
    · exact truthful.numbered a k' old
    · rw [(delivery new).2]
      exact (List.getElem?_eq_some_iff.mp at_k).1
  · have advertised : ∀ c d' backlog, Advertises (net.node c) d' backlog →
        backlog = 0 ∨ LengthAt (net.received i k node').log c d' backlog := by
      intro c d' backlog before
      exact (truthful.advertised c d' backlog before).imp_right fun old => old.mono logGrows
    apply Network.forall_received (motive := fun c node => ∀ d' backlog, Advertises node d' backlog →
      backlog = 0 ∨ LengthAt (net.received i k node').log c d' backlog)
    · rw [← isNode']
      exact advertised i
    · exact advertised
  · intro k' inside
    obtain ⟨c, hello', sent', means', posted'⟩ := truthful.posted k' inside
    exact ⟨c, hello', sent'.mono sentGrows, means'.mono sentGrows, posted'.mono sentGrows logGrows⟩
  · intro a x v recorded
    by_cases here : a = i
    · subst here
      rw [Network.received_self, table] at recorded
      by_cases fromSender : x = hello.sender
      · subst fromSender
        rw [TableView.hear, Function.update_self] at recorded
        cases recorded
        exact truthful.learns injective sent means posted
      · rw [TableView.hear, Function.update_of_ne fromSender] at recorded
        refine (truthful.known a x v recorded).mono sentGrows rfl (truthful.numbered a) ?_
        intro k' c delivered sent' isNode
        rw [(delivery delivered).2] at sent'
        apply fromSender
        rw [isNode, posted.sender, SentBy.unique sent' (sent.mono sentGrows)]
    · rw [Network.received_other here] at recorded
      exact (truthful.known a x v recorded).mono sentGrows rfl (truthful.numbered a)
        fun k' c delivered => absurd (delivery delivered).1 here

end

/-! ### Runs of the network -/

/-- A network of daemons over IPv4 that have just started, on hosts of one byte order, and the rules they
    have installed. -/
structure Started (order : Words.ByteOrder) (rules : ι → List Rule) (net : Network ι) : Prop where
  nodes : ∀ i, ∃ createQueue leftover config,
    nodeInit createQueue leftover config = .ok (net.node i, rules i) ∧ config.ipver = afInet ∧
      config.saddr.family = afInet ∧ config.order = order
  sent : net.sent = []
  log : net.log = []

section

variable {order : Words.ByteOrder} {rules : ι → List Rule} {start net : Network ι}

theorem nodeInit_ok {createQueue : UInt16 → Option QueueHandle} {leftover : Leftover}
    {config : NodeConfig} {node : Node} {installed : List Rule}
    (ran : nodeInit createQueue leftover config = .ok (node, installed)) :
    ∃ clist, node = { bprd := { config.bprd with clist := clist }, writer := helloWriterInit
                      order := config.order } ∧
      List.Forall₂ (fun c c' => bindQueue createQueue c = .ok c') (config.commodities.map newCommodity)
        clist ∧
      installed = captureRules (copiedNetaddr leftover config.saddr) clist := by
  unfold nodeInit at ran
  split at ran
  · cases ran
  · rename_i started
    cases ran
    unfold backloggerInit at started
    obtain ⟨clist, bound, result⟩ := Fallible.bind_eq_ok_iff.mp started
    cases result
    exact ⟨clist, rfl, Fallible.mapM_eq_ok_iff.mp bound, rfl⟩

theorem bindQueue_ok {createQueue : UInt16 → Option QueueHandle} {c c' : Commodity}
    (bound : bindQueue createQueue c = .ok c') :
    ∃ qh, c' = { c with queue := some { fifoInit with qh := some qh } } := by
  unfold bindQueue at bound
  split at bound
  · cases bound
  · cases bound
    exact ⟨_, rfl⟩

/-- The commodities of a daemon that has just started are as new, with an empty queue each. -/
theorem Started.fresh (started : Started order rules start) {i : ι} {c : Commodity}
    (member : c ∈ (start.node i).bprd.clist) :
    ∃ entry qh, c = { newCommodity entry with queue := some { fifoInit with qh := some qh } } := by
  obtain ⟨_, _, config, ran, _⟩ := started.nodes i
  obtain ⟨clist, isNode, bound, _⟩ := nodeInit_ok ran
  rw [isNode] at member
  obtain ⟨c₀, configured, binds⟩ := Fallible.related_mem bound member
  obtain ⟨entry, _, rfl⟩ := List.mem_map.mp configured
  obtain ⟨qh, isFresh⟩ := bindQueue_ok binds
  exact ⟨entry, qh, isFresh⟩

/-- Daemons that have just started advertise no backlogs and know nobody. -/
theorem Started.truthful (started : Started order rules start) :
    Truthful (fun i => ownNetaddr (start.node i).bprd.saddr) order start := by
  refine ⟨?_, ?_, ?_, ?_, ?_⟩
  · intro i
    obtain ⟨_, _, config, ran, inet, family, isOrder⟩ := started.nodes i
    obtain ⟨clist, isNode, _, _⟩ := nodeInit_ok ran
    rw [isNode]
    exact
      { inet := inet
        family := family
        own := rfl
        order := isOrder
        idle := idle_helloWriterInit
        wellKept := ⟨List.nodup_nil, fun _ member => (List.not_mem_nil member).elim⟩ }
  · intro a k delivered
    rw [started.log] at delivered
    exact absurd delivered List.not_mem_nil
  · rintro i d backlog ⟨c, member, _, isBacklog⟩
    obtain ⟨entry, qh, rfl⟩ := started.fresh member
    exact .inl isBacklog.symm
  · intro k inside
    rw [started.sent] at inside
    exact absurd inside (Nat.not_lt_zero k)
  · intro a x v recorded
    obtain ⟨_, _, config, ran, _⟩ := started.nodes a
    obtain ⟨clist, isNode, _, _⟩ := nodeInit_ok ran
    rw [isNode] at recorded
    cases recorded

variable [DecidableEq ι] {allowed : ι → Node → NodeOp → Prop}

/-- Every reachable state is truthful. -/
theorem reachable_truthful (started : Started order rules start)
    (distinct : Function.Injective fun i => ownNetaddr (start.node i).bprd.saddr)
    (reachable : Reachable allowed start net) :
    Truthful (fun i => ownNetaddr (start.node i).bprd.saddr) order net := by
  induction reachable with
  | refl => exact started.truthful
  | tail _ step ih =>
      cases step with
      | act i op node' out own _ ran => exact ih.act own ran
      | deliver i k d ambient node' out sent ran => exact ih.deliver distinct sent ran

/-- In every reachable state, every entry of every table belongs to a node of the network; if it is
    marked as bidirectional, the link has worked both ways, and every backlog it records was 0 or the
    length of that node's queue before its last hello for the destination. -/
theorem tables_invent_nothing (started : Started order rules start)
    (distinct : Function.Injective fun i => ownNetaddr (start.node i).bprd.saddr)
    (reachable : Reachable allowed start net) (a : ι) {n : Neighbor}
    (member : n ∈ (net.node a).bprd.nlist) :
    ∃ b, n.addr = ownNetaddr (start.node b).bprd.saddr ∧ (n.bidir = 1 → Mutual net a b) ∧
      ∀ c ∈ n.clist, LastHeard order net a b c.dest c.cdata.backlog := by
  have truthful := reachable_truthful started distinct reachable
  have wellKept := (truthful.ready a).wellKept
  obtain ⟨b, isNode, _, bidir, backlogs⟩ := truthful.known a _ _ (wellKept.view_of_mem member)
  exact ⟨b, isNode, bidir, fun c inside =>
    backlogs c.dest c.cdata.backlog (wellKept.backlog_of_mem member inside)⟩

end

/-! ### Scripts -/

/-- A turn of a script: an own step of a daemon, or the reception of a datagram. -/
inductive Turn (ι : Type) where
  | act (i : ι) (op : NodeOp)
  | deliver (i : ι) (k : Nat) (ambient : Ambient)

/-- A turn that is open to the daemons in whatever state they are. -/
def Turn.Open (allowed : ι → Node → NodeOp → Prop) : Turn ι → Prop
  | .act i op => (∀ ambient buf, op ≠ .recv ambient buf) ∧ ∀ node, allowed i node op
  | .deliver _ _ _ => True

section

variable [DecidableEq ι] {allowed : ι → Node → NodeOp → Prop} {net net' : Network ι}

/-- The network after a turn, unless the turn ends a process or there is no such datagram. -/
def Network.next (net : Network ι) : Turn ι → Option (Network ι)
  | .act i op =>
      match nodeStep (net.node i) op with
      | .error _ => none
      | .ok (node', out) => some (net.acted i op node' out)
  | .deliver i k ambient =>
      match net.sent[k]? with
      | none => none
      | some d =>
          match nodeStep (net.node i) (.recv ambient d.bytes) with
          | .error _ => none
          | .ok (node', _) => some (net.received i k node')

/-- The network after the turns of a script. -/
def Network.perform (net : Network ι) : List (Turn ι) → Option (Network ι)
  | [] => some net
  | turn :: script => (net.next turn).bind (·.perform script)

theorem Network.step_of_next {turn : Turn ι} (isOpen : turn.Open allowed)
    (taken : net.next turn = some net') : NetworkStep allowed net net' := by
  cases turn with
  | act i op =>
      simp only [Network.next] at taken
      split at taken
      · cases taken
      · rename_i ran
        cases taken
        exact .act i op _ _ isOpen.1 (isOpen.2 _) ran
  | deliver i k ambient =>
      simp only [Network.next] at taken
      split at taken
      · cases taken
      · rename_i sent
        split at taken
        · cases taken
        · rename_i ran
          cases taken
          exact .deliver i k _ ambient _ _ sent ran

theorem Network.reachable_of_perform {script : List (Turn ι)}
    (isOpen : ∀ turn ∈ script, turn.Open allowed) (performed : net.perform script = some net') :
    Reachable allowed net net' := by
  induction script generalizing net with
  | nil =>
      cases performed
      exact .refl
  | cons turn script ih =>
      obtain ⟨mid, taken, later⟩ := Option.bind_eq_some_iff.mp performed
      have first := Network.step_of_next (isOpen turn (List.mem_cons_self ..)) taken
      exact .head first (ih (fun t member => isOpen t (List.mem_cons_of_mem _ member)) later)

/-- What a test finds at the end of a script holds of a reachable state. -/
theorem Network.exists_of_perform {script : List (Turn ι)} {test : Network ι → Bool}
    (isOpen : ∀ turn ∈ script, turn.Open allowed) (found : (net.perform script).any test = true) :
    ∃ net', Reachable allowed net net' ∧ test net' = true := by
  obtain ⟨net', performed, holds⟩ := (Option.any_eq_true _ _).mp found
  exact ⟨net', Network.reachable_of_perform isOpen performed, holds⟩

end

/-- A round of the hello writer whose datagram is taken. -/
def greet : NodeOp := .hello (fun _ => (0, 0)) stillClock fun _ => true

/-- Two daemons at 10.0.0.1 and 10.0.0.2 with a commodity for 10.0.0.9. -/
def pairConfig (i : Bool) : NodeConfig :=
  { ipver := afInet, ifIndex := 1, saddr := ⟨afInet, [10, 0, 0, if i then 2 else 1]⟩
    neighborTimeout := 2500000, commodities := [(host4 [10, 0, 0, 9], 1)], order := .little }

/-- The two daemons after their start. -/
def pairStart : Network Bool :=
  { node := fun i =>
      { bprd := { (pairConfig i).bprd with
          clist := [{ newCommodity (host4 [10, 0, 0, 9], 1) with
            queue := some { fifoInit with qh := some 1 } }] }
        writer := helloWriterInit
        order := .little }
    sent := []
    log := [] }

/-- The rules they have installed. -/
def pairRules (_ : Bool) : List Rule :=
  [⟨.output, host4 [10, 0, 0, 9], 1⟩, ⟨.prerouting, host4 [10, 0, 0, 9], 1⟩]

theorem pairStart_started : Started .little pairRules pairStart where
  nodes := fun i => ⟨fun q => some q.toNat, zeroLeftover, pairConfig i, by cases i <;> rfl, rfl, rfl, rfl⟩
  sent := rfl
  log := rfl

theorem pairStart_distinct : Function.Injective fun i => ownNetaddr (pairStart.node i).bprd.saddr := by
  unfold Function.Injective
  decide

/-- The second daemon enqueues a packet and updates its backlog; the two then hear each other. -/
def pairScript : List (Turn Bool) :=
  [.act true (.backlogger (.add 0)), .act true (.update acceptTies zeroLeftover), .act false greet,
    .deliver true 0 stillAmbient, .act true greet, .deliver false 1 stillAmbient]

theorem pairScript_open : ∀ turn ∈ pairScript, turn.Open fun _ _ _ => True := by
  simp [pairScript, Turn.Open, greet]

/-- The script leaves an entry with a two-way link and a backlog. -/
theorem pair_exchange : ∃ net, Reachable (fun _ _ _ => True) pairStart net ∧
    ∃ n ∈ (net.node false).bprd.nlist, n.bidir = 1 ∧ ∃ c ∈ n.clist, c.cdata.backlog = 1 := by
  obtain ⟨net, reachable, found⟩ := @Network.exists_of_perform _ _ _ pairStart pairScript
    (fun net => (net.node false).bprd.nlist.any fun n =>
      n.bidir == 1 && n.clist.any fun c => c.cdata.backlog == 1)
    pairScript_open (by decide +kernel)
  obtain ⟨n, member, isEntry⟩ := List.any_eq_true.mp found
  simp only [Bool.and_eq_true, beq_iff_eq, List.any_eq_true] at isEntry
  exact ⟨net, reachable, n, member, isEntry⟩

theorem tables_invent_nothing_pair : ∃ net n, Reachable (fun _ _ _ => True) pairStart net ∧
    n ∈ (net.node false).bprd.nlist ∧ n.bidir = 1 ∧ (∃ c ∈ n.clist, c.cdata.backlog = 1) ∧
      ∃ b, n.addr = ownNetaddr (pairStart.node b).bprd.saddr ∧ (n.bidir = 1 → Mutual net false b) ∧
        ∀ c ∈ n.clist, LastHeard .little net false b c.dest c.cdata.backlog := by
  obtain ⟨net, reachable, n, member, twoWay, backlog⟩ := pair_exchange
  exact ⟨net, n, reachable, member, twoWay, backlog,
    tables_invent_nothing pairStart_started pairStart_distinct reachable false member⟩

end Bprd
