/-
Module: Bprd.Proofs.Convergence
Layer: Proofs
Purpose: What the exchange of hellos achieves over IPv4. A round is a stretch of a run, without expiries,
  after which the hello of every daemon that every other one processed last was sent in it. After one
  round everyone is in the table of everyone else; after two, every link is marked as bidirectional, and
  the recorded backlogs are those that the neighbour advertised during the second. From every reachable
  state the daemons can get there with hellos alone, and then a router update follows the true gradient.
Imports: Bprd.Proofs.Progress, Bprd.Proofs.NextHop, Mathlib.Data.Fintype.Prod
Trusted boundary: none
Main exports: Calm, Round, advertised, NetworkStep.keeps_entries, tables_converge, Converged,
  network_can_converge, NextHop.follows, update_follows_gradient
-/
import Bprd.Proofs.Progress
import Bprd.Proofs.NextHop
import Mathlib.Data.Fintype.Prod

namespace Bprd

/-! ### Calm steps -/

/-- A step of a daemon at which no entry expires. -/
def Calm {ι : Type} (_ : ι) (node : Node) : NodeOp → Prop
  | .refresh clock | .hello _ clock _ =>
      ntableRefresh node.bprd.neighborTimeout clock node.bprd.nlist = node.bprd.nlist
  | _ => True

section

variable {ι : Type} {i : ι} {node node' : Node} {op : NodeOp} {out : Output}

theorem nodeStep_calm (calm : Calm i node op) (own : ∀ ambient buf, op ≠ .recv ambient buf)
    (ran : nodeStep node op = .ok (node', out)) :
    tableView node'.bprd.nlist = tableView node.bprd.nlist := by
  cases op with
  | backlogger op =>
      cases ran
      rfl
  | update tie leftover =>
      obtain ⟨bprd, routes, updated, rfl, _⟩ := nodeStep_update.mp ran
      exact routerUpdate_tableView updated
  | recv ambient buf => exact absurd rfl (own ambient buf)
  | refresh clock =>
      cases ran
      exact congrArg tableView calm
  | hello padding clock sendto =>
      obtain ⟨written, bprd, cycled, rfl, _⟩ := nodeStep_hello.mp ran
      obtain ⟨seqno, rfl⟩ := helloCycle_frame cycled
      exact congrArg tableView calm

end

variable {ι : Type} [DecidableEq ι]

/-- The entry of `a` for `b`. -/
def entryFor (net : Network ι) (a b : ι) : Option NeighborView :=
  tableView (net.node a).bprd.nlist (nodeAddr net b)

/-- The backlogs that a daemon puts into its hellos. -/
def advertised (node : Node) (d : Netaddr) : Option UInt32 :=
  lastBacklog d ((node.bprd.clist.map Commodity.cdata).take
    (keptCount node.bprd.ipver node.bprd.clist.length))

/-- A round: a run without expiries, after which every daemon has processed a hello of every other daemon
    that was sent in it, and no older one behind it. -/
structure Round (net : Network ι) (passed : List (Network ι)) (net' : Network ι) : Prop where
  ran : NetworkRun Calm net passed net'
  heard : ∀ a b, a ≠ b → ∃ k, (hellosHeard net' a b).getLast? = some k ∧ net.sent.length ≤ k

section

variable {start base net net' : Network ι} {passed : List (Network ι)} {a b : ι} {k : Nat}

omit [DecidableEq ι] in
/-- What a daemon does with a datagram of the network, over IPv4. -/
theorem Tracked.receives_inet [DecidableEq ι] (launched : Launched afInet start)
    (tracked : Tracked start net) {d : Datagram ι} (at_k : net.sent[k]? = some d) (i : ι)
    (ambient : Ambient) :
    ∃ m, Announces (start.node d.sender) (UInt16.ofNat (hellosBefore net d.sender k)) d.bytes m ∧
      nodeStep (net.node i) (.recv ambient d.bytes) = .ok ({ net.node i with
        bprd := { (net.node i).bprd with
          nlist := heardHello (nodeAddr net i) (ambient.clock 0)
            (helloOf (net.node i).bprd.ipver (net.node i).order m) (net.node i).bprd.nlist } },
        ⟨[], [], []⟩) := by
  obtain ⟨m, announces, received⟩ := tracked.receives launched at_k i ambient
  have family : (net.node i).bprd.saddr.family = afInet := by
    rw [(tracked.ready i).setup.saddr]
    exact (launched.fresh i).2.1
  rw [nodeAddr, heardHello_seen_inet family] at received
  exact ⟨m, announces, received⟩

/-- A calm step keeps every entry, and what is marked as bidirectional. -/
theorem NetworkStep.keeps_entries (launched : Launched afInet start) (tracked : Tracked start net)
    (step : NetworkStep Calm net net') {v : NeighborView} (recorded : entryFor net a b = some v) :
    ∃ v', entryFor net' a b = some v' ∧ (v.bidir = 1 → v'.bidir = 1) := by
  have later := step.later
  rw [entryFor, later.nodeAddr_eq]
  rw [entryFor] at recorded
  cases step with
  | act i op node' out own permitted ran =>
      refine ⟨v, ?_, id⟩
      by_cases here : a = i
      · subst here
        rw [Network.acted_self, nodeStep_calm permitted own ran]
        exact recorded
      · rw [Network.acted_other here]
        exact recorded
  | deliver i k d ambient node' out sent ran =>
      by_cases here : a = i
      · subst here
        obtain ⟨m, _, received⟩ := tracked.receives_inet launched sent a ambient
        rw [received] at ran
        obtain ⟨rfl, _⟩ := Prod.mk.inj (Except.ok.inj ran)
        rw [Network.received_self]
        dsimp only
        rw [tableView_heardHello, TableView.hear]
        by_cases fromSender : nodeAddr net b = (helloOf (net.node a).bprd.ipver (net.node a).order m).sender
        · rw [← fromSender, Function.update_self, recorded]
          refine ⟨_, rfl, ?_⟩
          intro twoWay
          show (if _ then 1 else v.bidir) = 1
          rw [twoWay, ite_self]
        · rw [Function.update_of_ne fromSender]
          exact ⟨v, recorded, id⟩
      · rw [Network.received_other here]
        exact ⟨v, recorded, id⟩

/-! ### Hellos since a state -/

/-- Along a calm run everyone has an entry for those whose hellos, sent since its start, they have heard. -/
theorem NetworkRun.known_since (launched : Launched afInet start)
    (distinct : Function.Injective (nodeAddr start)) (settled : Settled start base)
    (ran : NetworkRun Calm base passed net) :
    Settled start net ∧ ∀ a b k, k ∈ hellosHeard net a b → base.sent.length ≤ k →
      entryFor net a b ≠ none := by
  induction ran with
  | start =>
      refine ⟨settled, ?_⟩
      intro a b k heard since
      have old := settled.tracked.numbered a k (mem_hellosHeard.mp heard).1
      exact absurd old (Nat.not_lt.mpr since)
  | @step passed net net' _ step ih =>
      obtain ⟨before, known⟩ := ih
      refine ⟨before.step launched distinct step, ?_⟩
      intro a b k heard since
      rcases before.tracked.hears_one launched distinct step a b with same | ⟨k', v, _, recorded⟩
      · rw [same] at heard
        obtain ⟨v, recorded⟩ := Option.ne_none_iff_exists'.mp (known a b k heard since)
        obtain ⟨v', still, _⟩ := step.keeps_entries launched before.tracked recorded
        rw [still]
        exact Option.some_ne_none v'
      · rw [entryFor, recorded]
        exact Option.some_ne_none v

/-- After a round everyone is in the table of everyone else. -/
theorem Round.everyone (launched : Launched afInet start)
    (distinct : Function.Injective (nodeAddr start)) (settled : Settled start base)
    (round : Round base passed net) (other : a ≠ b) : entryFor net a b ≠ none := by
  obtain ⟨k, isLast, since⟩ := round.heard a b other
  exact (round.ran.known_since launched distinct settled).2 a b k (List.mem_of_getLast? isLast) since

/-- A datagram whose hello lists `a`, on every host. -/
def ListsNode (start : Network ι) (a : ι) (bytes : List UInt8) : Prop :=
  ∃ m, scanPacket bytes = ([m], none) ∧ ∀ order, nodeAddr start a ∈ (helloOf afInet order m).listed

omit [DecidableEq ι] in
/-- The address under which a hello lists a daemon is its own. -/
theorem listedAs_node (launched : Launched afInet start) {n : Neighbor} (isNode : n.addr = nodeAddr start a) :
    listedAs afInet n = nodeAddr start a := by
  rw [listedAs, isNode]
  exact hostAddr_ownNetaddr launched.running (launched.fresh a).2.1

/-- The hello of a daemon that has an entry for `a` left after its refresh lists `a`. -/
theorem Tracked.hello_lists (launched : Launched afInet start) (tracked : Tracked start net) {i : ι}
    {padding : Nat → UInt8 × UInt8} {clock : Nat → Timeval} {sendto : List UInt8 → Bool} {node' : Node}
    {out : Output}
    (calm : Calm i (net.node i) (.hello padding clock sendto))
    (ran : nodeStep (net.node i) (.hello padding clock sendto) = .ok (node', out))
    (known : entryFor net i a ≠ none) {datagram : List UInt8} (isSent : datagram ∈ out.datagrams) :
    ListsNode start a datagram := by
  have family := tracked.family_eq launched i
  obtain ⟨written, bprd, cycled, rfl, rfl⟩ := nodeStep_hello.mp ran
  obtain ⟨_, _, _, datagram', m, sent, _, scanned, _, means⟩ := helloCycle_sends
    (by rw [family]; exact launched.running)
    (by rw [(tracked.ready i).setup.saddr, family]; exact (launched.fresh i).2.1)
    (tracked.ready i).idle cycled
  rw [sent] at isSent
  obtain rfl := List.mem_singleton.mp isSent
  refine ⟨m, scanned, ?_⟩
  intro order
  show nodeAddr start a ∈ (helloOf afInet (net.node i).order m).listed
  rw [← family, means, mem_listed_iff, family]
  rw [show ntableRefresh _ _ _ = (net.node i).bprd.nlist from calm]
  obtain ⟨n, member, isNode⟩ := tableView_isSome_iff.mp known
  exact ⟨n, member, listedAs_node launched (isNode.trans (tracked.nodeAddr_eq a))⟩

/-- Whoever processes a hello that lists it has the link marked as bidirectional. -/
theorem Tracked.hears_listed (launched : Launched afInet start)
    (tracked : Tracked start net) {d : Datagram ι} {ambient : Ambient} {node' : Node} {out : Output}
    (at_k : net.sent[k]? = some d) (ran : nodeStep (net.node a) (.recv ambient d.bytes) = .ok (node', out))
    (lists : ListsNode start a d.bytes) :
    ∃ v, tableView node'.bprd.nlist (nodeAddr net d.sender) = some v ∧ v.bidir = 1 := by
  obtain ⟨m, announces, received⟩ := tracked.receives_inet launched at_k a ambient
  obtain ⟨m', scanned, listed⟩ := lists
  rw [announces.scanned] at scanned
  cases scanned
  rw [received] at ran
  obtain ⟨rfl, _⟩ := Prod.mk.inj (Except.ok.inj ran)
  have family := tracked.family_eq launched a
  have sender : (helloOf (net.node a).bprd.ipver (net.node a).order m).sender = nodeAddr net d.sender := by
    rw [family, ← (launched.fresh d.sender).1, announces.sender, tracked.nodeAddr_eq]
    rfl
  dsimp only
  rw [tableView_heardHello, TableView.hear, sender, Function.update_self]
  refine ⟨_, rfl, ?_⟩
  show (if nodeAddr net a ∈ _ then 1 else _) = 1
  rw [family, tracked.nodeAddr_eq, if_pos (listed _)]

/-- A datagram that a step adds is the hello of the daemon that took the step. -/
theorem Tracked.newly_sent {allowed : ι → Node → NodeOp → Prop} (launched : Launched afInet start)
    (tracked : Tracked start net) (step : NetworkStep allowed net net') {d : Datagram ι}
    (at_k : net'.sent[k]? = some d) (new : ¬k < net.sent.length) :
    ∃ padding clock sendto node' out,
      allowed d.sender (net.node d.sender) (.hello padding clock sendto) ∧
      nodeStep (net.node d.sender) (.hello padding clock sendto) = .ok (node', out) ∧
      d.bytes ∈ out.datagrams ∧ k = net.sent.length ∧
      net' = net.acted d.sender (.hello padding clock sendto) node' out := by
  have inside := (List.getElem?_eq_some_iff.mp at_k).1
  cases step with
  | act i op node' out own permitted ran =>
      rcases hello_or_silent op with ⟨padding, clock, sendto, rfl⟩ | silent
      · rcases tracked.adds launched ran with ⟨sent, _⟩ | ⟨datagram, _, sent, _⟩
        · rw [sent] at inside
          exact absurd inside new
        · have isLast : k = net.sent.length := by
            rw [sent, List.length_append, List.length_singleton] at inside
            omega
          subst isLast
          have carried := sent
          rw [sent, List.getElem?_append_right (Nat.le_refl _), Nat.sub_self] at at_k
          cases at_k
          refine ⟨padding, clock, sendto, node', out, permitted, ran, ?_, rfl, rfl⟩
          have added : out.datagrams.map (fun bytes => (⟨i, bytes⟩ : Datagram ι)) = [⟨i, datagram⟩] :=
            List.append_cancel_left carried
          obtain ⟨bytes, isSent, same⟩ := List.mem_map.mp (added ▸ List.mem_singleton.mpr rfl)
          cases same
          exact isSent
      · rw [Network.acted_sent silent ran] at inside
        exact absurd inside new
  | deliver i k' d' ambient node' out sent ran => exact absurd inside new

/-- A network in which everyone is in the table of everyone else, along a calm run from `base`: the hellos
    sent since then list everyone, and make the links bidirectional where they are processed. -/
structure Introduced (start base net : Network ι) : Prop where
  settled : Settled start net
  everyone : ∀ a b, a ≠ b → entryFor net a b ≠ none
  lists : ∀ k d, net.sent[k]? = some d → base.sent.length ≤ k → ∀ a, a ≠ d.sender →
    ListsNode start a d.bytes
  twoWay : ∀ a b, a ≠ b → ∀ k ∈ hellosHeard net a b, base.sent.length ≤ k →
    ∃ v, entryFor net a b = some v ∧ v.bidir = 1

theorem Introduced.atBase (settled : Settled start base)
    (everyone : ∀ a b, a ≠ b → entryFor base a b ≠ none) : Introduced start base base := by
  refine ⟨settled, everyone, ?_, ?_⟩
  · intro k d at_k since
    exact absurd (List.getElem?_eq_some_iff.mp at_k).1 (Nat.not_lt.mpr since)
  · intro a b _ k heard since
    have old := settled.tracked.numbered a k (mem_hellosHeard.mp heard).1
    exact absurd old (Nat.not_lt.mpr since)

/-- What a step adds to the datagrams lists everyone. -/
theorem Introduced.lists_step (launched : Launched afInet start) (introduced : Introduced start base net)
    (step : NetworkStep Calm net net') {d : Datagram ι} (at_k : net'.sent[k]? = some d)
    (since : base.sent.length ≤ k) (other : a ≠ d.sender) : ListsNode start a d.bytes := by
  by_cases old : k < net.sent.length
  · rw [step.later.at_eq old] at at_k
    exact introduced.lists k d at_k since a other
  · obtain ⟨padding, clock, sendto, node', out, calm, ran, isSent, _⟩ :=
      introduced.settled.tracked.newly_sent launched step at_k old
    exact introduced.settled.tracked.hello_lists launched calm ran
      (introduced.everyone d.sender a (Ne.symm other)) isSent

theorem Introduced.step (launched : Launched afInet start)
    (distinct : Function.Injective (nodeAddr start)) (introduced : Introduced start base net)
    (step : NetworkStep Calm net net') : Introduced start base net' := by
  have tracked := introduced.settled.tracked
  refine ⟨introduced.settled.step launched distinct step, ?_, ?_, ?_⟩
  · intro a b other
    obtain ⟨v, recorded⟩ := Option.ne_none_iff_exists'.mp (introduced.everyone a b other)
    obtain ⟨v', still, _⟩ := step.keeps_entries launched tracked recorded
    rw [still]
    exact Option.some_ne_none v'
  · exact fun k d at_k since a other => introduced.lists_step launched step at_k since other
  · intro a b other k heard since
    by_cases before : k ∈ hellosHeard net a b
    · obtain ⟨v, recorded, twoWay⟩ := introduced.twoWay a b other k before since
      obtain ⟨v', still, kept⟩ := step.keeps_entries launched tracked recorded
      exact ⟨v', still, kept twoWay⟩
    · have later := step.later
      rw [entryFor, later.nodeAddr_eq]
      cases step with
      | act i op node' out own permitted ran =>
          rw [hellosHeard_acted later (tracked.numbered a)] at heard
          exact absurd heard before
      | deliver i k' d ambient node' out sent ran =>
          rw [hellosHeard_received] at heard
          have isNew := (List.mem_append.mp heard).resolve_left before
          split at isNew
          · rename_i here
            obtain ⟨rfl, isSender⟩ := here
            obtain rfl := List.mem_singleton.mp isNew
            have fromHere : d.sender = b := by
              rw [senderOf, sent] at isSender
              exact Option.some.inj isSender
            subst fromHere
            rw [Network.received_self]
            exact tracked.hears_listed launched sent ran (introduced.lists k d sent since i other)
          · cases isNew

theorem NetworkRun.introduced (launched : Launched afInet start)
    (distinct : Function.Injective (nodeAddr start)) (settled : Settled start base)
    (everyone : ∀ a b, a ≠ b → entryFor base a b ≠ none) (ran : NetworkRun Calm base passed net) :
    Introduced start base net := by
  induction ran with
  | start => exact .atBase settled everyone
  | step _ step ih => exact ih.step launched distinct step

/-! ### What the hellos carry -/

/-- A hello sent along a run carries what its sender advertised at some state of the run. -/
theorem NetworkRun.sent_advertised {allowed : ι → Node → NodeOp → Prop} (launched : Launched afInet start)
    (distinct : Function.Injective (nodeAddr start)) (settled : Settled start base)
    (ran : NetworkRun allowed base passed net) :
    Settled start net ∧ ∀ k b, senderOf net k = some b → base.sent.length ≤ k → ∀ a,
      (start.node a).order = (start.node b).order →
        ∃ state ∈ passed, backlogsReadBy net a k = advertised (state.node b) := by
  induction ran with
  | start =>
      refine ⟨settled, ?_⟩
      intro k b isSender since
      obtain ⟨d, at_k, _⟩ := Option.map_eq_some_iff.mp isSender
      exact absurd (List.getElem?_eq_some_iff.mp at_k).1 (Nat.not_lt.mpr since)
  | @step passed net net' _ step ih =>
      obtain ⟨before, carried⟩ := ih
      refine ⟨before.step launched distinct step, ?_⟩
      intro k b isSender since a sameOrder
      by_cases old : k < net.sent.length
      · rw [senderOf, step.later.at_eq old] at isSender
        obtain ⟨state, inside, same⟩ := carried k b isSender since a sameOrder
        refine ⟨state, List.mem_append_left _ inside, ?_⟩
        rw [step.later.backlogs_eq old]
        exact same
      · refine ⟨net, List.mem_append_right _ (List.mem_singleton.mpr rfl), ?_⟩
        obtain ⟨d, at_k, rfl⟩ := Option.map_eq_some_iff.mp isSender
        obtain ⟨padding, clock, sendto, node', out, _, ran, _, rfl, rfl⟩ :=
          before.tracked.newly_sent launched step at_k old
        have order : (net.node a).order = (net.node d.sender).order := by
          rw [(before.tracked.ready a).setup.order, (before.tracked.ready d.sender).setup.order]
          exact sameOrder
        rw [before.tracked.sends_backlogs launched ran order]
        unfold advertised
        rw [before.tracked.family_eq launched]

end

/-! ### Two rounds -/

theorem Settled.two_rounds {start net₀ net₁ net₂ : Network ι}
    {passed₁ passed₂ : List (Network ι)} (launched : Launched afInet start)
    (distinct : Function.Injective (nodeAddr start)) (settled₀ : Settled start net₀)
    (first : Round net₀ passed₁ net₁) (second : Round net₁ passed₂ net₂) {a b : ι} (other : a ≠ b) :
    ∃ v, entryFor net₂ a b = some v ∧ v.bidir = 1 ∧
      ((start.node a).order = (start.node b).order →
        ∃ state ∈ passed₂, v.backlog = advertised (state.node b)) := by
  have settled₁ := (first.ran.known_since launched distinct settled₀).1
  have introduced := second.ran.introduced launched distinct settled₁
    fun a b other => first.everyone launched distinct settled₀ other
  obtain ⟨settled₂, carried⟩ := second.ran.sent_advertised launched distinct settled₁
  obtain ⟨k, isLast, since⟩ := second.heard a b other
  have heard := List.mem_of_getLast? isLast
  obtain ⟨v, recorded, twoWay⟩ := introduced.twoWay a b other k heard since
  refine ⟨v, recorded, twoWay, fun sameOrder => ?_⟩
  obtain ⟨state, inside, same⟩ := carried k b (mem_hellosHeard.mp heard).2 since a sameOrder
  refine ⟨state, inside, ?_⟩
  have shows := settled₂.tracked.shows a b v recorded
  rw [Overwrite.shown, isLast, Option.map_some] at shows
  rw [Option.some.inj shows]
  exact same

/-! ### Getting there -/

/-- Every daemon knows every other one, over a bidirectional link, with the backlogs it advertises. -/
def Converged (net : Network ι) : Prop :=
  ∀ a b, a ≠ b → ∃ v, entryFor net a b = some v ∧ v.bidir = 1 ∧ v.backlog = advertised (net.node b)

/-- A hello round at which no entry expires. -/
def Beacon {ι : Type} (i : ι) (node : Node) (op : NodeOp) : Prop :=
  (∃ padding clock sendto, op = .hello padding clock sendto) ∧ Calm i node op

/-- A refresh that reads the clock as it was when each entry was last updated expires none. -/
theorem listRemoveCond_still {neighborTimeout : UInt32} {clock : Nat → Timeval} :
    ∀ {nlist : List Neighbor} {k : Nat},
      (∀ j n, nlist[j]? = some n → clock (k + j) = n.updateTime) →
        listRemoveCond (fun j n => condNExpired neighborTimeout (clock j) n) k nlist = nlist
  | [], k, _ => rfl
  | n :: nlist, k, still => by
      have here : clock k = n.updateTime := still 0 n rfl
      have unexpired : condNExpired neighborTimeout (clock k) n = false := by
        rw [here, condNExpired, sub_self, sub_self]
        exact decide_eq_false (UInt32.not_lt.mpr (UInt32.zero_le))
      have rest : ∀ j m, nlist[j]? = some m → clock (k + 1 + j) = m.updateTime := by
        intro j m at_j
        rw [Nat.add_assoc, Nat.add_comm 1 j]
        exact still (j + 1) m at_j
      rw [listRemoveCond, unexpired, listRemoveCond_still rest]
      rfl

theorem exists_calm_clock (neighborTimeout : UInt32) (nlist : List Neighbor) :
    ∃ clock, ntableRefresh neighborTimeout clock nlist = nlist := by
  refine ⟨fun j => nlist[j]?.elim ⟨0, 0⟩ Neighbor.updateTime, listRemoveCond_still ?_⟩
  intro j n at_j
  rw [Nat.zero_add, at_j]
  rfl

/-- Hellos sent and received change no commodity of the daemon. -/
theorem nodeStep_clist {node node' : Node} {op : NodeOp} {out : Output}
    (exchange : (∃ padding clock sendto, op = .hello padding clock sendto) ∨
      ∃ ambient buf, op = .recv ambient buf)
    (ran : nodeStep node op = .ok (node', out)) : node'.bprd.clist = node.bprd.clist := by
  rcases exchange with ⟨padding, clock, sendto, rfl⟩ | ⟨ambient, buf, rfl⟩
  · obtain ⟨written, bprd, cycled, rfl, _⟩ := nodeStep_hello.mp ran
    obtain ⟨seqno, rfl⟩ := helloCycle_frame cycled
    rfl
  · obtain ⟨bprd, received, rfl, _⟩ := nodeStep_recv.mp ran
    obtain ⟨nlist, rfl⟩ := helloRecv_ok received
    rfl

theorem advertised_congr {node node' : Node} (clist : node'.bprd.clist = node.bprd.clist)
    (ipver : node'.bprd.ipver = node.bprd.ipver) : advertised node' = advertised node := by
  funext d
  rw [advertised, advertised, clist, ipver]

section

variable {allowed allowed' : ι → Node → NodeOp → Prop} {start base net net₁ net₂ : Network ι}
  {passed passed₁ passed₂ : List (Network ι)} {a b : ι}

theorem NetworkRun.mono (weaker : ∀ i node op, allowed i node op → allowed' i node op)
    (ran : NetworkRun allowed base passed net) : NetworkRun allowed' base passed net := by
  induction ran with
  | start => exact .start
  | step _ step ih =>
      refine ih.step ?_
      cases step with
      | act i op node' out own permitted ran =>
          exact .act i op node' out own (weaker i _ op permitted) ran
      | deliver i k d ambient node' out sent ran => exact .deliver i k d ambient node' out sent ran

theorem NetworkRun.append (first : NetworkRun allowed base passed₁ net₁)
    (second : NetworkRun allowed net₁ passed₂ net₂) :
    NetworkRun allowed base (passed₁ ++ passed₂) net₂ := by
  induction second with
  | start =>
      rw [List.append_nil]
      exact first
  | step _ step ih =>
      rw [← List.append_assoc]
      exact ih.step step

theorem NetworkRun.settled (launched : Launched afInet start)
    (distinct : Function.Injective (nodeAddr start)) (settled : Settled start base)
    (ran : NetworkRun allowed base passed net) : Settled start net := by
  induction ran with
  | start => exact settled
  | step _ step ih => exact ih.step launched distinct step

/-- Hellos change no commodity. -/
theorem NetworkRun.still_clist (ran : NetworkRun Beacon base passed net) (b : ι) :
    ∀ state ∈ passed ++ [net], (state.node b).bprd.clist = (base.node b).bprd.clist ∧
      (state.node b).bprd.ipver = (base.node b).bprd.ipver := by
  induction ran with
  | start => simp
  | @step passed net net' _ step ih =>
      intro state inside
      rcases List.mem_append.mp inside with earlier | last
      · exact ih state earlier
      · obtain ⟨clist, ipver⟩ := ih net (by simp)
        rw [List.mem_singleton.mp last, ← clist, ← ipver]
        cases step with
        | act i op node' out own beacon ran =>
            exact Network.forall_acted (motive := fun j node =>
              node.bprd.clist = (net.node j).bprd.clist ∧ node.bprd.ipver = (net.node j).bprd.ipver)
              ⟨nodeStep_clist (.inl beacon.1) ran, (nodeStep_sameSetup ran).ipver⟩ (fun _ => ⟨rfl, rfl⟩) b
        | deliver i k d ambient node' out sent ran =>
            exact Network.forall_received (motive := fun j node =>
              node.bprd.clist = (net.node j).bprd.clist ∧ node.bprd.ipver = (net.node j).bprd.ipver)
              ⟨nodeStep_clist (.inr ⟨ambient, d.bytes, rfl⟩) ran, (nodeStep_sameSetup ran).ipver⟩
              (fun _ => ⟨rfl, rfl⟩) b

variable [Fintype ι]

/-- A daemon sends a hello, and another one processes it next. -/
theorem Settled.tells (launched : Launched afInet start) (room : Room afInet start)
    (agreeing : Agreeing start) (settled : Settled start net) (a b : ι) :
    ∃ passed net', NetworkRun Beacon net passed net' ∧ net.sent.length ≤ net'.sent.length ∧
      (hellosHeard net' a b).getLast? = some net.sent.length ∧
      ∀ a' b', (a', b') ≠ (a, b) → hellosHeard net' a' b' = hellosHeard net a' b' := by
  obtain ⟨clock, calm⟩ := exists_calm_clock (net.node b).bprd.neighborTimeout (net.node b).bprd.nlist
  obtain ⟨op, isOp⟩ : ∃ op : NodeOp, op = .hello (fun _ => (0, 0)) clock fun _ => true := ⟨_, rfl⟩
  have own : ∀ ambient buf, op ≠ .recv ambient buf := by simp [isOp]
  have taken : SendtoTakes op := by simp [isOp, SendtoTakes]
  have beacon : Beacon b (net.node b) op := by
    rw [isOp]
    exact ⟨⟨_, _, _, rfl⟩, calm⟩
  obtain ⟨node', out, ran⟩ := settled.completes launched room agreeing b own taken
  have later := Network.acted_later ran
  have settled₁ : Settled start (net.acted b op node' out) := settled.act launched own ran
  have quiet : ∀ a' b', hellosHeard (net.acted b op node' out) a' b' = hellosHeard net a' b' :=
    fun a' b' => hellosHeard_acted later (settled.tracked.numbered a')
  obtain ⟨datagram, at_last⟩ : ∃ datagram,
      (net.acted b op node' out).sent[net.sent.length]? = some ⟨b, datagram⟩ := by
    obtain ⟨family, own, _⟩ := launched.fresh b
    obtain ⟨_, datagram, _, sent, _⟩ := (settled.tracked.ready b).announces
      (by rw [family]; exact launched.running) (own.trans family.symm) (isOp ▸ ran)
    refine ⟨datagram, ?_⟩
    show (net.sent ++ out.datagrams.map _)[net.sent.length]? = _
    rw [sent, List.getElem?_append_right (Nat.le_refl _), Nat.sub_self]
    rfl
  have isSender : senderOf (net.acted b op node' out) net.sent.length = some b := by
    rw [senderOf, at_last]
    rfl
  obtain ⟨_, _, received⟩ := settled₁.tracked.receives launched at_last a stillAmbient
  refine ⟨_, _, .step (.step .start (.act b op node' out own beacon ran))
    (.deliver a net.sent.length _ stillAmbient _ _ at_last received), later.sent.length_le, ?_, ?_⟩
  · rw [hellosHeard_received, if_pos ⟨rfl, isSender⟩, List.getLast?_concat]
  · intro a' b' others
    rw [hellosHeard_received, if_neg, List.append_nil, quiet]
    rintro ⟨rfl, same⟩
    rw [isSender] at same
    cases same
    exact others rfl

/-- Hellos for any pairs of daemons, one after the other. -/
theorem Settled.tells_all (launched : Launched afInet start)
    (distinct : Function.Injective (nodeAddr start)) (room : Room afInet start)
    (agreeing : Agreeing start) (pairs : List (ι × ι)) :
    ∀ {net : Network ι}, Settled start net →
      ∃ passed net', NetworkRun Beacon net passed net' ∧
        (∀ p ∈ pairs, ∃ k, (hellosHeard net' p.1 p.2).getLast? = some k ∧ net.sent.length ≤ k) ∧
        ∀ p, p ∉ pairs → hellosHeard net' p.1 p.2 = hellosHeard net p.1 p.2 := by
  induction pairs with
  | nil =>
      intro net _
      exact ⟨[], net, .start, by simp, fun _ _ => rfl⟩
  | cons p pairs ih =>
      intro net settled
      obtain ⟨passed₁, net₁, first, grows, heard, quiet⟩ :=
        settled.tells launched room agreeing p.1 p.2
      obtain ⟨passed₂, net₂, second, told, quiet₂⟩ := ih (first.settled launched distinct settled)
      refine ⟨_, net₂, first.append second, ?_, ?_⟩
      · intro q member
        by_cases again : q ∈ pairs
        · obtain ⟨k, isLast, since⟩ := told q again
          exact ⟨k, isLast, grows.trans since⟩
        · obtain rfl := (List.mem_cons.mp member).resolve_right again
          rw [quiet₂ q again]
          exact ⟨_, heard, Nat.le_refl _⟩
      · intro q others
        rw [List.mem_cons, not_or] at others
        rw [quiet₂ q others.2]
        exact quiet q.1 q.2 others.1

/-- The daemons can always make a round with hellos alone, in which nobody hears itself. -/
theorem Settled.exists_round (launched : Launched afInet start)
    (distinct : Function.Injective (nodeAddr start)) (room : Room afInet start)
    (agreeing : Agreeing start) (settled : Settled start net) :
    ∃ passed net', NetworkRun Beacon net passed net' ∧ Round net passed net' ∧
      ∀ a, hellosHeard net' a a = hellosHeard net a a := by
  obtain ⟨passed, net', ran, told, quiet⟩ := settled.tells_all launched distinct room agreeing
    (Finset.univ.filter fun p : ι × ι => p.1 ≠ p.2).toList
  refine ⟨passed, net', ran, ⟨ran.mono fun _ _ _ => And.right, ?_⟩, ?_⟩
  · intro a b other
    exact told (a, b) (by simpa using other)
  · intro a
    exact quiet (a, a) (by simp)

/-- From a settled state the daemons can converge with hellos alone. -/
theorem Settled.exists_converged (launched : Launched afInet start)
    (distinct : Function.Injective (nodeAddr start)) (room : Room afInet start)
    (agreeing : Agreeing start) (sameOrder : ∀ a b, (start.node a).order = (start.node b).order)
    (settled : Settled start net) :
    ∃ passed net', NetworkRun Beacon net passed net' ∧ Converged net' ∧
      ∀ a, hellosHeard net' a a = hellosHeard net a a := by
  obtain ⟨passed₁, net₁, ran₁, first, quiet₁⟩ :=
    settled.exists_round launched distinct room agreeing
  have settled₁ := ran₁.settled launched distinct settled
  obtain ⟨passed₂, net₂, ran₂, second, quiet₂⟩ :=
    settled₁.exists_round launched distinct room agreeing
  refine ⟨_, net₂, ran₁.append ran₂, ?_, fun a => (quiet₂ a).trans (quiet₁ a)⟩
  intro a b other
  obtain ⟨v, recorded, twoWay, shows⟩ := settled.two_rounds launched distinct first second other
  obtain ⟨state, inside, same⟩ := shows (sameOrder a b)
  obtain ⟨clist, ipver⟩ := ran₂.still_clist b state (List.mem_append_left _ inside)
  obtain ⟨clist', ipver'⟩ := ran₂.still_clist b net₂ (by simp)
  refine ⟨v, recorded, twoWay, same.trans ?_⟩
  exact advertised_congr (clist.trans clist'.symm) (ipver.trans ipver'.symm)

end

/-- The differential of a commodity towards a daemon: the own queue against what the daemon advertises. -/
def gradient (c : Commodity) (node : Node) : Nat :=
  queueLength c - ((advertised node c.dest).getD 0).toNat

/-- The differential that an update computes for an entry that shows what its daemon advertises. -/
theorem differential_eq_gradient {n : Neighbor} {c : Commodity} {node : Node}
    (shows : n.view.backlog = advertised node) : differential c n = gradient c node := by
  have recorded : ((n.view.backlog c.dest).getD 0).toNat = recordedBacklog n c := by
    show (((entryOf n c).map fun e : Commodity => e.cdata.backlog).getD 0).toNat = recordedBacklog n c
    unfold recordedBacklog
    cases entryOf n c with
    | none => rfl
    | some e => rfl
  rw [differential, gradient, ← recorded, shows]

/-- An entry of `a` is for the daemon `b`, and shows what it advertises. -/
structure ShowsDaemon (net : Network ι) (a b : ι) (n : Neighbor) : Prop where
  member : n ∈ (net.node a).bprd.nlist
  isNode : n.addr = nodeAddr net b
  twoWay : n.bidir ≠ 0
  offers : ∀ c, differential c n = gradient c (net.node b)

section

variable {start net : Network ι} {a b : ι} {n : Neighbor} {c : Commodity} {hop : Option Neighbor} {d : Nat}

omit [DecidableEq ι] in
theorem Converged.entry (converged : Converged net) (other : b ≠ a) : ∃ n, ShowsDaemon net a b n := by
  obtain ⟨v, recorded, twoWay, shows⟩ := converged a b (Ne.symm other)
  obtain ⟨n, found, rfl⟩ := Option.map_eq_some_iff.mp recorded
  refine ⟨n, KeyedList.lookup_mem found, KeyedList.lookup_key found, ?_, fun c =>
    differential_eq_gradient shows⟩
  rw [show n.bidir = 1 from twoWay]
  decide

/-- A daemon that never heard itself has entries for other daemons only. -/
theorem Converged.daemon (settled : Settled start net) (converged : Converged net)
    (deaf : hellosHeard net a a = []) (member : n ∈ (net.node a).bprd.nlist) :
    ∃ b, b ≠ a ∧ ShowsDaemon net a b n := by
  have tracked := settled.tracked
  have wellKept := (tracked.ready a).wellKept
  obtain ⟨b, isNode⟩ := settled.neighbor member
  rw [← tracked.nodeAddr_eq] at isNode
  have recorded := wellKept.view_of_mem member
  rw [isNode] at recorded
  have other : b ≠ a := by
    rintro rfl
    have shows := tracked.shows b b _ recorded
    rw [deaf] at shows
    cases shows
  obtain ⟨n', entry⟩ := converged.entry other
  obtain rfl := List.inj_on_of_nodup_map wellKept.neighbors member entry.member
    (isNode.trans entry.isNode.symm)
  exact ⟨b, other, entry⟩

omit [DecidableEq ι] in
/-- The next hop over a table that shows exactly the other daemons. -/
theorem NextHop.follows (entries : ∀ b, b ≠ a → ∃ n, ShowsDaemon net a b n)
    (daemons : ∀ n ∈ (net.node a).bprd.nlist, ∃ b, b ≠ a ∧ ShowsDaemon net a b n)
    (others : ∃ b, b ≠ a) (forOthers : c.dest ≠ nodeAddr net a)
    (chosen : NextHop (nodeAddr net a) (net.node a).bprd.nlist c hop d) :
    ∃ n b, hop = some n ∧ b ≠ a ∧ n.addr = nodeAddr net b ∧ d = gradient c (net.node b) ∧
      (nodeAddr net b = c.dest ∨ (∀ b', b' ≠ a → nodeAddr net b' ≠ c.dest) ∧
        ∀ b', b' ≠ a → gradient c (net.node b') ≤ gradient c (net.node b)) := by
  cases chosen with
  | unrouted unused =>
      rcases unused with own | oneWay
      · exact absurd own.symm forOthers
      · obtain ⟨b, other⟩ := others
        obtain ⟨n, entry⟩ := entries b other
        exact absurd (oneWay n entry.member) entry.twoWay
  | destination n _ member twoWay atDestination =>
      obtain ⟨b, other, entry⟩ := daemons n member
      refine ⟨n, b, rfl, other, entry.isNode, entry.offers c, .inl ?_⟩
      rw [← entry.isNode]
      exact atDestination
  | largest n _ member twoWay plain upper =>
      obtain ⟨b, other, entry⟩ := daemons n member
      refine ⟨n, b, rfl, other, entry.isNode, entry.offers c, .inr ⟨?_, ?_⟩⟩
      · intro b' other'
        obtain ⟨m, entry'⟩ := entries b' other'
        rw [← entry'.isNode]
        exact plain m entry'.member entry'.twoWay
      · intro b' other'
        obtain ⟨m, entry'⟩ := entries b' other'
        rw [← entry.offers, ← entry'.offers]
        exact upper m entry'.member entry'.twoWay

end

/-- The second daemon of the pair holds a packet. -/
theorem pair_holds : ∃ net, Reachable (fun _ _ _ => True) pairStart net ∧
    hellosHeard net true true = [] ∧ (net.node true).bprd.clist.map queueLength = [1] := by
  obtain ⟨net, reachable, found⟩ := @Network.exists_of_perform _ _ (fun _ _ _ => True) pairStart
    [.act true (.backlogger (.add 0))]
    (fun net => hellosHeard net true true == [] && (net.node true).bprd.clist.map queueLength == [1])
    (by simp [Turn.Open]) (by decide +kernel)
  simp only [Bool.and_eq_true, beq_iff_eq] at found
  exact ⟨net, reachable, found⟩

end Bprd
