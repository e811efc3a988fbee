/-
Module: Bprd.Model.Node
Layer: Model
Purpose: One running daemon: its global record and hello writer, the steps its threads take, and the
  packets its capture rules divert. A step is one critical section or one packet callback. A step that
  ends in a fault ends the process.
Imports: Bprd.Model.Backlogger, Bprd.Model.Router, Bprd.Model.HelloWriter
Trusted boundary: human-reviewed spec
Main exports: Node, NodeOp, Output, nodeStep, NodeConfig, nodeInit, divert, Captured
-/
import Bprd.Model.Backlogger
import Bprd.Model.Router
import Bprd.Model.HelloWriter

namespace Bprd

/-- A daemon with the byte order of its host. -/
structure Node where
  bprd : BprdT
  writer : PbbWriter
  order : Words.ByteOrder

/-- The steps of a daemon. -/
inductive NodeOp where
  /-- A packet callback, or a call of the backlogger. -/
  | backlogger (op : BackloggerOp)
  /-- `router_update`. -/
  | update (tie : TieTest) (leftover : Leftover)
  /-- `hello_recv`. -/
  | recv (ambient : Ambient) (buf : List UInt8)
  /-- `ntable_refresh`. -/
  | refresh (clock : Nat → Timeval)
  /-- One round of the hello writer. -/
  | hello (padding : Nat → UInt8 × UInt8) (clock : Nat → Timeval) (sendto : List UInt8 → Bool)

/-- What a step hands to the outside: verdicts to the kernel's queues, changes of the routing table, and
    datagrams to the multicast group. -/
structure Output where
  verdicts : List Verdict
  routes : List RouteUpdate
  datagrams : List (List UInt8)

/-- One step. -/
def nodeStep (node : Node) : NodeOp → Except Fault (Node × Output)
  | .backlogger op =>
      let (clist, verdicts) := backloggerStep node.bprd.clist op
      .ok ({ node with bprd := { node.bprd with clist := clist } }, ⟨verdicts, [], []⟩)
  | .update tie leftover =>
      match routerUpdate tie leftover node.bprd with
      | .error fault => .error fault
      | .ok (bprd, routes) => .ok ({ node with bprd := bprd }, ⟨[], routes, []⟩)
  | .recv ambient buf =>
      match helloRecv node.bprd node.order ambient buf with
      | .error fault => .error fault
      | .ok bprd => .ok ({ node with bprd := bprd }, ⟨[], [], []⟩)
  | .refresh clock =>
      let nlist := ntableRefresh node.bprd.neighborTimeout clock node.bprd.nlist
      .ok ({ node with bprd := { node.bprd with nlist := nlist } }, ⟨[], [], []⟩)
  | .hello padding clock sendto =>
      match helloCycle node.order padding clock sendto node.writer node.bprd with
      | .error fault => .error fault
      | .ok (out, bprd) => .ok ({ node with bprd := bprd, writer := out.writer }, ⟨[], [], out.datagrams⟩)

/-- The configuration of a daemon: what `bprd_init` sets before the threads start. The commodities are
    given by destination and queue number. -/
structure NodeConfig where
  ipver : UInt8
  ifIndex : Nat
  saddr : Sockaddr
  neighborTimeout : UInt32
  commodities : List (Netaddr × UInt16)
  order : Words.ByteOrder

/-- The commodity record that `create_commodity` builds. -/
def newCommodity (entry : Netaddr × UInt16) : Commodity :=
  { cdata := { addr := entry.1, backlog := 0 }, backdiff := 0, nfqId := entry.2, queue := none }

/-- The global record before the backlogger starts. -/
def NodeConfig.bprd (config : NodeConfig) : BprdT :=
  { ipver := config.ipver, ifIndex := config.ifIndex, saddr := config.saddr, helloSeqno := 0
    neighborTimeout := config.neighborTimeout, clist := config.commodities.map newCommodity
    nlist := [] }

/-- A daemon after its initialisation, with the rules that `backlogger_init` installs. -/
def nodeInit (createQueue : UInt16 → Option QueueHandle) (leftover : Leftover) (config : NodeConfig) :
    Except Fault (Node × List Rule) :=
  match backloggerInit createQueue leftover config.bprd with
  | .error fault => .error fault
  | .ok (bprd, rules) =>
      .ok ({ bprd := bprd, writer := helloWriterInit, order := config.order }, rules)

/-- Where the rules send a packet to the address `dst`: to the queue of the first rule of the chain
    whose destination prefix holds it. -/
def divert (rules : List Rule) (chain : Chain) (dst : List.Vector UInt8 16) : Option UInt16 :=
  (rules.find? fun rule => decide (rule.chain = chain) && matchesPrefix rule.dst dst).map
    Rule.queueNum

/-- A step in which a packet enters a queue only when the rules divert some packet to it. -/
def Captured (rules : List Rule) (node : Node) : NodeOp → Prop
  | .backlogger (.add i) =>
      ∃ chain dst c, node.bprd.clist[i]? = some c ∧ divert rules chain dst = some c.nfqId
  | _ => True

end Bprd
