/-
Module: Bprd.Model.Network
Layer: Model
Purpose: A network of daemons that share a multicast group. A datagram once sent may reach any daemon, any
  number of times and at any later step, or never. The log records the events that statements about the
  past refer to; no step reads it.
Imports: Bprd.Model.Node, Mathlib.Logic.Relation
Trusted boundary: human-reviewed spec
Main exports: Datagram, Event, Network, NetworkStep, Reachable, NetworkRun
-/
import Bprd.Model.Node
import Mathlib.Logic.Relation

namespace Bprd

/-- A datagram and the daemon that sent it. -/
structure Datagram (ι : Type) where
  sender : ι
  bytes : List UInt8

/-- What is remembered of the past. Datagrams are numbered in the order they are sent. -/
inductive Event (ι : Type) where
  /-- `i` ran `router_update` with these commodities. -/
  | updated (i : ι) (clist : List Commodity)
  /-- `i` sent datagram `k`. -/
  | sent (i : ι) (k : Nat)
  /-- `i` processed datagram `k`. -/
  | delivered (i : ι) (k : Nat)

/-- The daemons, every datagram sent so far, and the log, each in order of time. -/
structure Network (ι : Type) where
  node : ι → Node
  sent : List (Datagram ι)
  log : List (Event ι)

variable {ι : Type} [DecidableEq ι]

/-- The events of a daemon's own step: a router update, and the datagrams it sends. -/
def ownEvents (i : ι) (node : Node) (op : NodeOp) (numbered : Nat) (out : Output) : List (Event ι) :=
  (match op with
    | .update _ _ => [.updated i node.bprd.clist]
    | _ => []) ++
    (List.range out.datagrams.length).map fun k => .sent i (numbered + k)

/-- The network after a step of daemon `i` that is not a reception. -/
def Network.acted (net : Network ι) (i : ι) (op : NodeOp) (node' : Node) (out : Output) :
    Network ι :=
  { node := Function.update net.node i node'
    sent := net.sent ++ out.datagrams.map fun bytes => ⟨i, bytes⟩
    log := net.log ++ ownEvents i (net.node i) op net.sent.length out }

/-- The network after daemon `i` has processed datagram `k`. -/
def Network.received (net : Network ι) (i : ι) (k : Nat) (node' : Node) : Network ι :=
  { net with node := Function.update net.node i node', log := net.log ++ [.delivered i k] }

/-- One step of the network. `allowed` restricts what the daemons do on their own; receptions are of
    datagrams sent before. A step that ends a process is not a step of the network: the daemon then takes
    no further part. -/
inductive NetworkStep (allowed : ι → Node → NodeOp → Prop) : Network ι → Network ι → Prop where
  | act {net : Network ι} (i : ι) (op : NodeOp) (node' : Node) (out : Output)
      (own : ∀ ambient buf, op ≠ .recv ambient buf) (permitted : allowed i (net.node i) op)
      (ran : nodeStep (net.node i) op = .ok (node', out)) :
      NetworkStep allowed net (net.acted i op node' out)
  | deliver {net : Network ι} (i : ι) (k : Nat) (d : Datagram ι) (ambient : Ambient) (node' : Node)
      (out : Output) (sent : net.sent[k]? = some d)
      (ran : nodeStep (net.node i) (.recv ambient d.bytes) = .ok (node', out)) :
      NetworkStep allowed net (net.received i k node')

/-- The states that any order of steps reaches. -/
def Reachable (allowed : ι → Node → NodeOp → Prop) (start : Network ι) : Network ι → Prop :=
  Relation.ReflTransGen (NetworkStep allowed) start

/-- A run: the states it passed, first to last, and the state it has reached. -/
inductive NetworkRun (allowed : ι → Node → NodeOp → Prop) (start : Network ι) :
    List (Network ι) → Network ι → Prop where
  | start : NetworkRun allowed start [] start
  | step {passed : List (Network ι)} {net net' : Network ι} (ran : NetworkRun allowed start passed net)
      (step : NetworkStep allowed net net') : NetworkRun allowed start (passed ++ [net]) net'

end Bprd
