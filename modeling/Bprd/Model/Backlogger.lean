/-
Module: Bprd.Model.Backlogger
Layer: Model
Purpose: Queues, capture rules and packet release (src/backlogger.c). `backlogger_init` gives every
  commodity a queue and installs two iptables rules for each commodity that is not destined to this node;
  `backlogger_packet_release` searches the largest stored differential and sends from that queue.
Imports: Bprd.Model.Ntable, Bprd.Model.NetaddrText, Bprd.Model.Fault
Trusted boundary: human-reviewed spec
Main exports: Chain, Rule, ruleCommand, backloggerInit, captureCommands, releaseSearch, sendLoop,
  releaseCount, backloggerPacketRelease, BackloggerOp, backloggerStep
-/
import Bprd.Model.Ntable
import Bprd.Model.NetaddrText
import Bprd.Model.Fault

namespace Bprd

/-- The two chains of the raw table that get a rule for each captured commodity. -/
inductive Chain where
  | output
  | prerouting
deriving DecidableEq, Repr

/-- `/sbin/iptables -t raw -A <chain> -d <dst> -j NFQUEUE --queue-num <queueNum>`. -/
structure Rule where
  chain : Chain
  dst : Netaddr
  queueNum : UInt16
deriving DecidableEq

/-- Bit `i` of an address, from the front. -/
def addrBit (addr : List.Vector UInt8 16) (i : Nat) : Bool :=
  (addr.toList.getD (i / 8) 0).toNat.testBit (7 - i % 8)

/-- `iptables -d A/p`: the first p bits agree. -/
def matchesPrefix (p : Netaddr) (dst : List.Vector UInt8 16) : Bool :=
  (List.range p.prefixLen.toNat).all fun i => addrBit p.addr i == addrBit dst i

/-- The first loop of `backlogger_init`: allocate and bind a queue. `createQueue` is
    `nfq_create_queue`, which returns null when the queue number cannot be bound. -/
def bindQueue (createQueue : UInt16 → Option QueueHandle) (c : Commodity) : Except Fault Commodity :=
  match createQueue c.nfqId with
  | none => .error (.logErr "Error during nfq_create_queue()")
  | some qh => .ok { c with queue := some { fifoInit with qh := some qh } }

/-- The second loop of `backlogger_init`: no rule for a commodity destined to this node. -/
def captureRules (naddr : Netaddr) (clist : List Commodity) : List Rule :=
  clist.flatMap fun c =>
    if netaddrCmp naddr c.cdata.addr = 0 then []
    else [⟨.output, c.cdata.addr, c.nfqId⟩, ⟨.prerouting, c.cdata.addr, c.nfqId⟩]

/-- `backlogger_init`. The own address is copied into a union that held `leftover`. -/
def backloggerInit (createQueue : UInt16 → Option QueueHandle) (leftover : Leftover) (bprd : BprdT) :
    Except Fault (BprdT × List Rule) := do
  let clist ← bprd.clist.mapM (bindQueue createQueue)
  return ({ bprd with clist := clist }, captureRules (copiedNetaddr leftover bprd.saddr) clist)

/-- The name of a chain in the format strings. -/
def Chain.text : Chain → List Char
  | .output => "OUTPUT".toList
  | .prerouting => "PREROUTING".toList

/-- The format strings of the two calls of `snprintf`, filled in. -/
def ruleText (rule : Rule) (dst : List Char) : List Char :=
  "/sbin/iptables -t raw -A ".toList ++ rule.chain.text ++ " -d ".toList ++ dst ++
    " -j NFQUEUE --queue-num ".toList ++ CText.decimalText rule.queueNum.toNat

/-- `snprintf(cmd, 256, …)` with the check of its result, for the command that `system` runs: the result is
    the length of the whole text, of which `cmd` holds at most 255 characters. -/
def ruleCommand (rule : Rule) : Except Fault (List Char) :=
  match netaddrToString rule.dst with
  | none => .error .nullPointer
  | some dst =>
      if (ruleText rule dst).length = 256 then .error (.logErr "Unable to construct system string")
      else .ok ((ruleText rule dst).take 255)

/-- The commands that `backlogger_init` runs for the rules it installs. -/
def captureCommands (rules : List Rule) : Except Fault (List (List Char)) := rules.mapM ruleCommand

/-- The search loop of `backlogger_packet_release`. `c` is the element pointer found so far and `i` the
    position of the loop cursor. -/
def releaseSearch : List Commodity → Nat → Option Nat → UInt32 → Option Nat × UInt32
  | [], _, c, diffopt => (c, diffopt)
  | ctemp :: rest, i, c, diffopt =>
      if ctemp.backdiff > diffopt then releaseSearch rest (i + 1) (some i) ctemp.backdiff
      else releaseSearch rest (i + 1) c diffopt

/-- `while (count--) {fifo_send_packet(c->queue);}`. -/
def sendLoop : Nat → Fifo → Fifo × List Verdict
  | 0, queue => (queue, [])
  | count + 1, queue =>
      let sent := fifoSendPacket queue
      let rest := sendLoop count sent.1
      (rest.1, sent.2 ++ rest.2)

/-- `(diffopt+1)/2 > count ? count : (diffopt+1)/2`, in 32-bit arithmetic. -/
def releaseCount (diffopt count : UInt32) : UInt32 :=
  if (diffopt + 1) / 2 > count then count else (diffopt + 1) / 2

/-- A step of one queue, null-checked as the functions of fifo_queue.c do. -/
def onQueue (act : Fifo → Fifo × List Verdict) (c : Commodity) : Commodity × List Verdict :=
  match c.queue with
  | none => (c, [])
  | some queue => ({ c with queue := some (act queue).1 }, (act queue).2)

/-- Apply a step to the commodity behind a pointer. -/
def onCommodity (act : Commodity → Commodity × List Verdict) (i : Nat) (clist : List Commodity) :
    List Commodity × List Verdict :=
  match clist[i]? with
  | none => (clist, [])
  | some c => (clist.set i (act c).1, (act c).2)

/-- `backlogger_packet_release`. -/
def backloggerPacketRelease (count : UInt32) (clist : List Commodity) :
    List Commodity × List Verdict :=
  match releaseSearch clist 0 none 0 with
  | (none, _) => (clist, [])
  | (some i, diffopt) =>
      onCommodity (onQueue (sendLoop (releaseCount diffopt count).toNat)) i clist

/-- The calls that move packets of the daemon's own commodities. The queue is named by the position of
    its commodity. -/
inductive BackloggerOp where
  /-- `fifo_add_packet`: the kernel announces a packet. -/
  | add (i : Nat)
  /-- `fifo_send_packet`. -/
  | send (i : Nat)
  /-- `fifo_drop_packet`. -/
  | drop (i : Nat)
  /-- `fifo_delete`. -/
  | delete (i : Nat)
  /-- `backlogger_packet_release`. -/
  | release (count : UInt32)
deriving DecidableEq, Repr

/-- One call, with the verdicts it issues. -/
def backloggerStep (clist : List Commodity) : BackloggerOp → List Commodity × List Verdict
  | .add i => onCommodity (onQueue fun queue => (fifoAddPacket queue, [])) i clist
  | .send i => onCommodity (onQueue fifoSendPacket) i clist
  | .drop i => onCommodity (onQueue fifoDropPacket) i clist
  | .delete i => onCommodity (onQueue fifoDelete) i clist
  | .release count => backloggerPacketRelease count clist

end Bprd
