/-
Module: Bprd.Proofs.TableHistory
Layer: Proofs
Purpose: The neighbour table as a summary of the hello history, over runs of any length. A step processes
  one hello or refreshes the table; its event is what the history remembers of it. Over IPv4 the table
  follows the events themselves, over IPv6 the hellos as the reader sees them.
Imports: Bprd.Proofs.HelloTable, Bprd.Lib.Runs
Trusted boundary: none
Main exports: HelloOp, helloStep, Admissible, seenEvent, helloStep_table, helloStep_admissible, helloRun,
  HeardSinceRemoval, Summarizes, table_summarizes_history
-/
import Bprd.Proofs.HelloTable
import Bprd.Lib.Runs

namespace Bprd

/-- What changes a neighbour table from outside: a hello message, or a refresh. -/
inductive HelloOp where
  | hello (ambient : Ambient) (m : Message)
  | refresh (clock : Nat → Timeval)

/-- One step, with its event. A message is processed as `_handle_message` does once it is parsed. -/
def helloStep (order : Words.ByteOrder) (bprd : BprdT) : HelloOp → Except Fault (BprdT × TableEvent)
  | .hello ambient m =>
      match scheduleMessage (helloConsumers bprd order ambient) m (.start bprd.nlist) with
      | .error fault => .error fault
      | .ok r => .ok ({ bprd with nlist := r.nlist },
          .heard (ambient.clock 0) (helloOf bprd.ipver order m))
  | .refresh clock =>
      .ok ({ bprd with nlist := ntableRefresh bprd.neighborTimeout clock bprd.nlist },
        .expired (expiredBy bprd.neighborTimeout clock bprd.nlist))

/-- A refresh, or a well-formed hello. -/
def Admissible (ipver : UInt8) : HelloOp → Prop
  | .hello _ m => WellFormed ipver m
  | .refresh _ => True

/-- The event of a step as the node with the address `saddr` sees it. -/
def seenEvent (saddr : Sockaddr) : HelloOp → TableEvent → TableEvent
  | .hello ambient _, .heard time hello => .heard time (seenHello ambient saddr 0 hello)
  | _, event => event

/-- On a table as on an entry: over IPv4 a hello does what it says. -/
theorem step_seenEvent {saddr : Sockaddr} (family : saddr.family = afInet) (table : TableView) (op : HelloOp)
    (event : TableEvent) :
    table.step (ownNetaddr saddr) (seenEvent saddr op event) = table.step (ownNetaddr saddr) event := by
  cases op with
  | refresh clock => rfl
  | hello ambient m =>
      cases event with
      | expired gone => rfl
      | heard time hello =>
          simp only [seenEvent, TableView.step, TableView.hear, NeighborView.absorb, mem_seenHello_listed,
            recognises_inet family]
          rfl

section

variable {bprd : BprdT} {order : Words.ByteOrder}

/-- A well-formed hello is processed, and the table hears it as it is seen. -/
theorem helloStep_wellFormed {ambient : Ambient} (running : RunningFamily bprd.ipver) {m : Message}
    (wellFormed : WellFormed bprd.ipver m) :
    helloStep order bprd (.hello ambient m) =
      .ok ({ bprd with
          nlist := heardHello (ownNetaddr bprd.saddr) (ambient.clock 0)
            (seenHello ambient bprd.saddr 0 (helloOf bprd.ipver order m)) bprd.nlist },
        .heard (ambient.clock 0) (helloOf bprd.ipver order m)) := by
  obtain ⟨r, scheduled, _, _, nlist⟩ := @scheduleMessage_wellFormed bprd order ambient m running
    wellFormed (.start bprd.nlist)
  simp only [helloStep, scheduled, nlist]
  rfl

/-- An admissible step returns, changes nothing but the table, and does to the table what its event as it
    is seen does. -/
theorem helloStep_table (running : RunningFamily bprd.ipver) (wellKept : WellKept bprd.nlist)
    {op : HelloOp} (admissible : Admissible bprd.ipver op) :
    ∃ nlist event, helloStep order bprd op = .ok ({ bprd with nlist := nlist }, event) ∧
      WellKept nlist ∧
      tableView nlist =
        (tableView bprd.nlist).step (ownNetaddr bprd.saddr) (seenEvent bprd.saddr op event) := by
  cases op with
  | hello ambient m =>
      exact ⟨_, _, helloStep_wellFormed running admissible, wellKept_heardHello wellKept,
        tableView_heardHello _ _ _ _⟩
  | refresh clock =>
      exact ⟨_, _, rfl, wellKept_ntableRefresh wellKept _ _, tableView_ntableRefresh wellKept _ _⟩

end

/-- A table that was reached from the table of `start`, with the events in between. -/
structure Follows (start : BprdT) (events : List TableEvent) (bprd : BprdT) : Prop where
  frame : bprd = { start with nlist := bprd.nlist }
  wellKept : WellKept bprd.nlist
  view : tableView bprd.nlist =
    (tableView start.nlist).after (ownNetaddr start.saddr) events

section

variable {start bprd bprd' : BprdT} {order : Words.ByteOrder} {events : List TableEvent}
  {op : HelloOp} {event : TableEvent}

/-- Over IPv4 an admissible step returns, and the table follows its event. -/
theorem helloStep_admissible (running : RunningFamily start.ipver) (inet : start.saddr.family = afInet)
    (follows : Follows start events bprd) (admissible : Admissible start.ipver op) :
    ∃ bprd' event, helloStep order bprd op = .ok (bprd', event) ∧
      Follows start (events ++ [event]) bprd' := by
  have family : bprd.ipver = start.ipver := by rw [follows.frame]
  have own : bprd.saddr = start.saddr := by rw [follows.frame]
  obtain ⟨nlist, event, stepped, wellKept, view⟩ := @helloStep_table bprd order (family ▸ running)
    follows.wellKept op (family ▸ admissible)
  refine ⟨_, event, stepped, ?_, wellKept, ?_⟩
  · rw [follows.frame]
  · show tableView nlist = _
    rw [view, own, step_seenEvent inet, follows.view, after_append]

end

/-- The events of a trace. -/
def eventsOf (trace : List (HelloOp × TableEvent)) : List TableEvent := trace.map Prod.snd

section

variable {start : BprdT} {order : Words.ByteOrder}

/-- A run of admissible steps returns, and the table follows its events. -/
theorem helloRun (running : RunningFamily start.ipver) (inet : start.saddr.family = afInet)
    (wellKept : WellKept start.nlist) :
    ∀ {ops : List HelloOp}, (∀ op ∈ ops, Admissible start.ipver op) →
      ∃ bprd' trace, Runs.run (helloStep order) start ops = .ok (bprd', trace) ∧
        Follows start (eventsOf trace) bprd' := by
  intro ops
  induction ops using List.reverseRecOn with
  | nil => exact fun _ => ⟨start, [], rfl, rfl, wellKept, rfl⟩
  | append_singleton ops op ih =>
      intro admissible
      obtain ⟨bprd₁, trace, ran, follows⟩ :=
        ih fun o member => admissible o (List.mem_append_left _ member)
      obtain ⟨bprd₂, event, stepped, follows'⟩ := @helloStep_admissible _ _ order _ _ running inet follows
        (admissible op (List.mem_append_right _ (List.mem_singleton.mpr rfl)))
      refine ⟨bprd₂, trace ++ [(op, event)], ?_, ?_⟩
      · exact Runs.run_append.mpr ⟨bprd₁, trace, [(op, event)], ran,
          Runs.run_cons.mpr ⟨bprd₂, event, [], stepped, rfl, rfl⟩, rfl⟩
      · rw [eventsOf, List.map_append]
        exact follows'

end

/-! ### Reading a table off its history -/

/-- A hello from `a` was heard, and no refresh has removed the entry of `a` since. -/
def HeardSinceRemoval (a : Netaddr) (events : List TableEvent) : Prop :=
  ∃ before time hello after, events = before ++ .heard time hello :: after ∧ hello.sender = a ∧
    ∀ gone, .expired gone ∈ after → gone a = false

/-- One more event: it is a hello of `a`, or the earlier one is left. -/
theorem heardSinceRemoval_concat_iff {a : Netaddr} {events : List TableEvent} {event : TableEvent} :
    HeardSinceRemoval a (events ++ [event]) ↔
      (∃ time hello, event = .heard time hello ∧ hello.sender = a) ∨
        HeardSinceRemoval a events ∧ ∀ gone, event = .expired gone → gone a = false := by
  constructor
  · rintro ⟨before, time, hello, after, split, from_a, kept⟩
    rcases List.eq_nil_or_concat' after with rfl | ⟨earlier, last, rfl⟩
    · obtain ⟨rfl, last⟩ := List.append_inj' split rfl
      cases last
      exact .inl ⟨time, hello, rfl, from_a⟩
    · have parts : events ++ [event] = (before ++ .heard time hello :: earlier) ++ [last] := by
        rw [split]
        simp
      obtain ⟨rfl, same⟩ := List.append_inj' parts rfl
      cases same
      refine .inr ⟨⟨before, time, hello, earlier, rfl, from_a,
        fun gone member => kept gone (List.mem_append_left _ member)⟩, ?_⟩
      rintro gone rfl
      exact kept gone (List.mem_append_right _ (List.mem_singleton.mpr rfl))
  · rintro (⟨time, hello, rfl, from_a⟩ | ⟨⟨before, time, hello, after, split, from_a, kept⟩, keeps⟩)
    · exact ⟨events, time, hello, [], rfl, from_a, by simp⟩
    · refine ⟨before, time, hello, after ++ [event], by simp [split], from_a, ?_⟩
      intro gone member
      rcases List.mem_append.mp member with inside | last
      · exact kept gone inside
      · exact keeps gone (List.mem_singleton.mp last).symm

theorem sinceCreation_ne_nil_iff (a : Netaddr) (events : List TableEvent) :
    sinceCreation a events ≠ [] ↔ HeardSinceRemoval a events := by
  induction events using List.reverseRecOn with
  | nil =>
      refine iff_of_false (fun some_heard => some_heard rfl) ?_
      rintro ⟨before, _, _, after, split, _⟩
      exact absurd split.symm (by simp)
  | append_singleton events event ih =>
      rw [sinceCreation_append, heardSinceRemoval_concat_iff, ← ih]
      cases event with
      | heard time hello =>
          by_cases from_a : hello.sender = a
          · simp [extendLog, from_a]
          · simp [extendLog, from_a]
      | expired gone =>
          cases removes : gone a with
          | true => simp [extendLog, removes]
          | false => simp [extendLog, removes]

theorem lastBacklog_isSome_iff {d : Netaddr} {commodities : List CommodityShort} :
    (∃ b, lastBacklog d commodities = some b) ↔ ∃ c ∈ commodities, c.addr = d := by
  rw [← Option.isSome_iff_exists, lastBacklog, Option.isSome_map, List.find?_isSome]
  simp

/-- What the summary of a history looks like in the neighbour list. -/
structure Summarizes (own : Netaddr) (events : List TableEvent) (nlist : List Neighbor) : Prop where
  neighbors : (nlist.map Neighbor.addr).Nodup
  commodities : ∀ n ∈ nlist, (n.clist.map Commodity.dest).Nodup
  present : ∀ a, (∃ n ∈ nlist, n.addr = a) ↔ HeardSinceRemoval a events
  destinations : ∀ n ∈ nlist, ∀ d, (∃ c ∈ n.clist, c.dest = d) ↔
    ∃ c ∈ carried (sinceCreation n.addr events), c.addr = d
  backlogs : ∀ n ∈ nlist, ∀ c ∈ n.clist,
    lastBacklog c.dest (carried (sinceCreation n.addr events)) = some c.cdata.backlog
  bidir : ∀ n ∈ nlist, n.bidir = 1 ↔ Listed own (sinceCreation n.addr events)
  updateTime : ∀ n ∈ nlist,
    (sinceCreation n.addr events).getLast?.map Prod.fst = some n.updateTime

theorem WellKept.view_of_mem {nlist : List Neighbor} (wellKept : WellKept nlist) {n : Neighbor}
    (member : n ∈ nlist) : tableView nlist n.addr = some n.view := by
  rw [tableView, wellKept.neighbors.lookup_eq_some_iff.mpr ⟨member, rfl⟩]
  rfl

theorem WellKept.backlog_of_mem {nlist : List Neighbor} (wellKept : WellKept nlist) {n : Neighbor}
    (member : n ∈ nlist) {c : Commodity} (inside : c ∈ n.clist) :
    n.view.backlog c.dest = some c.cdata.backlog := by
  show (KeyedList.lookup Commodity.dest c.dest n.clist).map _ = _
  rw [(wellKept.commodities n member).lookup_eq_some_iff.mpr ⟨inside, rfl⟩, Option.map_some]

theorem tableView_isSome_iff {nlist : List Neighbor} {a : Netaddr} :
    tableView nlist a ≠ none ↔ ∃ n ∈ nlist, n.addr = a := by
  rw [tableView, ne_eq, Option.map_eq_none_iff, KeyedList.lookup_eq_none_iff]
  simp

/-- An entry known by its summary. -/
theorem view_eq_summary {own : Netaddr} {events : List TableEvent} {n : Neighbor}
    (view : some n.view = summary own (sinceCreation n.addr events)) :
    n.bidir = (if Listed own (sinceCreation n.addr events) then 1 else 0) ∧
      (sinceCreation n.addr events).getLast?.map Prod.fst = some n.updateTime ∧
      ∀ d, (KeyedList.lookup Commodity.dest d n.clist).map (fun c => c.cdata.backlog) =
        lastBacklog d (carried (sinceCreation n.addr events)) := by
  rw [summary] at view
  obtain ⟨last, isLast, value⟩ := Option.map_eq_some_iff.mp view.symm
  refine ⟨(congrArg NeighborView.bidir value).symm, ?_, ?_⟩
  · rw [isLast, Option.map_some]
    exact congrArg some (congrArg NeighborView.updateTime value)
  · intro d
    exact (congrFun (congrArg NeighborView.backlog value) d).symm

/-- A table reached from an empty one summarises its history. -/
theorem Follows.summarizes {start bprd : BprdT} {events : List TableEvent}
    (follows : Follows start events bprd) (empty : start.nlist = []) :
    Summarizes (ownNetaddr start.saddr) events bprd.nlist := by
  have fromEmpty : ∀ a, tableView bprd.nlist a =
      summary (ownNetaddr start.saddr) (sinceCreation a events) := by
    intro a
    rw [follows.view, empty]
    exact after_eq_summary _ _ _
  have entries : ∀ n ∈ bprd.nlist, some n.view =
      summary (ownNetaddr start.saddr) (sinceCreation n.addr events) := by
    intro n member
    rw [← fromEmpty, follows.wellKept.view_of_mem member]
  have recorded : ∀ n ∈ bprd.nlist, ∀ d,
      (KeyedList.lookup Commodity.dest d n.clist).map (fun c => c.cdata.backlog) =
        lastBacklog d (carried (sinceCreation n.addr events)) :=
    fun n member => (view_eq_summary (entries n member)).2.2
  refine ⟨follows.wellKept.neighbors, follows.wellKept.commodities, ?_, ?_, ?_, ?_, ?_⟩
  · intro a
    rw [← sinceCreation_ne_nil_iff, ← tableView_isSome_iff, fromEmpty, ne_eq, summary_eq_none_iff]
  · intro n member d
    rw [← lastBacklog_isSome_iff, ← recorded n member d]
    constructor
    · rintro ⟨c, inside, rfl⟩
      exact ⟨c.cdata.backlog, follows.wellKept.backlog_of_mem member inside⟩
    · rintro ⟨b, found⟩
      obtain ⟨c, isFound, _⟩ := Option.map_eq_some_iff.mp found
      exact ⟨c, KeyedList.lookup_mem isFound, KeyedList.lookup_key isFound⟩
  · intro n member c inside
    rw [← recorded n member]
    exact follows.wellKept.backlog_of_mem member inside
  · intro n member
    rw [(view_eq_summary (entries n member)).1]
    split
    · rename_i lists
      exact iff_of_true rfl lists
    · rename_i unlisted
      exact iff_of_false (by decide) unlisted
  · exact fun n member => (view_eq_summary (entries n member)).2.1

/-- Over IPv4, from the empty table, every sequence of well-formed hellos and refreshes is processed, and
    the table is the summary of its history. -/
theorem table_summarizes_history {start : BprdT} {order : Words.ByteOrder} {ops : List HelloOp}
    (running : RunningFamily start.ipver) (inet : start.saddr.family = afInet) (empty : start.nlist = [])
    (admissible : ∀ op ∈ ops, Admissible start.ipver op) :
    ∃ bprd' trace, Runs.run (helloStep order) start ops = .ok (bprd', trace) ∧
      Summarizes (ownNetaddr start.saddr) (eventsOf trace) bprd'.nlist := by
  have wellKept : WellKept start.nlist := by
    rw [empty]
    exact ⟨List.nodup_nil, by simp⟩
  obtain ⟨bprd', trace, ran, follows⟩ := @helloRun start order running inet wellKept ops admissible
  exact ⟨bprd', trace, ran, follows.summarizes empty⟩

/-- The TLV that carries backlog 5 for 10.0.0.9 on a little-endian host. -/
def backlogTlv : TlvblockEntry :=
  { clearedEntry with
    type := 1, flags := 0x10, length := 24, index2 := 255, intOrder := 256
    singleValue := (host4 [10, 0, 0, 9]).bytes ++ [0, 0] ++ [5, 0, 0, 0] }

/-- The block of one address. -/
def oneAddress (bytes : List UInt8) : AddrblockEntry :=
  { numAddr := 1, midStart := 0, midLen := 4, midSrc := bytes, addr := List.Vector.replicate _ 0
    prefixlen := 32, prefixes := [], tlvblock := [] }

/-- A hello of 10.0.0.2 that carries a backlog of 5 for 10.0.0.9 and lists some addresses. -/
def neighborHello (listed : List (List UInt8)) : Message :=
  { msgType := 1, msgFlags := 0x90, addrLen := 4, origAddr := some [10, 0, 0, 2], hoplimit := none
    hopcount := none, seqno := some 0, tlvs := [backlogTlv], addrs := listed.map oneAddress }

/-- The daemon at 10.0.0.1 that holds three packets for 10.0.0.9 and has heard nothing. -/
def listener : BprdT :=
  { ipver := afInet, ifIndex := 1, saddr := ⟨afInet, [10, 0, 0, 1]⟩, helloSeqno := 0
    neighborTimeout := 2500000
    clist := [{ cdata := ⟨host4 [10, 0, 0, 9], 0⟩, backdiff := 0, nfqId := 1
                queue := some { head := 0, tail := 9, qh := some 7 } }]
    nlist := [] }

/-- A clock that stands still, and memory that holds zeros. -/
def stillAmbient : Ambient :=
  { clock := fun _ => ⟨0, 0⟩, uninit := fun _ => uninitNetaddr, leftover := fun _ => zeroLeftover }

theorem neighborHello_wellFormed : WellFormed afInet (neighborHello [[10, 0, 0, 1]]) ∧
    WellFormed afInet (neighborHello []) :=
  ⟨⟨rfl, rfl, rfl, by decide, by decide, by decide⟩, ⟨rfl, rfl, rfl, by decide, by decide, by decide⟩⟩

/-- A link that becomes one-way: the second hello does not list the daemon. -/
def fadingOps : List HelloOp :=
  [.hello stillAmbient (neighborHello [[10, 0, 0, 1]]), .hello stillAmbient (neighborHello [])]

theorem fadingOps_admissible : ∀ op ∈ fadingOps, Admissible afInet op := by
  intro op member
  rcases List.mem_cons.mp member with rfl | last
  · exact neighborHello_wellFormed.1
  · rw [List.mem_singleton.mp last]
    exact neighborHello_wellFormed.2

theorem table_summarizes_history_run : ∃ bprd' trace,
    Runs.run (helloStep .little) listener fadingOps = .ok (bprd', trace) ∧
      Summarizes (host4 [10, 0, 0, 1]) (eventsOf trace) bprd'.nlist :=
  table_summarizes_history (.inl rfl) rfl rfl fadingOps_admissible

end Bprd
