/-
Module: Bprd.Proofs.NodeFrame
Layer: Proofs
Purpose: What each step of a daemon can change. A router update rewrites backlogs and differentials and
  keeps the queues; a reception changes the neighbour list only; the hello writer refreshes the neighbour
  list and advances the sequence number; the backlogger moves packets of one queue. Later proofs use
  these lemmas instead of the definitions.
Imports: Bprd.Model.Node, Bprd.Lib.Fallible
Trusted boundary: none
Main exports: routerUpdate_ok, routerUpdate_clist, helloRecv_ok, helloCycle_frame, queueAt,
  queueAt_onQueue, giver_qh, nodeStep_queueStep
-/
import Bprd.Model.Node
import Bprd.Lib.Fallible

namespace Bprd

open Fallible (bind_eq_ok_iff mapM_eq_ok_iff)

/-! ### Router updates -/

theorem updateBacklog_ok {c c' : Commodity} :
    updateBacklog c = .ok c' ↔
      ∃ queue, c.queue = some queue ∧
        c' = { c with cdata := { c.cdata with backlog := fifoLength queue } } := by
  unfold updateBacklog
  cases c.queue with
  | none => simp
  | some queue => simp [eq_comm]

theorem updateCommodity_ok {naddr : Netaddr} {bprd : BprdT} {tie : TieTest} {nlist : List Neighbor}
    {tests tests' : Nat} {c c' : Commodity} {routes : List RouteUpdate}
    (ran : updateCommodity naddr bprd tie nlist tests c = .ok (tests', c', routes)) :
    ∃ d, c' = { c with backdiff := d } := by
  unfold updateCommodity at ran
  split at ran
  · cases ran
    exact ⟨0, rfl⟩
  · obtain ⟨s, _, chosen⟩ := bind_eq_ok_iff.mp ran
    split at chosen
    · cases chosen
      exact ⟨s.diffopt, rfl⟩
    · cases chosen
      exact ⟨0, rfl⟩

theorem updateCommodities_cons {naddr : Netaddr} {bprd : BprdT} {tie : TieTest} {nlist : List Neighbor}
    {tests : Nat} {c : Commodity} {clist clist' : List Commodity} {routes : List RouteUpdate} :
    updateCommodities naddr bprd tie nlist tests (c :: clist) = .ok (clist', routes) ↔
      ∃ tests' c' routes₁ rest routes₂,
        updateCommodity naddr bprd tie nlist tests c = .ok (tests', c', routes₁) ∧
        updateCommodities naddr bprd tie nlist tests' clist = .ok (rest, routes₂) ∧
        clist' = c' :: rest ∧ routes = routes₁ ++ routes₂ := by
  rw [updateCommodities, bind_eq_ok_iff]
  constructor
  · rintro ⟨⟨tests', c', routes₁⟩, head, later⟩
    obtain ⟨⟨rest, routes₂⟩, tail, result⟩ := bind_eq_ok_iff.mp later
    cases result
    exact ⟨tests', c', routes₁, rest, routes₂, head, tail, rfl, rfl⟩
  · rintro ⟨tests', c', routes₁, rest, routes₂, head, tail, rfl, rfl⟩
    exact ⟨_, head, bind_eq_ok_iff.mpr ⟨_, tail, rfl⟩⟩

theorem updateCommodities_ok {naddr : Netaddr} {bprd : BprdT} {tie : TieTest} {nlist : List Neighbor} :
    ∀ {clist clist' : List Commodity} {tests : Nat} {routes : List RouteUpdate},
      updateCommodities naddr bprd tie nlist tests clist = .ok (clist', routes) →
        List.Forall₂ (fun c c' => ∃ d, c' = { c with backdiff := d }) clist clist'
  | [], clist', tests, routes, ran => by
      cases ran
      exact .nil
  | c :: clist, clist', tests, routes, ran => by
      obtain ⟨tests', c', routes₁, rest, routes₂, head, tail, rfl, rfl⟩ :=
        updateCommodities_cons.mp ran
      exact .cons (updateCommodity_ok head) (updateCommodities_ok tail)

/-- The three loops of a completed update. -/
theorem routerUpdate_ok {tie : TieTest} {leftover : Leftover} {bprd bprd' : BprdT}
    {routes : List RouteUpdate} :
    routerUpdate tie leftover bprd = .ok (bprd', routes) ↔
      ∃ clist nlist clist', bprd.clist.mapM updateBacklog = .ok clist ∧
        bprd.nlist.mapM (updateNeighbor clist) = .ok nlist ∧
        updateCommodities (copiedNetaddr leftover bprd.saddr) bprd tie nlist 0 clist =
          .ok (clist', routes) ∧
        bprd' = { bprd with clist := clist', nlist := nlist } := by
  unfold routerUpdate
  constructor
  · intro ran
    obtain ⟨clist, backlogs, ran⟩ := bind_eq_ok_iff.mp ran
    obtain ⟨nlist, differentials, ran⟩ := bind_eq_ok_iff.mp ran
    obtain ⟨⟨clist', routes'⟩, selected, result⟩ := bind_eq_ok_iff.mp ran
    cases result
    exact ⟨clist, nlist, clist', backlogs, differentials, selected, rfl⟩
  · rintro ⟨clist, nlist, clist', backlogs, differentials, selected, rfl⟩
    exact bind_eq_ok_iff.mpr ⟨_, backlogs, bind_eq_ok_iff.mpr ⟨_, differentials,
      bind_eq_ok_iff.mpr ⟨_, selected, rfl⟩⟩⟩

/-- What a completed update does to each own commodity: its backlog becomes the length of its queue, and
    some differential is stored. -/
theorem routerUpdate_clist {tie : TieTest} {leftover : Leftover} {bprd bprd' : BprdT}
    {routes : List RouteUpdate} (ran : routerUpdate tie leftover bprd = .ok (bprd', routes)) :
    List.Forall₂ (fun c c' => ∃ queue d, c.queue = some queue ∧
      c' = { c with cdata := { c.cdata with backlog := fifoLength queue }, backdiff := d })
      bprd.clist bprd'.clist := by
  obtain ⟨clist, nlist, clist', backlogs, differentials, selected, rfl⟩ := routerUpdate_ok.mp ran
  have first := mapM_eq_ok_iff.mp backlogs
  have third := updateCommodities_ok selected
  clear backlogs selected ran differentials
  show List.Forall₂ _ bprd.clist clist'
  generalize bprd.clist = start at first
  induction first generalizing clist' with
  | nil =>
      cases third
      exact .nil
  | cons head _ ih =>
      obtain ⟨queue, hasQueue, rfl⟩ := updateBacklog_ok.mp head
      cases third with
      | cons stored rest =>
          obtain ⟨d, rfl⟩ := stored
          exact .cons ⟨queue, d, hasQueue, rfl⟩ (ih _ rest)

/-! ### Receptions and hellos -/

theorem helloRecv_ok {bprd bprd' : BprdT} {order : Words.ByteOrder} {ambient : Ambient}
    {buf : List UInt8} (ran : helloRecv bprd order ambient buf = .ok bprd') :
    ∃ nlist, bprd' = { bprd with nlist := nlist } := by
  unfold helloRecv at ran
  split at ran
  · cases ran
  · cases ran
    exact ⟨_, rfl⟩

section

variable {σ : Type} {creator : MessageCreator σ} {sendPacket : List UInt8 → Except Fault Unit}
  {motive : σ → Prop}
  (finish : ∀ {s}, motive s → motive (creator.finishMessageHeader s).2)

include finish in
theorem finalizeMessageFragment_state {origAddr : List UInt8} {fragment : List WriterAddress}
    {out out' : Written} {s s' : σ}
    (ran : finalizeMessageFragment creator sendPacket origAddr fragment (out, s) = .ok (out', s'))
    (start : motive s) : motive s' := by
  unfold finalizeMessageFragment at ran
  obtain ⟨_, _, ran⟩ := bind_eq_ok_iff.mp ran
  obtain ⟨_, _, ran⟩ := bind_eq_ok_iff.mp ran
  obtain ⟨_, _, ran⟩ := bind_eq_ok_iff.mp ran
  obtain ⟨_, _, result⟩ := bind_eq_ok_iff.mp ran
  cases result
  exact finish start

include finish in
theorem addressLoop_state {origAddr : List UInt8} {max : Nat} :
    ∀ {rest fragment : List WriterAddress} {acs : CompressSession} {out out' : Written} {s s' : σ},
      addressLoop creator sendPacket origAddr max rest acs fragment (out, s) = .ok (out', s') →
        motive s → motive s'
  | [], fragment, acs, out, out', s, s', ran, start =>
      finalizeMessageFragment_state finish ran start
  | addr :: rest, fragment, acs, out, out', s, s', ran, start => by
      rw [addressLoop] at ran
      split at ran
      · exact addressLoop_state ran start
      · split at ran
        · cases ran
          exact start
        · cases finalized : finalizeMessageFragment creator sendPacket origAddr fragment (out, s) with
          | error fault =>
            rw [finalized] at ran
            cases ran
          | ok next =>
            rw [finalized] at ran
            obtain ⟨out₁, s₁⟩ := next
            dsimp only at ran
            have middle := finalizeMessageFragment_state finish finalized start
            split at ran
            · exact addressLoop_state ran middle
            · cases ran
              exact middle

end

/-- A hello round refreshes the neighbour list and advances the sequence number. -/
theorem helloCycle_frame {order : Words.ByteOrder} {padding : Nat → UInt8 × UInt8}
    {clock : Nat → Timeval} {sendto : List UInt8 → Bool} {writer : PbbWriter} {bprd bprd' : BprdT}
    {out : Written}
    (ran : helloCycle order padding clock sendto writer bprd = .ok (out, bprd')) :
    ∃ seqno, bprd' = { bprd with
      nlist := ntableRefresh bprd.neighborTimeout clock bprd.nlist, helloSeqno := seqno } := by
  unfold helloCycle at ran
  obtain ⟨addrLen, _, ran⟩ := bind_eq_ok_iff.mp ran
  obtain ⟨⟨out₁, bprd₁⟩, created, ran⟩ := bind_eq_ok_iff.mp ran
  obtain ⟨_, _, result⟩ := bind_eq_ok_iff.mp ran
  cases result
  unfold pbbWriterCreateMessage at created
  obtain ⟨_, _, created⟩ := bind_eq_ok_iff.mp created
  obtain ⟨_, _, created⟩ := bind_eq_ok_iff.mp created
  obtain ⟨_, _, created⟩ := bind_eq_ok_iff.mp created
  -- The loop only calls the callback that advances the sequence number.
  refine addressLoop_state (motive := fun b => ∃ seqno, b = { bprd with
    nlist := ntableRefresh bprd.neighborTimeout clock bprd.nlist, helloSeqno := seqno }) ?_ created ?_
  · rintro s ⟨seqno, rfl⟩
    exact ⟨seqno + 1, rfl⟩
  · exact ⟨bprd.helloSeqno, rfl⟩

/-! ### Steps of a daemon -/

section

variable {node node' : Node} {out : Output}

theorem nodeStep_update {tie : TieTest} {leftover : Leftover} :
    nodeStep node (.update tie leftover) = .ok (node', out) ↔
      ∃ bprd routes, routerUpdate tie leftover node.bprd = .ok (bprd, routes) ∧
        node' = { node with bprd := bprd } ∧ out = ⟨[], routes, []⟩ := by
  simp only [nodeStep]
  cases routerUpdate tie leftover node.bprd with
  | error fault => simp
  | ok next => simp [eq_comm, Prod.ext_iff]

theorem nodeStep_recv {ambient : Ambient} {buf : List UInt8} :
    nodeStep node (.recv ambient buf) = .ok (node', out) ↔
      ∃ bprd, helloRecv node.bprd node.order ambient buf = .ok bprd ∧
        node' = { node with bprd := bprd } ∧ out = ⟨[], [], []⟩ := by
  simp only [nodeStep]
  cases helloRecv node.bprd node.order ambient buf with
  | error fault => simp
  | ok next => simp [eq_comm]

theorem nodeStep_hello {padding : Nat → UInt8 × UInt8} {clock : Nat → Timeval} {sendto : List UInt8 → Bool} :
    nodeStep node (.hello padding clock sendto) = .ok (node', out) ↔
      ∃ written bprd, helloCycle node.order padding clock sendto node.writer node.bprd =
          .ok (written, bprd) ∧
        node' = { node with bprd := bprd, writer := written.writer } ∧
        out = ⟨[], [], written.datagrams⟩ := by
  simp only [nodeStep]
  cases helloCycle node.order padding clock sendto node.writer node.bprd with
  | error fault => simp
  | ok next => simp [eq_comm, Prod.ext_iff]

end

/-! ### Queues -/

/-- The queue of the commodity at a position. -/
def queueAt (clist : List Commodity) (i : Nat) : Option Fifo := clist[i]?.bind Commodity.queue

theorem queueAt_eq_some_iff {clist : List Commodity} {i : Nat} {queue : Fifo} :
    queueAt clist i = some queue ↔ ∃ c, clist[i]? = some c ∧ c.queue = some queue :=
  Option.bind_eq_some_iff

/-- A step on the queue at `j`: what is behind position `i`, and the verdicts. -/
theorem queueAt_onQueue (act : Fifo → Fifo × List Verdict) (clist : List Commodity) (i j : Nat) :
    queueAt (onCommodity (onQueue act) j clist).1 i =
      if i = j then (queueAt clist i).map fun queue => (act queue).1 else queueAt clist i := by
  unfold onCommodity
  cases present : clist[j]? with
  | none =>
      by_cases same : i = j
      · subst same
        simp [queueAt, present]
      · simp [same]
  | some c =>
      have inside : j < clist.length := (List.getElem?_eq_some_iff.mp present).1
      by_cases same : i = j
      · subst same
        cases hasQueue : c.queue with
        | none => simp [queueAt, onQueue, hasQueue, present, List.getElem?_set_self inside]
        | some queue => simp [queueAt, onQueue, hasQueue, present, List.getElem?_set_self inside]
      · have other : j ≠ i := fun equal => same equal.symm
        simp [queueAt, same, other]

theorem verdicts_onQueue (act : Fifo → Fifo × List Verdict) (clist : List Commodity) (j : Nat) :
    (onCommodity (onQueue act) j clist).2 =
      match queueAt clist j with
      | none => []
      | some queue => (act queue).2 := by
  unfold onCommodity queueAt
  cases clist[j]? with
  | none => rfl
  | some c =>
      cases hasQueue : c.queue with
      | none => simp [onQueue, hasQueue]
      | some queue => simp [onQueue, hasQueue]

/-- Whatever does not depend on the queue, a step on a queue keeps. -/
theorem map_onQueue {α : Type} {p : Commodity → α}
    (keeps : ∀ c queue, p { c with queue := queue } = p c) (act : Fifo → Fifo × List Verdict) (i : Nat)
    (clist : List Commodity) : (onCommodity (onQueue act) i clist).1.map p = clist.map p := by
  unfold onCommodity
  cases present : clist[i]? with
  | none => rfl
  | some c =>
      have same : p (onQueue act c).1 = p c := by
        unfold onQueue
        split
        · rfl
        · exact keeps c _
      have at_i : (clist.map p)[i]? = some (p c) := by
        rw [List.getElem?_map, present]
        rfl
      show (clist.set i (onQueue act c).1).map p = clist.map p
      rw [List.map_set, same]
      obtain ⟨inside, at_i⟩ := List.getElem?_eq_some_iff.mp at_i
      rw [← at_i]
      exact List.set_getElem_self _

theorem map_backloggerStep {α : Type} {p : Commodity → α}
    (keeps : ∀ c queue, p { c with queue := queue } = p c) (op : BackloggerOp)
    (clist : List Commodity) : (backloggerStep clist op).1.map p = clist.map p := by
  cases op with
  | add i => exact map_onQueue keeps _ i clist
  | send i => exact map_onQueue keeps _ i clist
  | drop i => exact map_onQueue keeps _ i clist
  | delete i => exact map_onQueue keeps _ i clist
  | release count =>
      show (backloggerPacketRelease count clist).1.map p = clist.map p
      unfold backloggerPacketRelease
      split
      · rfl
      · exact map_onQueue keeps _ _ clist

theorem queueAt_map {clist clist' : List Commodity}
    (same : clist'.map Commodity.queue = clist.map Commodity.queue) (i : Nat) :
    queueAt clist' i = queueAt clist i := by
  have at_i := congrArg (fun queues => queues[i]?.bind id) same
  rw [List.getElem?_map, List.getElem?_map, Option.bind_map, Option.bind_map] at at_i
  exact at_i

theorem routerUpdate_queueAt {tie : TieTest} {leftover : Leftover} {bprd bprd' : BprdT}
    {routes : List RouteUpdate} (ran : routerUpdate tie leftover bprd = .ok (bprd', routes)) (i : Nat) :
    queueAt bprd'.clist i = queueAt bprd.clist i := by
  apply queueAt_map
  have pointwise := routerUpdate_clist ran
  generalize bprd.clist = clist, bprd'.clist = clist' at pointwise
  induction pointwise with
  | nil => rfl
  | cons head _ ih =>
      obtain ⟨queue, d, _, rfl⟩ := head
      rw [List.map_cons, List.map_cons, ih]

theorem fifoVerdict_qh (verdict : NfVerdict) (queue : Fifo) :
    (fifoVerdict verdict queue).1.qh = queue.qh ∧ ∀ v ∈ (fifoVerdict verdict queue).2, v.qh = queue.qh := by
  unfold fifoVerdict
  split <;> simp

theorem sendLoop_qh : ∀ (count : Nat) (queue : Fifo),
    (sendLoop count queue).1.qh = queue.qh ∧ ∀ v ∈ (sendLoop count queue).2, v.qh = queue.qh
  | 0, queue => ⟨rfl, by simp [sendLoop]⟩
  | count + 1, queue => by
      obtain ⟨sentQh, sentOwn⟩ := fifoVerdict_qh .accept queue
      obtain ⟨restQh, restOwn⟩ := sendLoop_qh count (fifoSendPacket queue).1
      refine ⟨restQh.trans sentQh, ?_⟩
      intro v member
      rcases List.mem_append.mp member with early | late
      · exact sentOwn v early
      · exact (restOwn v late).trans sentQh

theorem fifoDelete_qh (queue : Fifo) :
    (fifoDelete queue).1.qh = queue.qh ∧ ∀ v ∈ (fifoDelete queue).2, v.qh = queue.qh := by
  induction queue using fifoDelete.induct with
  | case1 queue guard ih =>
      rw [fifoDelete, dif_pos guard]
      refine ⟨ih.1, ?_⟩
      intro v member
      rcases List.mem_cons.mp member with rfl | late
      · rfl
      · exact ih.2 v late
  | case2 queue guard =>
      rw [fifoDelete, dif_neg guard]
      exact ⟨rfl, by simp⟩

/-- Verdicts carry the handle of the queue they are given from, which stays the same. -/
theorem giver_qh {act : Fifo → Fifo × List Verdict}
    (giver : act = fifoSendPacket ∨ act = fifoDropPacket ∨ act = fifoDelete ∨
      ∃ count, act = sendLoop count) (queue : Fifo) :
    (act queue).1.qh = queue.qh ∧ ∀ v ∈ (act queue).2, v.qh = queue.qh := by
  rcases giver with rfl | rfl | rfl | ⟨count, rfl⟩
  · exact fifoVerdict_qh .accept queue
  · exact fifoVerdict_qh .drop queue
  · exact fifoDelete_qh queue
  · exact sendLoop_qh count queue

/-- The step of a daemon as its queues see it. -/
inductive QueueStep (clist : List Commodity) : NodeOp → List Commodity → List Verdict → Prop where
  /-- A packet arrives at the queue of position `i`. -/
  | arrival (i : Nat) :
      QueueStep clist (.backlogger (.add i))
        (onCommodity (onQueue fun queue => (fifoAddPacket queue, [])) i clist).1 []
  /-- Verdicts are given from the queue of position `i`. -/
  | verdicts (i : Nat) (act : Fifo → Fifo × List Verdict) {op : NodeOp}
      (giver : act = fifoSendPacket ∨ act = fifoDropPacket ∨ act = fifoDelete ∨
        ∃ count, act = sendLoop count)
      (noArrival : ∀ j, op ≠ .backlogger (.add j)) :
      QueueStep clist op (onCommodity (onQueue act) i clist).1 (onCommodity (onQueue act) i clist).2
  /-- Nothing happens to the queues. -/
  | silent {op : NodeOp} {clist' : List Commodity} (same : ∀ i, queueAt clist' i = queueAt clist i)
      (noArrival : ∀ j, op ≠ .backlogger (.add j)) : QueueStep clist op clist' []

theorem nodeStep_queueStep {node node' : Node} {op : NodeOp} {out : Output}
    (ran : nodeStep node op = .ok (node', out)) :
    QueueStep node.bprd.clist op node'.bprd.clist out.verdicts := by
  cases op with
  | backlogger op =>
      cases ran
      cases op with
      | add i =>
          have quiet : (onCommodity (onQueue fun queue => (fifoAddPacket queue, [])) i
              node.bprd.clist).2 = [] := by
            rw [verdicts_onQueue]
            split <;> rfl
          show QueueStep _ _ _ (onCommodity _ i node.bprd.clist).2
          rw [quiet]
          exact .arrival i
      | send i => exact .verdicts i _ (.inl rfl) (by simp)
      | drop i => exact .verdicts i _ (.inr (.inl rfl)) (by simp)
      | delete i => exact .verdicts i _ (.inr (.inr (.inl rfl))) (by simp)
      | release count =>
          show QueueStep _ _ (backloggerPacketRelease count node.bprd.clist).1
            (backloggerPacketRelease count node.bprd.clist).2
          unfold backloggerPacketRelease
          split
          · exact .silent (fun _ => rfl) (by simp)
          · exact .verdicts _ _ (.inr (.inr (.inr ⟨_, rfl⟩))) (by simp)
  | update tie leftover =>
      obtain ⟨bprd, routes, updated, rfl, rfl⟩ := nodeStep_update.mp ran
      exact .silent (routerUpdate_queueAt updated) (by simp)
  | recv ambient buf =>
      obtain ⟨bprd, received, rfl, rfl⟩ := nodeStep_recv.mp ran
      obtain ⟨nlist, rfl⟩ := helloRecv_ok received
      exact .silent (fun _ => rfl) (by simp)
  | refresh clock =>
      cases ran
      exact .silent (fun _ => rfl) (by simp)
  | hello padding clock sendto =>
      obtain ⟨written, bprd, cycled, rfl, rfl⟩ := nodeStep_hello.mp ran
      obtain ⟨seqno, rfl⟩ := helloCycle_frame cycled
      exact .silent (fun _ => rfl) (by simp)

end Bprd
