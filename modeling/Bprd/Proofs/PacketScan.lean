/-
Module: Bprd.Proofs.PacketScan
Layer: Proofs
Purpose: The packet parser as a scan followed by callbacks. What a packet's messages are does not depend on
  the callbacks, so handling a packet is parsing its messages up to the first parse error and then running
  the callbacks of each. Parsing always makes progress, so the loops of the parser end.
Imports: Bprd.Proofs.TableHistory, Bprd.Lib.Fallible
Trusted boundary: none
Main exports: scanMessages, scanPacket, parseMessage_progress, pbbReaderHandlePacket_eq, helloRecv_eq,
  seenFrom, helloRecv_one, helloRecv_run
-/
import Bprd.Proofs.TableHistory
import Bprd.Lib.Fallible

namespace Bprd

open ConsumeLoop (consumeLoop consumeLoop_done consumeLoop_step)
open Fallible (bind_eq_ok_iff)

/-- The messages that parse, and what stops the parser before the end. -/
def scanMessages : Nat → List UInt8 → List Message × Option ParseStop
  | 0, _ => ([], none)
  | fuel + 1, input =>
      if input.length ≤ 0 then ([], none)
      else
        match parseMessage input with
        | .error stop => ([], some stop)
        | .ok (m, rest) => (m :: (scanMessages fuel rest).1, (scanMessages fuel rest).2)

/-- The messages of a packet. -/
def scanPacket (buffer : List UInt8) : List Message × Option ParseStop :=
  match packetMessages buffer with
  | .error stop => ([], some stop)
  | .ok messages => scanMessages messages.length messages

/-! ### Progress -/

/-- A TLV block is never empty: it starts with its length. -/
theorem parseTlvblock_nonempty {input : List UInt8} {tlvs : List TlvblockEntry} {rest : List UInt8}
    (ran : parseTlvblock input = .ok (tlvs, rest)) : 0 < input.length := by
  cases input with
  | nil => cases ran
  | cons b input => exact Nat.zero_lt_succ _

/-- What follows a parsed message is what its size field says. -/
theorem parseMessage_rest {start : List UInt8} {m : Message} {rest : List UInt8}
    (ran : parseMessage start = .ok (m, rest)) :
    ∃ size, 0 < size ∧ size ≤ start.length ∧ rest = start.drop size := by
  unfold parseMessage at ran
  dsimp only at ran
  obtain ⟨⟨origAddr, c⟩, _, ran⟩ := bind_eq_ok_iff.mp ran
  dsimp only at ran
  split at ran
  · cases ran
  · rename_i inside
    split at ran
    · cases ran
    · obtain ⟨⟨tlvs, afterTlvs⟩, block, ran⟩ := bind_eq_ok_iff.mp ran
      obtain ⟨⟨addrs, _⟩, _, result⟩ := bind_eq_ok_iff.mp ran
      cases result
      refine ⟨_, ?_, Nat.not_lt.mp inside, rfl⟩
      have nonempty := parseTlvblock_nonempty block
      rw [List.length_drop, List.length_take] at nonempty
      omega

theorem parseMessage_progress {start : List UInt8} {m : Message} {rest : List UInt8}
    (ran : parseMessage start = .ok (m, rest)) : rest.length < start.length := by
  obtain ⟨size, positive, inside, rfl⟩ := parseMessage_rest ran
  rw [List.length_drop]
  omega

/-! ### Handling a packet -/

/-- What a packet comes to, from the callbacks' result and the parser's stop. -/
def packetOutcome {σ : Type} (stop : Option ParseStop) (ran : Except Fault σ) :
    Except Fault (PbbResult × σ) :=
  match ran, stop with
  | .error fault, _ => .error fault
  | .ok s, none => .ok (.okay, s)
  | .ok s, some (.result code) => .ok (code, s)
  | .ok _, some (.fault fault) => .error fault

theorem forEach_cons {α σ : Type} (act : α → σ → Except Fault σ) (x : α) (xs : List α) (s : σ) :
    forEach act (x :: xs) s = act x s >>= forEach act xs := by
  rw [forEach]
  cases act x s <;> rfl

section

variable {σ : Type} (consumers : Consumers σ)

theorem consumeLoop_handleMessage (spent : PacketStop σ) : ∀ {fuel : Nat} {input : List UInt8} {s : σ},
    input.length ≤ fuel →
      packetResult (consumeLoop (handleMessage consumers) spent 0 fuel s input) =
        packetOutcome (scanMessages fuel input).2
          (forEach (scheduleMessage consumers) (scanMessages fuel input).1 s)
  | 0, input, s, enough => by
      rw [consumeLoop_done enough]
      rfl
  | fuel + 1, input, s, enough => by
      by_cases short : input.length ≤ 0
      · rw [consumeLoop_done short, scanMessages, if_pos short]
        rfl
      · rw [consumeLoop_step (Nat.not_le.mp short), scanMessages, if_neg short, handleMessage]
        cases parsed : parseMessage input with
        | error stop => cases stop <;> rfl
        | ok next =>
            obtain ⟨m, rest⟩ := next
            have shrunk := parseMessage_progress parsed
            dsimp only
            rw [forEach]
            cases scheduleMessage consumers m s with
            | error fault => rfl
            | ok s' => exact consumeLoop_handleMessage spent (by omega)

/-- A packet is handled by scanning its messages and running the callbacks of each. -/
theorem pbbReaderHandlePacket_eq (buffer : List UInt8) (s : σ) :
    pbbReaderHandlePacket consumers buffer s =
      packetOutcome (scanPacket buffer).2
        (forEach (scheduleMessage consumers) (scanPacket buffer).1 s) := by
  rw [pbbReaderHandlePacket, scanPacket]
  cases packetMessages buffer with
  | error stop => cases stop <;> rfl
  | ok messages => exact consumeLoop_handleMessage consumers _ (Nat.le_refl _)

end

/-! ### Hellos of a datagram -/

/-- The hellos among some messages, with the clock readings at which they are processed; `k` readings
    were made before. -/
def hellosFrom (ipver : UInt8) (order : Words.ByteOrder) (clock : Nat → Timeval) :
    Nat → List Message → List (Timeval × Hello)
  | _, [] => []
  | k, m :: ms =>
      if m.msgType = bprdMsgTypeHello then
        (clock k, helloOf ipver order m) :: hellosFrom ipver order clock (k + 1) ms
      else hellosFrom ipver order clock k ms

/-- Hellos as the reader sees them; `j` copies of the own address were made before. -/
def seenFrom (ambient : Ambient) (saddr : Sockaddr) : Nat → List (Timeval × Hello) → List (Timeval × Hello)
  | _, [] => []
  | j, (time, hello) :: rest =>
      (time, seenHello ambient saddr j hello) :: seenFrom ambient saddr (j + hello.listed.length) rest

/-- Hellos heard one after the other. -/
def heardHellos (own : Netaddr) (hellos : List (Timeval × Hello)) (nlist : List Neighbor) :
    List Neighbor :=
  hellos.foldl (fun nlist entry => heardHello own entry.1 entry.2 nlist) nlist

section

variable {bprd : BprdT} {order : Words.ByteOrder} {ambient : Ambient}

/-- The callbacks of messages whose hellos are well-formed. -/
theorem forEach_scheduleMessage (running : RunningFamily bprd.ipver) :
    ∀ {ms : List Message} {r : HelloReader},
      (∀ m ∈ ms, m.msgType = bprdMsgTypeHello → WellFormed bprd.ipver m) →
        ∃ r', forEach (scheduleMessage (helloConsumers bprd order ambient)) ms r = .ok r' ∧
          r'.nlist = heardHellos (ownNetaddr bprd.saddr) (seenFrom ambient bprd.saddr r.copies
            (hellosFrom bprd.ipver order ambient.clock r.readings ms)) r.nlist
  | [], r, _ => ⟨r, rfl, rfl⟩
  | m :: ms, r, wellFormed => by
      have later : ∀ m' ∈ ms, m'.msgType = bprdMsgTypeHello → WellFormed bprd.ipver m' :=
        fun m' member => wellFormed m' (List.mem_cons_of_mem _ member)
      by_cases isHello : m.msgType = bprdMsgTypeHello
      · obtain ⟨r₁, scheduled, readings, copies, nlist⟩ := @scheduleMessage_wellFormed bprd order ambient m
          running (wellFormed m (List.mem_cons_self ..) isHello) r
        obtain ⟨r', ran, nlist'⟩ := @forEach_scheduleMessage running ms r₁ later
        refine ⟨r', ?_, ?_⟩
        · rw [forEach, scheduled]
          exact ran
        · rw [nlist', readings, copies, nlist, hellosFrom, if_pos isHello]
          rfl
      · obtain ⟨r', ran, nlist'⟩ := @forEach_scheduleMessage running ms r later
        refine ⟨r', ?_, ?_⟩
        · rw [forEach, scheduleMessage_other isHello]
          exact ran
        · rw [nlist', hellosFrom, if_neg isHello]

/-- A datagram that parses without a fault and whose hellos are well-formed is received, and the table
    hears its hellos as they are seen. -/
theorem helloRecv_eq (running : RunningFamily bprd.ipver) {buf : List UInt8}
    (noFault : ∀ fault, (scanPacket buf).2 ≠ some (.fault fault))
    (wellFormed : ∀ m ∈ (scanPacket buf).1, m.msgType = bprdMsgTypeHello → WellFormed bprd.ipver m) :
    helloRecv bprd order ambient buf = .ok { bprd with
      nlist := heardHellos (ownNetaddr bprd.saddr) (seenFrom ambient bprd.saddr 0
        (hellosFrom bprd.ipver order ambient.clock 0 (scanPacket buf).1)) bprd.nlist } := by
  obtain ⟨r', ran, nlist⟩ := @forEach_scheduleMessage bprd order ambient running (scanPacket buf).1
    (.start bprd.nlist) wellFormed
  rw [helloRecv, pbbReaderHandlePacket_eq, ran]
  cases stop : (scanPacket buf).2 with
  | none =>
      simp only [packetOutcome, nlist]
      rfl
  | some s =>
      cases s with
      | result code =>
          simp only [packetOutcome, nlist]
          rfl
      | fault fault => exact absurd stop (noFault fault)

/-- A datagram that is one well-formed hello is received, and the table hears it as it is seen. -/
theorem helloRecv_one (running : RunningFamily bprd.ipver) {buf : List UInt8} {m : Message}
    (scanned : scanPacket buf = ([m], none)) (wellFormed : WellFormed bprd.ipver m) :
    helloRecv bprd order ambient buf = .ok { bprd with
      nlist := heardHello (ownNetaddr bprd.saddr) (ambient.clock 0)
        (seenHello ambient bprd.saddr 0 (helloOf bprd.ipver order m)) bprd.nlist } := by
  have noFault : ∀ fault, (scanPacket buf).2 ≠ some (.fault fault) := by
    intro fault isFault
    rw [scanned] at isFault
    cases isFault
  have wellFormed' : ∀ m' ∈ (scanPacket buf).1, m'.msgType = bprdMsgTypeHello →
      WellFormed bprd.ipver m' := by
    rw [scanned]
    intro m' member _
    rw [List.mem_singleton.mp member]
    exact wellFormed
  rw [helloRecv_eq running noFault wellFormed', scanned, hellosFrom, if_pos wellFormed.isHello]
  rfl

end

/-- What the callbacks read after `k` clock readings and `j` copies of the own address. -/
def Ambient.later (ambient : Ambient) (k j : Nat) : Ambient :=
  { ambient with
    clock := fun i => ambient.clock (k + i)
    leftover := fun i => ambient.leftover (j + i) }

theorem recognises_later (ambient : Ambient) (saddr : Sockaddr) (k j : Nat) :
    ∀ {i : Nat} {listed : List Netaddr},
      recognises (ambient.later k j) saddr i listed = recognises ambient saddr (j + i) listed
  | i, [] => rfl
  | i, a :: rest => by
      rw [recognises, recognises, recognises_later ambient saddr k j]
      rfl

theorem seenHello_later (ambient : Ambient) (saddr : Sockaddr) (k j : Nat) (hello : Hello) :
    seenHello (ambient.later k j) saddr 0 hello = seenHello ambient saddr j hello := by
  rw [seenHello, recognises_later]
  rfl

/-- The steps of the messages of a datagram, after `k` clock readings and `j` copies. -/
def messageOps (ambient : Ambient) : Nat → Nat → List Message → List HelloOp
  | _, _, [] => []
  | k, j, m :: ms =>
      if m.msgType = bprdMsgTypeHello then
        .hello (ambient.later k j) m ::
          messageOps ambient (k + 1) (j + (m.addrs.flatMap AddrblockEntry.assembled).length) ms
      else messageOps ambient k j ms

theorem messageOps_run {order : Words.ByteOrder} {ambient : Ambient} :
    ∀ {ms : List Message} {k j : Nat} {bprd : BprdT}, RunningFamily bprd.ipver →
      (∀ m ∈ ms, m.msgType = bprdMsgTypeHello → WellFormed bprd.ipver m) →
        (∀ op ∈ messageOps ambient k j ms, Admissible bprd.ipver op) ∧
        ∃ trace, Runs.run (helloStep order) bprd (messageOps ambient k j ms) = .ok ({ bprd with
              nlist := heardHellos (ownNetaddr bprd.saddr) (seenFrom ambient bprd.saddr j
                (hellosFrom bprd.ipver order ambient.clock k ms)) bprd.nlist }, trace) ∧
          eventsOf trace = (hellosFrom bprd.ipver order ambient.clock k ms).map fun entry =>
            .heard entry.1 entry.2
  | [], k, j, bprd, _, _ => ⟨fun _ member => (List.not_mem_nil member).elim, [], rfl, rfl⟩
  | m :: ms, k, j, bprd, running, wellFormed => by
      have later : ∀ m' ∈ ms, m'.msgType = bprdMsgTypeHello → WellFormed bprd.ipver m' :=
        fun m' member => wellFormed m' (List.mem_cons_of_mem _ member)
      simp only [messageOps, hellosFrom]
      by_cases isHello : m.msgType = bprdMsgTypeHello
      · have head := wellFormed m (List.mem_cons_self ..) isHello
        rw [if_pos isHello]
        simp only [if_pos isHello]
        have stepped := @helloStep_wellFormed bprd order (ambient.later k j) running m head
        rw [seenHello_later] at stepped
        have copies : (helloOf bprd.ipver order m).listed.length =
            (m.addrs.flatMap AddrblockEntry.assembled).length := List.length_map _
        obtain ⟨admissible, trace, ran, events⟩ := @messageOps_run order ambient ms (k + 1)
          (j + (m.addrs.flatMap AddrblockEntry.assembled).length)
          { bprd with
            nlist := heardHello (ownNetaddr bprd.saddr) (ambient.clock k)
              (seenHello ambient bprd.saddr j (helloOf bprd.ipver order m)) bprd.nlist } running later
        rw [← copies] at admissible ran ⊢
        refine ⟨?_, _, Runs.run_cons.mpr ⟨_, _, trace, stepped, ran, rfl⟩, ?_⟩
        · intro op member
          rcases List.mem_cons.mp member with rfl | inside
          · exact head
          · exact admissible op inside
        · rw [eventsOf, List.map_cons, List.map_cons]
          exact congrArg _ events
      · rw [if_neg isHello]
        simp only [if_neg isHello]
        exact messageOps_run running later

/-- A datagram of well-formed hellos is a run of its messages. -/
theorem helloRecv_run {bprd : BprdT} {order : Words.ByteOrder} {ambient : Ambient}
    (running : RunningFamily bprd.ipver) {buf : List UInt8}
    (noFault : ∀ fault, (scanPacket buf).2 ≠ some (.fault fault))
    (wellFormed : ∀ m ∈ (scanPacket buf).1, m.msgType = bprdMsgTypeHello → WellFormed bprd.ipver m) :
    ∃ bprd' trace, helloRecv bprd order ambient buf = .ok bprd' ∧
      Runs.run (helloStep order) bprd (messageOps ambient 0 0 (scanPacket buf).1) =
        .ok (bprd', trace) := by
  obtain ⟨_, trace, ran, _⟩ := @messageOps_run order ambient _ 0 0 bprd running wellFormed
  exact ⟨_, trace, helloRecv_eq running noFault wellFormed, ran⟩

end Bprd
