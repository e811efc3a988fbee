/-
Module: Bprd.Proofs.MessageSafety
Layer: Proofs
Purpose: Which datagrams the hello reader survives without half-applying a message. A message of type 1
  always leaves its mark on the table when its callbacks return: its sender's entry gets a new update
  time. So a datagram is harmless exactly when nothing in it traps the parser and all its messages of
  type 1 are well-formed.
Imports: Bprd.Proofs.ParserTraps
Trusted boundary: none
Main exports: Harmless, scheduleMessage_marks, harmless_iff
-/
import Bprd.Proofs.ParserTraps

namespace Bprd

open Fallible (bind_eq_ok_iff)

/-- A datagram is harmless to a daemon: whatever the clock and uninitialised memory hold, `hello_recv`
    returns, every complete message that is not a well-formed hello leaves the table as it was, and so
    does what follows the last complete message. -/
structure Harmless (bprd : BprdT) (order : Words.ByteOrder) (buf : List UInt8) : Prop where
  returns : ∀ ambient, ∃ bprd', helloRecv bprd order ambient buf = .ok bprd'
  inert : ∀ ambient before m after r r', (scanPacket buf).1 = before ++ m :: after →
    ¬WellFormed bprd.ipver m →
      forEach (scheduleMessage (helloConsumers bprd order ambient)) before (.start bprd.nlist) =
        .ok r →
      scheduleMessage (helloConsumers bprd order ambient) m r = .ok r' → r'.nlist = r.nlist
  remainder : ∀ ambient bprd', helloRecv bprd order ambient buf = .ok bprd' →
    ∃ r, forEach (scheduleMessage (helloConsumers bprd order ambient)) (scanPacket buf).1
      (.start bprd.nlist) = .ok r ∧ bprd'.nlist = r.nlist

/-! ### The mark of a hello -/

/-- The update times of a table. -/
def updateTimes (nlist : List Neighbor) : List Timeval := nlist.map Neighbor.updateTime

theorem updateTimes_modify {f : Neighbor → Neighbor} (keeps : ∀ n, (f n).updateTime = n.updateTime)
    (nlist : List Neighbor) (i : Nat) : updateTimes (nlist.modify i f) = updateTimes nlist := by
  induction nlist generalizing i with
  | nil => simp
  | cons n nlist ih =>
      cases i with
      | zero => exact congrArg (· :: updateTimes nlist) (keeps n)
      | succ i => exact congrArg (n.updateTime :: ·) (ih i)

/-- A callback that sets no update time and does not read the clock. -/
def SameTimes (r r' : HelloReader) : Prop :=
  updateTimes r'.nlist = updateTimes r.nlist ∧ r'.readings = r.readings

theorem SameTimes.refl (r : HelloReader) : SameTimes r r := ⟨rfl, rfl⟩

theorem SameTimes.trans {r r' r'' : HelloReader} (first : SameTimes r r') (second : SameTimes r' r'') :
    SameTimes r r'' :=
  ⟨second.1.trans first.1, second.2.trans first.2⟩

theorem forEach_append {α σ : Type} (act : α → σ → Except Fault σ) (xs ys : List α) (s : σ) :
    forEach act (xs ++ ys) s = forEach act xs s >>= forEach act ys := by
  induction xs generalizing s with
  | nil => rfl
  | cons x xs ih =>
      rw [List.cons_append, forEach_cons, forEach_cons]
      cases act x s with
      | error fault => rfl
      | ok s' => exact ih s'

/-- What every callback of a sequence keeps, the sequence keeps. -/
theorem forEach_sameTimes {α : Type} {act : α → HelloReader → Except Fault HelloReader}
    (step : ∀ {x r r'}, act x r = .ok r' → SameTimes r r') :
    ∀ {xs : List α} {r r' : HelloReader}, forEach act xs r = .ok r' → SameTimes r r'
  | [], r, r', ran => by
      cases ran
      exact .refl r
  | x :: xs, r, r', ran => by
      rw [forEach_cons] at ran
      obtain ⟨r₁, head, tail⟩ := bind_eq_ok_iff.mp ran
      exact (step head).trans (forEach_sameTimes step tail)

section

variable {bprd : BprdT} {order : Words.ByteOrder} {ambient : Ambient} {m : Message}

theorem helloConsMsgTlv_sameTimes {tlv : TlvblockEntry} {r r' : HelloReader}
    (ran : helloConsMsgTlv order tlv r = .ok r') : SameTimes r r' := by
  unfold helloConsMsgTlv at ran
  split at ran
  · split at ran
    · cases ran
    · cases ran
      exact ⟨updateTimes_modify (by exact fun _ => rfl) _ _, rfl⟩
  · cases ran

theorem helloConsAddrStart_sameTimes {bytes : List UInt8} {r r' : HelloReader}
    (ran : helloConsAddrStart bprd ambient m bytes r = .ok r') : SameTimes r r' := by
  unfold helloConsAddrStart at ran
  dsimp only at ran
  split at ran
  · split at ran
    · cases ran
    · cases ran
      exact ⟨updateTimes_modify (by exact fun _ => rfl) _ _, rfl⟩
  · cases ran
    exact ⟨rfl, rfl⟩

theorem scheduleAddr_sameTimes {addr : AddrblockEntry} {i : Nat} {r r' : HelloReader}
    (ran : scheduleAddr (helloConsumers bprd order ambient) m addr i r = .ok r') : SameTimes r r' := by
  unfold scheduleAddr at ran
  split at ran
  · cases ran
  · split at ran
    · cases ran
    · rename_i started
      exact (helloConsAddrStart_sameTimes started).trans
        (forEach_sameTimes (fun failed => by cases failed) ran)

/-- No clock reading still to come is an update time of the table. -/
def Fresh (ambient : Ambient) (r : HelloReader) : Prop :=
  ∀ k, r.readings ≤ k → ambient.clock k ∉ updateTimes r.nlist

theorem Fresh.sameTimes {r r' : HelloReader} (fresh : Fresh ambient r) (same : SameTimes r r') :
    Fresh ambient r' := by
  intro k later
  rw [same.1]
  exact fresh k (same.2 ▸ later)

/-- The first callback of a message reads the clock and sets the update time of one entry. -/
theorem helloConsMsgStart_marks (ticking : Function.Injective ambient.clock) {r r' : HelloReader}
    (fresh : Fresh ambient r) (ran : helloConsMsgStart bprd ambient m r = .ok r') :
    updateTimes r'.nlist ≠ updateTimes r.nlist ∧ Fresh ambient r' := by
  have now : ambient.clock r.readings ∉ updateTimes r.nlist := fresh _ (Nat.le_refl _)
  have later : ∀ k, r.readings + 1 ≤ k → ambient.clock k ≠ ambient.clock r.readings :=
    fun k bound same => absurd (ticking same) (by omega)
  unfold helloConsMsgStart at ran
  split at ran
  · cases ran
  · split at ran
    · cases ran
    · dsimp only at ran
      split at ran
      · rename_i i found
        cases ran
        obtain ⟨before, n, after, shape, position⟩ : ∃ before n after,
            r.nlist = before ++ n :: after ∧ before.length = i := by
          rw [nlistFind_eq] at found
          obtain ⟨inside, _⟩ := List.findIdx?_eq_some_iff_getElem.mp found
          exact ⟨r.nlist.take i, r.nlist[i], r.nlist.drop (i + 1), by simp, by simp; omega⟩
        subst position
        have times : updateTimes (r.nlist.modify before.length fun n =>
            { n with updateTime := ambient.clock r.readings }) =
              updateTimes before ++ ambient.clock r.readings :: updateTimes after := by
          rw [shape, KeyedList.modify_middle]
          exact List.map_append
        have old : updateTimes r.nlist = updateTimes before ++ n.updateTime :: updateTimes after := by
          rw [shape]
          exact List.map_append
        constructor
        · dsimp only
          intro same
          apply now
          rw [← same, times]
          exact List.mem_append_right _ (List.mem_cons_self ..)
        · intro k bound member
          dsimp only at member bound
          rw [times] at member
          rcases List.mem_append.mp member with early | late
          · exact fresh k (by omega) (by rw [old]; exact List.mem_append_left _ early)
          · rcases List.mem_cons.mp late with here | behind
            · exact later k bound here
            · exact fresh k (by omega)
                (by rw [old]; exact List.mem_append_right _ (List.mem_cons_of_mem _ behind))
      · cases ran
        constructor
        · intro same
          have longer := congrArg List.length same
          simp [updateTimes, listInsert] at longer
        · intro k bound member
          dsimp only at bound
          rcases List.mem_cons.mp member with here | old
          · exact later k bound here
          · exact fresh k (by omega) old

/-- A message of type 1 whose callbacks return has changed the table. -/
theorem scheduleMessage_marks (isHello : m.msgType = bprdMsgTypeHello)
    (ticking : Function.Injective ambient.clock) {r r' : HelloReader} (fresh : Fresh ambient r)
    (ran : scheduleMessage (helloConsumers bprd order ambient) m r = .ok r') :
    updateTimes r'.nlist ≠ updateTimes r.nlist ∧ Fresh ambient r' := by
  rw [scheduleMessage_hello isHello] at ran
  obtain ⟨r₁, started, ran⟩ := bind_eq_ok_iff.mp ran
  obtain ⟨r₂, recorded, ran⟩ := bind_eq_ok_iff.mp ran
  obtain ⟨changed, fresh₁⟩ := helloConsMsgStart_marks ticking fresh started
  have tail : SameTimes r₁ r' := (forEach_sameTimes helloConsMsgTlv_sameTimes recorded).trans
    (forEach_sameTimes (fun block => forEach_sameTimes scheduleAddr_sameTimes block) ran)
  exact ⟨fun same => changed (tail.1.symm.trans same), fresh₁.sameTimes tail⟩

theorem forEach_fresh (ticking : Function.Injective ambient.clock) :
    ∀ {ms : List Message} {r r' : HelloReader}, Fresh ambient r →
      forEach (scheduleMessage (helloConsumers bprd order ambient)) ms r = .ok r' → Fresh ambient r'
  | [], r, r', fresh, ran => by
      cases ran
      exact fresh
  | m :: ms, r, r', fresh, ran => by
      rw [forEach_cons] at ran
      obtain ⟨r₁, head, tail⟩ := bind_eq_ok_iff.mp ran
      refine forEach_fresh ticking ?_ tail
      by_cases isHello : m.msgType = bprdMsgTypeHello
      · exact (scheduleMessage_marks isHello ticking fresh head).2
      · rw [scheduleMessage_other isHello] at head
        cases head
        exact fresh

end

/-- A clock that ticks, and has not yet shown any update time of a table. -/
theorem exists_ticking (nlist : List Neighbor) : ∃ ambient : Ambient,
    Function.Injective ambient.clock ∧ Fresh ambient (.start nlist) := by
  have bounded : ∃ bound : Int, ∀ n ∈ nlist, n.updateTime.tvSec ≤ bound := by
    induction nlist with
    | nil => exact ⟨0, fun _ member => (List.not_mem_nil member).elim⟩
    | cons n nlist ih =>
        obtain ⟨bound, holds⟩ := ih
        refine ⟨max bound n.updateTime.tvSec, fun n' member => ?_⟩
        rcases List.mem_cons.mp member with rfl | inside
        · exact le_max_right _ _
        · exact le_trans (holds n' inside) (le_max_left _ _)
  obtain ⟨bound, holds⟩ := bounded
  refine ⟨{ clock := fun k => ⟨bound + 1 + k, 0⟩, uninit := fun _ => uninitNetaddr
            leftover := fun _ => zeroLeftover }, ?_, ?_⟩
  · intro k l same
    have seconds : bound + 1 + (k : Int) = bound + 1 + l := congrArg Timeval.tvSec same
    omega
  · intro k _ member
    obtain ⟨n, inside, same⟩ := List.mem_map.mp member
    have seconds : n.updateTime.tvSec = bound + 1 + (k : Int) := congrArg Timeval.tvSec same
    have small := holds n inside
    omega

/-! ### Harmless datagrams -/

section

variable {bprd : BprdT} {order : Words.ByteOrder} {buf : List UInt8}

theorem helloRecv_scan {ambient : Ambient} :
    helloRecv bprd order ambient buf =
      (packetOutcome (scanPacket buf).2
        (forEach (scheduleMessage (helloConsumers bprd order ambient)) (scanPacket buf).1
          (.start bprd.nlist))).map fun result => { bprd with nlist := result.2.nlist } := by
  rw [helloRecv, pbbReaderHandlePacket_eq]
  cases packetOutcome _ _ with
  | error fault => rfl
  | ok result => rfl

/-- What a datagram comes to when `hello_recv` returns. -/
theorem helloRecv_returns {ambient : Ambient} {bprd' : BprdT}
    (ran : helloRecv bprd order ambient buf = .ok bprd') :
    (∀ fault, (scanPacket buf).2 ≠ some (.fault fault)) ∧
      ∃ r, forEach (scheduleMessage (helloConsumers bprd order ambient)) (scanPacket buf).1
        (.start bprd.nlist) = .ok r ∧ bprd'.nlist = r.nlist := by
  rw [helloRecv_scan] at ran
  cases handled : forEach (scheduleMessage (helloConsumers bprd order ambient)) (scanPacket buf).1
      (.start bprd.nlist) with
  | error fault =>
      rw [handled] at ran
      cases ran
  | ok r =>
      rw [handled] at ran
      cases stop : (scanPacket buf).2 with
      | none =>
          rw [stop] at ran
          cases ran
          exact ⟨(fun _ isFault => by cases isFault), r, rfl, rfl⟩
      | some s =>
          rw [stop] at ran
          cases s with
          | result code =>
              cases ran
              exact ⟨(fun _ isFault => by cases isFault), r, rfl, rfl⟩
          | fault fault => cases ran

/-- A datagram is harmless exactly when no element of it traps the parser and its messages of type 1 are
    well-formed hellos. -/
theorem harmless_iff (running : RunningFamily bprd.ipver) :
    Harmless bprd order buf ↔ ¬AnyTraps (packetElements buf) ∧
      ∀ m ∈ (scanPacket buf).1, m.msgType = bprdMsgTypeHello → WellFormed bprd.ipver m := by
  rw [← scanPacket_faults]
  constructor
  · intro harmless
    obtain ⟨ambient, ticking, fresh⟩ := exists_ticking bprd.nlist
    obtain ⟨bprd', ran⟩ := harmless.returns ambient
    obtain ⟨noFault, r', handled, _⟩ := helloRecv_returns ran
    refine ⟨fun ⟨fault, isFault⟩ => noFault fault isFault, ?_⟩
    intro m member isHello
    by_contra malformed
    -- The callbacks of this message have returned, so they have marked the table.
    obtain ⟨before, after, shape⟩ := List.append_of_mem member
    rw [shape, forEach_append] at handled
    obtain ⟨r₁, early, rest⟩ := bind_eq_ok_iff.mp handled
    rw [forEach_cons] at rest
    obtain ⟨r₂, scheduled, _⟩ := bind_eq_ok_iff.mp rest
    have unchanged := harmless.inert ambient before m after r₁ r₂ shape malformed early scheduled
    have marked := scheduleMessage_marks isHello ticking (forEach_fresh ticking fresh early) scheduled
    exact marked.1 (congrArg updateTimes unchanged)
  · rintro ⟨noFault, wellFormed⟩
    refine ⟨fun ambient => ⟨_, helloRecv_eq running (fun fault isFault => noFault ⟨fault, isFault⟩)
      wellFormed⟩, ?_, fun ambient bprd' ran => (helloRecv_returns ran).2⟩
    intro ambient before m after r r' shape malformed _ scheduled
    have member : m ∈ (scanPacket buf).1 := by
      rw [shape]
      exact List.mem_append_right _ (List.mem_cons_self ..)
    have foreign : m.msgType ≠ bprdMsgTypeHello := fun isHello =>
      malformed (wellFormed m member isHello)
    rw [scheduleMessage_other foreign] at scheduled
    cases scheduled
    rfl

end

/-- A message of another protocol is harmless. -/
theorem foreign_message_harmless : Harmless listener .little [0, 9, 3, 0, 6, 0, 0] := by
  have scanned : scanPacket [0, 9, 3, 0, 6, 0, 0] =
      ([{ msgType := 9, msgFlags := 0, addrLen := 4, origAddr := none, hoplimit := none
          hopcount := none, seqno := none, tlvs := [], addrs := [] }], none) := rfl
  refine (harmless_iff (.inl rfl)).mpr ⟨?_, ?_⟩
  · intro traps
    obtain ⟨_, stop⟩ := scanPacket_faults.mpr traps
    rw [scanned] at stop
    cases stop
  · intro m member isHello
    rw [scanned, List.mem_singleton] at member
    subst member
    cases isHello

/-- A message of type 1 without an originator ends the process. -/
theorem anonymous_hello_asserts : ¬Harmless listener .little [0, 1, 3, 0, 6, 0, 0] := by
  intro harmless
  obtain ⟨bprd', ran⟩ := harmless.returns stillAmbient
  have failed : helloRecv listener .little stillAmbient [0, 1, 3, 0, 6, 0, 0] =
      .error (.assertion "context->has_origaddr") := rfl
  rw [failed] at ran
  cases ran

/-- A TLV with a value for all 256 indexes divides by zero: one in a message of another protocol. -/
example : helloRecv listener .little stillAmbient [0, 9, 3, 0, 10, 0, 4, 5, 0x14, 1, 0] =
    .error .divideByZero := rfl

end Bprd
