/-
Module: Bprd.Proofs.ParserTraps
Layer: Proofs
Purpose: The inputs that take the packet parser down, before any callback runs. The parser reads TLVs and
  address blocks; exactly two kinds of them end the process or leave defined behaviour: a TLV with several
  values for all 256 indexes, and an address block whose head or tail does not fit its addresses. The
  loops of the parser never run out of fuel.
Imports: Bprd.Proofs.PacketScan
Trusted boundary: none
Main exports: tlvTraps, addrblockOverruns, Element, packetElements, scanPacket_faults,
  parseTlvblock_enough, parseAddrs_enough, handleMessages_enough
-/
import Bprd.Proofs.PacketScan

namespace Bprd

open ConsumeLoop (consumeLoop consumeLoop_enough consumeLoop_length_le consumeLoop_bad_iff visited
  Progress)
open Fallible (ok_bind bind_eq_ok_iff)

/-! ### The loops end -/

theorem pbbGetU8_length_le (c : Cursor) : (pbbGetU8 c).2.rest.length ≤ c.rest.length := by
  rw [pbbGetU8]
  split
  · exact Nat.le_refl _
  · split
    · exact Nat.le_refl _
    · rename_i shape
      rw [shape]
      exact Nat.le_succ _

theorem pbbGetU16_length_le (c : Cursor) : (pbbGetU16 c).2.rest.length ≤ c.rest.length :=
  Nat.le_trans (pbbGetU8_length_le _) (pbbGetU8_length_le _)

theorem readTypeExt_length_le (flags : UInt8) (c : Cursor) :
    (readTypeExt flags c).2.rest.length ≤ c.rest.length := by
  rw [readTypeExt]
  split
  · exact pbbGetU8_length_le c
  · exact Nat.le_refl _

theorem readIndex_length_le (flags : UInt8) (c : Cursor) :
    (readIndex flags c).2.2.rest.length ≤ c.rest.length := by
  rw [readIndex]
  split
  · exact Nat.le_refl _
  · exact pbbGetU8_length_le c
  · exact Nat.le_trans (pbbGetU8_length_le _) (pbbGetU8_length_le _)
  · exact Nat.le_refl _

theorem readLength_length_le (old : UInt16) (flags : UInt8) (c : Cursor) :
    (readLength old flags c).2.rest.length ≤ c.rest.length := by
  rw [readLength]
  split
  · exact Nat.le_refl _
  · exact pbbGetU8_length_le c
  · exact pbbGetU16_length_le c
  · exact Nat.le_refl _

/-- The first byte of a nonempty input is consumed. -/
theorem pbbGetU8_consumes {input : List UInt8} (nonempty : 0 < input.length) :
    (pbbGetU8 ⟨input, .okay⟩).2.rest.length < input.length := by
  cases input with
  | nil => exact absurd nonempty (Nat.lt_irrefl 0)
  | cons b rest => exact Nat.lt_succ_self _

theorem parseTlv_progress {entry entry' : TlvblockEntry} {input rest : List UInt8}
    (ran : parseTlv entry input = .ok (entry', rest)) : rest.length < input.length := by
  by_cases nonempty : 0 < input.length
  · have first := pbbGetU8_consumes nonempty
    have second := pbbGetU8_length_le (pbbGetU8 ⟨input, .okay⟩).2
    have third := readTypeExt_length_le (pbbGetU8 (pbbGetU8 ⟨input, .okay⟩).2).1
      (pbbGetU8 (pbbGetU8 ⟨input, .okay⟩).2).2
    unfold parseTlv at ran
    dsimp only at ran
    generalize readTypeExt _ _ = ext at ran third
    have fourth := readIndex_length_le (pbbGetU8 (pbbGetU8 ⟨input, .okay⟩).2).1 ext.2
    generalize readIndex _ _ = range at ran fourth
    have fifth := readLength_length_le entry.length (pbbGetU8 (pbbGetU8 ⟨input, .okay⟩).2).1 range.2.2
    generalize readLength _ _ _ = len at ran fifth
    have shrunk : len.2.rest.length < input.length := by omega
    have dropped := List.length_drop (i := len.1.toNat) (l := len.2.rest)
    split at ran
    · cases ran
    · split at ran
      · cases ran
      · split at ran
        · cases ran
          exact shrunk
        · split at ran
          · cases ran
            omega
          · split at ran
            · cases ran
            · split at ran
              · cases ran
              · cases ran
                omega
  · have empty : input = [] := List.length_eq_zero_iff.mp (Nat.eq_zero_of_not_pos nonempty)
    subst empty
    cases ran

theorem parseTlvStep_progress : Progress parseTlvStep := by
  intro s s' input rest ran
  rw [parseTlvStep] at ran
  split at ran
  · cases ran
  · rename_i read
    cases ran
    exact parseTlv_progress read

theorem parseTlvblock_length_le {input rest : List UInt8} {tlvs : List TlvblockEntry}
    (ran : parseTlvblock input = .ok (tlvs, rest)) : rest.length ≤ input.length := by
  have header := pbbGetU16_length_le ⟨input, .okay⟩
  unfold parseTlvblock at ran
  dsimp only at ran
  split at ran
  · cases ran
  · split at ran
    · cases ran
    · split at ran
      · cases ran
      · rename_i looped
        cases ran
        exact Nat.le_trans (consumeLoop_length_le parseTlvStep_progress looped) header

theorem readHead_length_le {flags addrLen midStart midLen : UInt8}
    {addr : List.Vector UInt8 pbbMaxAddrlen} {c c' : Cursor}
    (ran : readHead flags addrLen c = .ok (midStart, midLen, addr, c')) :
    c'.rest.length ≤ c.rest.length := by
  have first := pbbGetU8_length_le c
  unfold readHead at ran
  dsimp only at ran
  split at ran
  · split at ran
    · cases ran
    · split at ran
      · cases ran
      · cases ran
        rw [List.length_drop]
        omega
  · cases ran
    exact Nat.le_refl _

theorem readTail_length_le {flags addrLen midLen midLen' : UInt8}
    {addr addr' : List.Vector UInt8 pbbMaxAddrlen} {c c' : Cursor}
    (ran : readTail flags addrLen midLen addr c = .ok (midLen', addr', c')) :
    c'.rest.length ≤ c.rest.length := by
  have first := pbbGetU8_length_le c
  unfold readTail at ran
  dsimp only at ran
  split at ran
  · cases ran
    exact Nat.le_refl _
  · cases ran
    exact first
  · split at ran
    · cases ran
    · split at ran
      · cases ran
      · split at ran
        · cases ran
        · cases ran
          rw [List.length_drop]
          omega
  · cases ran

theorem readPrefixes_length_le {flags numAddr addrLen prefixlen : UInt8} {prefixes : List UInt8}
    {c c' : Cursor} (ran : readPrefixes flags numAddr addrLen c = .ok (prefixlen, prefixes, c')) :
    c'.rest.length ≤ c.rest.length := by
  unfold readPrefixes at ran
  split at ran
  · cases ran
    exact Nat.le_refl _
  · split at ran
    · cases ran
    · rename_i shape
      cases ran
      rw [shape]
      exact Nat.le_succ _
  · split at ran
    · cases ran
    · cases ran
      rw [List.length_drop]
      omega
  · cases ran

theorem parseAddrblock_progress {addrLen : UInt8} {input rest : List UInt8} {addr : AddrblockEntry}
    (ran : parseAddrblock addrLen input = .ok (addr, rest)) : rest.length < input.length := by
  by_cases nonempty : 0 < input.length
  · have first := pbbGetU8_consumes nonempty
    have second := pbbGetU8_length_le (pbbGetU8 ⟨input, .okay⟩).2
    unfold parseAddrblock at ran
    dsimp only at ran
    split at ran
    · cases ran
    · obtain ⟨⟨midStart, midLen, addr, c⟩, head, ran⟩ := bind_eq_ok_iff.mp ran
      obtain ⟨⟨midLen, addr, c⟩, tail, ran⟩ := bind_eq_ok_iff.mp ran
      have third := readHead_length_le head
      have fourth := readTail_length_le tail
      dsimp only at ran fourth
      split at ran
      · cases ran
      · obtain ⟨⟨prefixlen, prefixes, c'⟩, lengths, ran⟩ := bind_eq_ok_iff.mp ran
        have fifth := readPrefixes_length_le lengths
        dsimp only at ran fifth
        rw [List.length_drop] at fifth
        split at ran
        · cases ran
        · cases ran
          omega
  · have empty : input = [] := List.length_eq_zero_iff.mp (Nat.eq_zero_of_not_pos nonempty)
    subst empty
    cases ran

theorem parseAddrStep_progress (addrLen : UInt8) : Progress (parseAddrStep addrLen) := by
  intro s s' input rest ran
  rw [parseAddrStep] at ran
  obtain ⟨⟨addr, afterAddrs⟩, block, ran⟩ := bind_eq_ok_iff.mp ran
  obtain ⟨⟨tlvs, afterTlvs⟩, tlvblock, result⟩ := bind_eq_ok_iff.mp ran
  cases result
  exact Nat.lt_of_le_of_lt (parseTlvblock_length_le tlvblock) (parseAddrblock_progress block)

theorem handleMessage_progress {σ : Type} (consumers : Consumers σ) :
    Progress (handleMessage consumers) := by
  intro s s' input rest ran
  rw [handleMessage] at ran
  split at ran
  · cases ran
  · cases ran
  · rename_i parsed
    split at ran
    · cases ran
    · cases ran
      exact parseMessage_progress parsed

/-- The loop over the TLVs of a block never spends its fuel. -/
theorem parseTlvblock_enough {spent spent' : ParseStop} {stop fuel : Nat}
    {s : TlvblockEntry × List TlvblockEntry} {input : List UInt8} (more : input.length ≤ fuel) :
    consumeLoop parseTlvStep spent stop input.length s input =
      consumeLoop parseTlvStep spent' stop fuel s input :=
  consumeLoop_enough parseTlvStep_progress (Nat.le_refl _) more

/-- The loop over the address blocks of a message never spends its fuel. -/
theorem parseAddrs_enough {addrLen : UInt8} {spent spent' : ParseStop} {fuel : Nat}
    {addrs : List AddrblockEntry} {input : List UInt8} (more : input.length ≤ fuel) :
    consumeLoop (parseAddrStep addrLen) spent 0 input.length addrs input =
      consumeLoop (parseAddrStep addrLen) spent' 0 fuel addrs input :=
  consumeLoop_enough (parseAddrStep_progress addrLen) (Nat.le_refl _) more

/-- The loop over the messages of a packet never spends its fuel. -/
theorem handleMessages_enough {σ : Type} (consumers : Consumers σ) {spent spent' : PacketStop σ}
    {fuel : Nat} {s : σ} {input : List UInt8} (more : input.length ≤ fuel) :
    consumeLoop (handleMessage consumers) spent 0 input.length s input =
      consumeLoop (handleMessage consumers) spent' 0 fuel s input :=
  consumeLoop_enough (handleMessage_progress consumers) (Nat.le_refl _) more

/-! ### Faults -/

/-- An abnormal end. -/
def Abnormal (stop : ParseStop) : Prop := ∃ fault, stop = .fault fault

theorem not_abnormal_result (code : PbbResult) : ¬Abnormal (.result code) := by
  rintro ⟨_, contrary⟩
  cases contrary

/-- A parsing function ends abnormally. -/
def Faults {α : Type} (ran : Except ParseStop α) : Prop := ∃ stop, Abnormal stop ∧ ran = .error stop

@[simp] theorem faults_ok {α : Type} (a : α) : ¬Faults (.ok a) := by
  rintro ⟨_, _, ran⟩
  cases ran

@[simp] theorem faults_result {α : Type} (code : PbbResult) :
    ¬Faults (.error (.result code) : Except ParseStop α) := by
  rintro ⟨_, ⟨_, rfl⟩, ran⟩
  cases ran

@[simp] theorem faults_fault {α : Type} (fault : Fault) :
    Faults (.error (.fault fault) : Except ParseStop α) :=
  ⟨_, ⟨fault, rfl⟩, rfl⟩

theorem faults_error {α : Type} {stop : ParseStop} :
    Faults (.error stop : Except ParseStop α) ↔ Abnormal stop := by
  constructor
  · rintro ⟨_, isFault, ran⟩
    cases ran
    exact isFault
  · exact fun isFault => ⟨stop, isFault, rfl⟩

theorem faults_bind {α β : Type} {x : Except ParseStop α} {f : α → Except ParseStop β} :
    Faults (x >>= f) ↔ Faults x ∨ ∃ a, x = .ok a ∧ Faults (f a) := by
  cases x with
  | error stop =>
      constructor
      · rintro ⟨e, isFault, ran⟩
        cases ran
        exact .inl ⟨stop, isFault, rfl⟩
      · rintro (⟨e, isFault, ran⟩ | ⟨_, ran, _⟩)
        · cases ran
          exact ⟨stop, isFault, rfl⟩
        · cases ran
  | ok a =>
      constructor
      · exact fun faults => .inr ⟨a, rfl, faults⟩
      · rintro (faults | ⟨_, ran, faults⟩)
        · exact absurd faults (faults_ok a)
        · cases ran
          exact faults

theorem faults_bind_pure {α β : Type} {x : Except ParseStop α} {f : α → β} :
    Faults (x >>= fun a => pure (f a)) ↔ Faults x := by
  rw [faults_bind]
  refine or_iff_left ?_
  rintro ⟨a, _, faults⟩
  exact faults_ok _ faults

theorem exists_ok_iff {α : Type} {a : α} {P : α → Prop} :
    (∃ b, (.ok a : Except ParseStop α) = .ok b ∧ P b) ↔ P a := by
  constructor
  · rintro ⟨b, ran, holds⟩
    cases ran
    exact holds
  · exact fun holds => ⟨a, rfl, holds⟩

theorem not_exists_ok {α : Type} {stop : ParseStop} {P : α → Prop} :
    ¬∃ b, (.error stop : Except ParseStop α) = .ok b ∧ P b := by
  rintro ⟨b, ran, _⟩
  cases ran

/-- What the variable held before shows in the length only where the flags are bad. -/
theorem readLength_old (old old' : UInt16) (flags : UInt8) (c : Cursor) :
    (readLength old flags c).2 = (readLength old' flags c).2 ∧
      ((readLength old flags c).2.result = .okay → readLength old flags c = readLength old' flags c) := by
  rw [readLength, readLength]
  split
  · exact ⟨rfl, fun _ => rfl⟩
  · exact ⟨rfl, fun _ => rfl⟩
  · exact ⟨rfl, fun _ => rfl⟩
  · exact ⟨rfl, fun okay => by cases okay⟩

/-- The TLV at an input has a nonempty value that is to be split among all 256 indexes. -/
def tlvTraps (input : List UInt8) : Prop :=
  let (_, c) := pbbGetU8 ⟨input, .okay⟩
  let (flags, c) := pbbGetU8 c
  let (_, c) := readTypeExt flags c
  let (index1, index2, c) := readIndex flags c
  let (length, c) := readLength 0 flags c
  hasFlag flags 0x04 = true ∧ valueCount index1 index2 = 0 ∧ length ≠ 0 ∧
    length.toNat ≤ c.rest.length ∧ c.result = .okay

theorem parseTlv_faults {entry : TlvblockEntry} {input : List UInt8} :
    Faults (parseTlv entry input) ↔ tlvTraps input := by
  unfold parseTlv tlvTraps
  dsimp only
  generalize readTypeExt _ _ = ext
  generalize readIndex _ _ = range
  generalize (pbbGetU8 (pbbGetU8 ⟨input, .okay⟩).2).1 = flags
  obtain ⟨sameCursor, sameLength⟩ := readLength_old entry.length 0 flags range.2.2
  by_cases stopped : (readLength entry.length flags range.2.2).2.result = .okay
  · have same := sameLength stopped
    rw [same] at stopped ⊢
    generalize readLength 0 flags range.2.2 = len at stopped ⊢
    by_cases short : len.2.rest.length < len.1.toNat
    · rw [if_pos short]
      refine iff_of_false (faults_result _) ?_
      rintro ⟨_, _, _, inside, _⟩
      exact Nat.not_lt.mpr inside short
    · rw [if_neg short, if_neg (not_not_intro stopped)]
      by_cases empty : len.1 = 0
      · rw [if_pos empty]
        refine iff_of_false (faults_ok _) ?_
        rintro ⟨_, _, nonempty, _, _⟩
        exact nonempty empty
      · rw [if_neg empty]
        by_cases single : (!hasFlag flags 0x04 || valueCount range.1 range.2.1 == 1) = true
        · rw [if_pos single]
          refine iff_of_false (faults_ok _) ?_
          rintro ⟨multivalue, all, _⟩
          rw [multivalue, all] at single
          cases single
        · rw [if_neg single]
          have multivalue : hasFlag flags 0x04 = true := by
            simp only [Bool.or_eq_true, not_or, Bool.not_eq_true', Bool.not_eq_false] at single
            exact single.1
          by_cases all : valueCount range.1 range.2.1 = 0
          · rw [if_pos all]
            exact iff_of_true (faults_fault _)
              ⟨multivalue, all, empty, Nat.not_lt.mp short, stopped⟩
          · rw [if_neg all]
            refine iff_of_false ?_ fun trap => all trap.2.1
            split
            · exact faults_result _
            · exact faults_ok _
  · -- The result variable is not looked at before the length, but either way an error is returned.
    have noTrap : ¬(readLength 0 flags range.2.2).2.result = .okay := sameCursor ▸ stopped
    refine iff_of_false ?_ fun trap => noTrap trap.2.2.2.2
    rw [if_pos stopped]
    split
    · exact faults_result _
    · exact faults_result _

theorem parseTlvStep_faults {s : TlvblockEntry × List TlvblockEntry} {input : List UInt8} :
    Faults (parseTlvStep s input) ↔ tlvTraps input := by
  rw [← @parseTlv_faults s.1, parseTlvStep]
  cases parseTlv s.1 input with
  | error stop => exact faults_error.trans faults_error.symm
  | ok next => exact iff_of_false (faults_ok _) (faults_ok _)

/-- The head of the addresses of a block does not fit the address buffer. -/
def headOverruns (flags : UInt8) (c : Cursor) : Prop :=
  hasFlag flags 0x80 = true ∧ (pbbGetU8 c).1.toNat ≤ (pbbGetU8 c).2.rest.length ∧
    pbbMaxAddrlen < (pbbGetU8 c).1.toNat

theorem readHead_faults {flags addrLen : UInt8} {c : Cursor} :
    Faults (readHead flags addrLen c) ↔ headOverruns flags c := by
  unfold readHead headOverruns
  dsimp only
  by_cases hasHead : hasFlag flags 0x80 = true
  · rw [if_pos hasHead]
    by_cases short : (pbbGetU8 c).2.rest.length < (pbbGetU8 c).1.toNat
    · rw [if_pos short]
      exact iff_of_false (faults_result _) fun trap => Nat.not_lt.mpr trap.2.1 short
    · rw [if_neg short]
      have inside := Nat.not_lt.mp short
      have size : ((pbbGetU8 c).2.rest.take (pbbGetU8 c).1.toNat).length = (pbbGetU8 c).1.toNat := by
        rw [List.length_take, Nat.min_eq_left inside]
      cases written : Buffer.write (List.Vector.replicate pbbMaxAddrlen (0 : UInt8)) 0
          ((pbbGetU8 c).2.rest.take (pbbGetU8 c).1.toNat) with
      | none =>
          have overrun := Buffer.write_eq_none_iff.mp written
          rw [size, Nat.zero_add] at overrun
          exact iff_of_true (faults_fault _) ⟨hasHead, inside, overrun⟩
      | some addr =>
          have fits := Buffer.fits_of_write written
          rw [size, Nat.zero_add] at fits
          exact iff_of_false (faults_ok _) fun trap => Nat.not_lt.mpr fits trap.2.2
  · rw [if_neg hasHead]
    exact iff_of_false (faults_ok _) fun trap => hasHead trap.1

/-- The tail of the addresses of a block is longer than an address. -/
def tailOverruns (flags addrLen : UInt8) (c : Cursor) : Prop :=
  hasFlag flags 0x40 = true ∧ hasFlag flags 0x20 = false ∧
    (pbbGetU8 c).1.toNat ≤ (pbbGetU8 c).2.rest.length ∧ addrLen < (pbbGetU8 c).1

theorem readTail_faults {flags addrLen midLen : UInt8} {addr : List.Vector UInt8 pbbMaxAddrlen}
    {c : Cursor} (bounded : addrLen.toNat ≤ pbbMaxAddrlen) :
    Faults (readTail flags addrLen midLen addr c) ↔ tailOverruns flags addrLen c := by
  unfold readTail tailOverruns
  dsimp only
  cases hasTail : hasFlag flags 0x40 with
  | false =>
      refine iff_of_false ?_ fun trap => absurd trap.1 Bool.false_ne_true
      split
      · exact faults_ok _
      · exact faults_ok _
      · rename_i contrary _
        cases contrary
      · rename_i contrary _
        cases contrary
  | true =>
      cases zeroTail : hasFlag flags 0x20 with
      | true => exact iff_of_false (faults_result _) fun trap => absurd trap.2.1.symm Bool.false_ne_true
      | false =>
          dsimp only
          by_cases short : (pbbGetU8 c).2.rest.length < (pbbGetU8 c).1.toNat
          · rw [if_pos short]
            exact iff_of_false (faults_result _) fun trap => Nat.not_lt.mpr trap.2.2.1 short
          · rw [if_neg short]
            by_cases longer : addrLen < (pbbGetU8 c).1
            · rw [if_pos longer]
              exact iff_of_true (faults_fault _) ⟨rfl, rfl, Nat.not_lt.mp short, longer⟩
            · rw [if_neg longer]
              have inside : (pbbGetU8 c).1.toNat ≤ addrLen.toNat :=
                Nat.not_lt.mp fun wider => longer (UInt8.lt_iff_toNat_lt.mpr wider)
              obtain ⟨addr', written⟩ := @Buffer.exists_write _ _ addr
                ((pbbGetU8 c).2.rest.take (pbbGetU8 c).1.toNat)
                (addrLen.toNat - (pbbGetU8 c).1.toNat) (by
                  rw [List.length_take]
                  omega)
              rw [written]
              exact iff_of_false (faults_ok _) fun trap => longer trap.2.2.2

theorem readPrefixes_faults {flags numAddr addrLen : UInt8} {c : Cursor} :
    ¬Faults (readPrefixes flags numAddr addrLen c) := by
  unfold readPrefixes
  split
  · exact faults_ok _
  · split
    · exact faults_result _
    · exact faults_ok _
  · split
    · exact faults_result _
    · exact faults_ok _
  · exact faults_result _

/-- The address block at an input has a head or a tail that does not fit its addresses. -/
def addrblockOverruns (addrLen : UInt8) (input : List UInt8) : Prop :=
  let (numAddr, c) := pbbGetU8 ⟨input, .okay⟩
  let (flags, c) := pbbGetU8 c
  numAddr ≠ 0 ∧ (headOverruns flags c ∨
    ∃ head, readHead flags addrLen c = .ok head ∧ tailOverruns flags addrLen head.2.2.2)

theorem parseAddrblock_faults {addrLen : UInt8} {input : List UInt8}
    (bounded : addrLen.toNat ≤ pbbMaxAddrlen) :
    Faults (parseAddrblock addrLen input) ↔ addrblockOverruns addrLen input := by
  unfold parseAddrblock addrblockOverruns
  dsimp only
  by_cases none_ : (pbbGetU8 ⟨input, .okay⟩).1 = 0
  · rw [if_pos none_]
    exact iff_of_false (faults_result _) fun trap => trap.1 none_
  · rw [if_neg none_, faults_bind, readHead_faults]
    refine (or_congr_right (exists_congr fun head => and_congr_right fun _ => ?_)).trans
      (and_iff_right none_).symm
    rw [faults_bind, readTail_faults bounded]
    refine or_iff_left ?_
    rintro ⟨tail, _, faults⟩
    split at faults
    · exact faults_result _ faults
    · rw [faults_bind] at faults
      rcases faults with lengths | ⟨prefixes, _, faults⟩
      · exact readPrefixes_faults lengths
      · split at faults
        · exact faults_result _ faults
        · exact faults_ok _ faults

/-! ### What the parser reads -/

/-- A TLV or an address block, by the bytes from its start on. -/
inductive Element where
  | tlv (input : List UInt8)
  | addrblock (addrLen : UInt8) (input : List UInt8)

/-- An element that takes the parser down. -/
def Element.Traps : Element → Prop
  | .tlv input => tlvTraps input
  | .addrblock addrLen input => addrblockOverruns addrLen input

/-- One of some elements takes the parser down. -/
def AnyTraps (elements : List Element) : Prop := ∃ e ∈ elements, e.Traps

@[simp] theorem anyTraps_nil : ¬AnyTraps [] := by
  rintro ⟨_, member, _⟩
  cases member

@[simp] theorem anyTraps_cons {e : Element} {elements : List Element} :
    AnyTraps (e :: elements) ↔ e.Traps ∨ AnyTraps elements := by
  constructor
  · rintro ⟨_, member, trap⟩
    rcases List.mem_cons.mp member with rfl | later
    · exact .inl trap
    · exact .inr ⟨_, later, trap⟩
  · rintro (trap | ⟨_, later, trap⟩)
    · exact ⟨e, List.mem_cons_self .., trap⟩
    · exact ⟨_, List.mem_cons_of_mem _ later, trap⟩

@[simp] theorem anyTraps_append {as bs : List Element} :
    AnyTraps (as ++ bs) ↔ AnyTraps as ∨ AnyTraps bs := by
  induction as with
  | nil => simp
  | cons a as ih => rw [List.cons_append, anyTraps_cons, anyTraps_cons, ih, or_assoc]

theorem anyTraps_flatMap {elements : List UInt8 → List Element} {inputs : List (List UInt8)} :
    AnyTraps (inputs.flatMap elements) ↔ ∃ input ∈ inputs, AnyTraps (elements input) := by
  induction inputs with
  | nil => simp
  | cons input inputs ih => rw [List.flatMap_cons, anyTraps_append, ih, List.exists_mem_cons_iff]

/-- The TLVs of a TLV block. -/
def tlvblockElements (input : List UInt8) : List Element :=
  let (length, c) := pbbGetU16 ⟨input, .okay⟩
  if c.rest.length < length.toNat then []
  else if c.result ≠ .okay then []
  else
    (visited parseTlvStep (c.rest.length - length.toNat) c.rest.length (clearedEntry, [])
      c.rest).flatMap fun input => [.tlv input]

theorem parseTlvblock_faults {input : List UInt8} :
    Faults (parseTlvblock input) ↔ AnyTraps (tlvblockElements input) := by
  unfold parseTlvblock tlvblockElements
  dsimp only
  generalize pbbGetU16 _ = header
  by_cases short : header.2.rest.length < header.1.toNat
  · rw [if_pos short, if_pos short]
    exact iff_of_false (faults_result _) anyTraps_nil
  · rw [if_neg short, if_neg short]
    by_cases stopped : header.2.result = .okay
    · rw [if_neg (not_not_intro stopped), if_neg (not_not_intro stopped)]
      have loop := @consumeLoop_bad_iff _ _ _ parseTlvStep (.result .endOfBuffer)
        (header.2.rest.length - header.1.toNat) Abnormal tlvTraps (not_abnormal_result _)
        (fun s input => @parseTlvStep_faults s input)
        header.2.rest.length (clearedEntry, []) header.2.rest
      have single : ∀ input, AnyTraps [.tlv input] ↔ tlvTraps input := fun input => by
        rw [anyTraps_cons, or_iff_left anyTraps_nil]
        rfl
      rw [anyTraps_flatMap, exists_congr fun input => and_congr_right fun _ => single input, ← loop]
      cases consumeLoop parseTlvStep (.result .endOfBuffer)
          (header.2.rest.length - header.1.toNat) header.2.rest.length (clearedEntry, [])
          header.2.rest with
      | error stop => exact faults_error.trans faults_error.symm
      | ok next => exact iff_of_false (faults_ok _) (faults_ok _)
    · rw [if_pos stopped, if_pos stopped]
      exact iff_of_false (faults_result _) anyTraps_nil

/-- The elements of one round of the address loop: an address block and the TLVs behind it. -/
def addrStepElements (addrLen : UInt8) (input : List UInt8) : List Element :=
  .addrblock addrLen input ::
    match parseAddrblock addrLen input with
    | .error _ => []
    | .ok (_, rest) => tlvblockElements rest

theorem parseAddrStep_faults {addrLen : UInt8} (bounded : addrLen.toNat ≤ pbbMaxAddrlen)
    {addrs : List AddrblockEntry} {input : List UInt8} :
    Faults (parseAddrStep addrLen addrs input) ↔ AnyTraps (addrStepElements addrLen input) := by
  rw [parseAddrStep, faults_bind, parseAddrblock_faults bounded, addrStepElements, anyTraps_cons]
  refine or_congr_right ?_
  cases parseAddrblock addrLen input with
  | error stop => exact iff_of_false not_exists_ok anyTraps_nil
  | ok next =>
      rw [exists_ok_iff, ← parseTlvblock_faults]
      exact faults_bind_pure

/-- The address loop. -/
theorem parseAddrs_faults {addrLen : UInt8} (bounded : addrLen.toNat ≤ pbbMaxAddrlen)
    {input : List UInt8} :
    Faults (consumeLoop (parseAddrStep addrLen) (.result .endOfBuffer) 0 input.length [] input) ↔
      AnyTraps ((visited (parseAddrStep addrLen) 0 input.length [] input).flatMap
        (addrStepElements addrLen)) := by
  rw [anyTraps_flatMap]
  exact consumeLoop_bad_iff (not_abnormal_result _) fun addrs rest =>
    @parseAddrStep_faults addrLen bounded addrs rest

/-- The header of a message: the address length it sets, and the bytes behind it. -/
def messageBody (start : List UInt8) : Except ParseStop (UInt8 × List UInt8) := do
  let (_, c) := pbbGetU8 ⟨start, .okay⟩
  let (flags, c) := pbbGetU8 c
  let (size, c) := pbbGetU16 c
  let addrLen := (flags &&& 0x0f) + 1
  let (_, c) ← readOrigAddr flags addrLen c
  let (_, c) := readOptional (hasFlag flags 0x40) pbbGetU8 c
  let (_, c) := readOptional (hasFlag flags 0x20) pbbGetU8 c
  let (_, c) := readOptional (hasFlag flags 0x10) pbbGetU16 c
  if start.length < size.toNat then .error (.result .endOfBuffer)
  else if c.result ≠ .okay then .error (.result c.result)
  else return (addrLen, (start.take size.toNat).drop (start.length - c.rest.length))

/-- The elements of a message. -/
def messageElements (start : List UInt8) : List Element :=
  match messageBody start with
  | .error _ => []
  | .ok (addrLen, body) =>
      tlvblockElements body ++
        match parseTlvblock body with
        | .error _ => []
        | .ok (_, rest) =>
            (visited (parseAddrStep addrLen) 0 rest.length [] rest).flatMap (addrStepElements addrLen)

theorem messageAddrLen_le (flags : UInt8) : ((flags &&& 0x0f) + 1).toNat ≤ pbbMaxAddrlen := by
  have masked : (flags &&& 0x0f).toNat ≤ 15 := by
    rw [UInt8.toNat_and]
    exact Nat.and_le_right
  rw [UInt8.toNat_add]
  unfold pbbMaxAddrlen
  have one : (1 : UInt8).toNat = 1 := rfl
  omega

theorem readOrigAddr_faults {flags addrLen : UInt8} {c : Cursor} :
    ¬Faults (readOrigAddr flags addrLen c) := by
  unfold readOrigAddr
  split
  · split
    · exact faults_result _
    · exact faults_ok _
  · exact faults_ok _

theorem parseMessage_faults {start : List UInt8} :
    Faults (parseMessage start) ↔ AnyTraps (messageElements start) := by
  unfold parseMessage messageElements messageBody
  dsimp only
  rw [faults_bind, or_iff_right readOrigAddr_faults]
  cases readOrigAddr _ _ _ with
  | error stop => exact iff_of_false not_exists_ok anyTraps_nil
  | ok orig =>
      rw [exists_ok_iff, ok_bind]
      generalize (readOptional _ pbbGetU16 _).2 = c
      generalize pbbGetU16 _ = size
      by_cases short : start.length < size.1.toNat
      · rw [if_pos short, if_pos short]
        exact iff_of_false (faults_result _) anyTraps_nil
      · rw [if_neg short, if_neg short]
        by_cases stopped : c.result = .okay
        · rw [if_neg (not_not_intro stopped), if_neg (not_not_intro stopped), faults_bind,
            parseTlvblock_faults]
          show _ ↔ AnyTraps (_ ++ _)
          rw [anyTraps_append]
          refine or_congr_right ?_
          cases parseTlvblock _ with
          | error stop => exact iff_of_false not_exists_ok anyTraps_nil
          | ok tlvs =>
              rw [exists_ok_iff, faults_bind_pure]
              exact parseAddrs_faults (messageAddrLen_le _)
        · rw [if_pos stopped, if_pos stopped]
          exact iff_of_false (faults_result _) anyTraps_nil

/-- The TLVs of the packet header. -/
def packetTlvs (buffer : List UInt8) : List Element :=
  let (firstByte, c) := pbbGetU8 ⟨buffer, .okay⟩
  let c := if hasFlag firstByte 0x08 then (pbbGetU16 c).2 else c
  if firstByte >>> 4 ≠ 0 then []
  else if c.result ≠ .okay then []
  else if hasFlag firstByte 0x04 then tlvblockElements c.rest
  else []

theorem packetMessages_faults {buffer : List UInt8} :
    Faults (packetMessages buffer) ↔ AnyTraps (packetTlvs buffer) := by
  unfold packetMessages packetTlvs
  dsimp only
  generalize pbbGetU8 _ = first
  generalize (if hasFlag first.1 0x08 then (pbbGetU16 first.2).2 else first.2) = c
  by_cases version : first.1 >>> 4 = 0
  · rw [if_neg (not_not_intro version), if_neg (not_not_intro version)]
    by_cases stopped : c.result = .okay
    · rw [if_neg (not_not_intro stopped), if_neg (not_not_intro stopped)]
      split
      · rw [← parseTlvblock_faults]
        cases parseTlvblock c.rest with
        | error stop => exact faults_error.trans faults_error.symm
        | ok tlvs => exact iff_of_false (faults_ok _) (faults_ok _)
      · exact iff_of_false (faults_ok _) anyTraps_nil
    · rw [if_pos stopped, if_pos stopped]
      exact iff_of_false (faults_result _) anyTraps_nil
  · rw [if_pos version, if_pos version]
    exact iff_of_false (faults_result _) anyTraps_nil

/-- The elements of the messages that the parser starts on. -/
def scanElements : Nat → List UInt8 → List Element
  | 0, _ => []
  | fuel + 1, input =>
      if input.length ≤ 0 then []
      else
        messageElements input ++
          match parseMessage input with
          | .error _ => []
          | .ok (_, rest) => scanElements fuel rest

theorem scanMessages_faults : ∀ {fuel : Nat} {input : List UInt8},
    (∃ fault, (scanMessages fuel input).2 = some (.fault fault)) ↔ AnyTraps (scanElements fuel input)
  | 0, input => by
      refine iff_of_false ?_ anyTraps_nil
      rintro ⟨_, contrary⟩
      cases contrary
  | fuel + 1, input => by
      rw [scanMessages, scanElements]
      by_cases short : input.length ≤ 0
      · rw [if_pos short, if_pos short]
        refine iff_of_false ?_ anyTraps_nil
        rintro ⟨_, contrary⟩
        cases contrary
      · rw [if_neg short, if_neg short, anyTraps_append, ← parseMessage_faults]
        cases parseMessage input with
        | error stop =>
            rw [faults_error, or_iff_left anyTraps_nil]
            exact exists_congr fun fault => Option.some_inj
        | ok next =>
            rw [or_iff_right (faults_ok _)]
            exact scanMessages_faults

/-- Everything that the parser reads of a datagram, in order. -/
def packetElements (buffer : List UInt8) : List Element :=
  packetTlvs buffer ++
    match packetMessages buffer with
    | .error _ => []
    | .ok messages => scanElements messages.length messages

/-- Parsing ends abnormally exactly when an element that the parser reads traps. -/
theorem scanPacket_faults {buffer : List UInt8} :
    (∃ fault, (scanPacket buffer).2 = some (.fault fault)) ↔ AnyTraps (packetElements buffer) := by
  rw [scanPacket, packetElements, anyTraps_append, ← packetMessages_faults]
  cases packetMessages buffer with
  | error stop =>
      rw [faults_error, or_iff_left anyTraps_nil]
      exact exists_congr fun fault => Option.some_inj
  | ok messages =>
      rw [or_iff_right (faults_ok _)]
      exact scanMessages_faults

end Bprd
