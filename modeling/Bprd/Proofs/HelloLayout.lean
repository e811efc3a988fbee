/-
Module: Bprd.Proofs.HelloLayout
Layer: Proofs
Purpose: The bytes of one hello round. The TLVs that fit behind the header are copied in order and the
  others are dropped without a word; no address ever starts a second fragment; and the message goes into
  one datagram, or one of the two buffers overflows.
Imports: Bprd.Model.HelloWriter, Bprd.Lib.Fallible, Bprd.Proofs.HelloMessage
Trusted boundary: none
Main exports: Idle, keptCount, addressHead, helloSize, helloBytes, helloCycle_fits, helloCycle_overrun,
  helloSend_ok, helloCycle_sent, helloCycle_ok
-/
import Bprd.Model.HelloWriter
import Bprd.Lib.Fallible
import Bprd.Proofs.HelloMessage

namespace Bprd

open Fallible (bind_eq_ok_iff)

/-- A writer between two rounds: everything written has been flushed. -/
structure Idle (w : PbbWriter) : Prop where
  flushed : w.isFlushed = true
  empty : w.binMsgsSize = 0

theorem idle_helloWriterInit : Idle helloWriterInit := ⟨rfl, rfl⟩

theorem copyInto_ok {size : Nat} {buffer : List.Vector UInt8 size} {offset : Nat}
    {source : List UInt8} (fits : offset + source.length ≤ size) :
    ∃ buffer', copyInto buffer offset source = .ok buffer' ∧
      Buffer.write buffer offset source = some buffer' := by
  obtain ⟨buffer', written⟩ := @Buffer.exists_write _ _ buffer source offset fits
  exact ⟨buffer', by rw [copyInto, written], written⟩

theorem copyInto_overrun {size : Nat} {buffer : List.Vector UInt8 size} {offset : Nat}
    {source : List UInt8} (overrun : size < offset + source.length) :
    copyInto buffer offset source = .error .outOfBounds := by
  rw [copyInto, Buffer.write_eq_none_iff.mpr overrun]

/-! ### TLVs -/

/-- The size of a commodity TLV. -/
def comTlvSize : Nat := 27

theorem tlvBytes_length {value : List UInt8} (size : value.length = sizeofCommodityS) :
    (tlvBytes bprdMsgtlvTypeCom 0 value).length = comTlvSize := by
  simp [tlvBytes, size, sizeofCommodityS, comTlvSize]

theorem tlvWriterAdd_commodity {value : List UInt8} (size : value.length = sizeofCommodityS)
    (w : PbbWriter) :
    tlvWriterAdd w (bprdMsgtlvTypeCom, 0, value) =
      if w.header + w.added + comTlvSize > w.max then .ok w
      else
        match copyInto w.buffer (w.header + w.added) (tlvBytes bprdMsgtlvTypeCom 0 value) with
        | .error fault => .error fault
        | .ok buffer => .ok { w with buffer := buffer, added := w.added + comTlvSize } := by
  have bytes : calcTlvSize ((0 : UInt8) != 0) value.length = comTlvSize := by
    rw [size]
    rfl
  rw [← bytes]
  rfl

/-- How many of `count` commodity TLVs fit into `room` bytes. -/
def fitting (count room : Nat) : Nat := min count (room / comTlvSize)

/-- The TLVs that fit are written one behind the other; the rest is dropped. -/
theorem tlvWriterAddAll_commodities : ∀ {values : List (List UInt8)} {w : PbbWriter},
    (∀ value ∈ values, value.length = sizeofCommodityS) → w.max ≤ mtu →
      ∃ buffer, tlvWriterAddAll (values.map fun value => (bprdMsgtlvTypeCom, 0, value)) w =
          .ok { w with
            buffer := buffer
            added := w.added + comTlvSize * fitting values.length (w.max - (w.header + w.added)) } ∧
        buffer.toList.take
            (w.header + w.added +
              comTlvSize * fitting values.length (w.max - (w.header + w.added))) =
          w.buffer.toList.take (w.header + w.added) ++
            (values.take (fitting values.length (w.max - (w.header + w.added)))).flatMap
              (tlvBytes bprdMsgtlvTypeCom 0)
  | [], w, _, _ => by
      have nothing : ∀ room, fitting ([] : List (List UInt8)).length room = 0 :=
        fun room => Nat.zero_min _
      refine ⟨w.buffer, ?_, ?_⟩
      · rw [nothing]
        rfl
      · rw [nothing]
        simp
  | value :: values, w, sizes, within => by
      have size := sizes value (List.mem_cons_self ..)
      have sizes' : ∀ v ∈ values, v.length = sizeofCommodityS :=
        fun v member => sizes v (List.mem_cons_of_mem _ member)
      rw [List.map_cons, tlvWriterAddAll, tlvWriterAdd_commodity size]
      by_cases full : w.header + w.added + comTlvSize > w.max
      · -- Nothing fits any more, now or later.
        have none_ : ∀ count, fitting count (w.max - (w.header + w.added)) = 0 := by
          intro count
          have short : w.max - (w.header + w.added) < comTlvSize := by
            unfold comTlvSize at *
            omega
          rw [fitting, Nat.div_eq_of_lt short, Nat.min_zero]
        obtain ⟨buffer, ran, written⟩ := @tlvWriterAddAll_commodities values w sizes' within
        rw [if_pos full]
        simp only [none_] at ran written ⊢
        exact ⟨buffer, ran, written⟩
      · obtain ⟨buffer₁, copied, written₁⟩ := @copyInto_ok _ w.buffer (w.header + w.added)
          (tlvBytes bprdMsgtlvTypeCom 0 value) (by
            rw [tlvBytes_length size]
            omega)
        rw [if_neg full, copied]
        dsimp only
        have count : fitting (value :: values).length (w.max - (w.header + w.added)) =
            1 + fitting values.length (w.max - (w.header + (w.added + comTlvSize))) := by
          have split : w.max - (w.header + w.added) =
              (w.max - (w.header + (w.added + comTlvSize))) + comTlvSize := by
            omega
          rw [fitting, fitting, split, Nat.add_div_right _ (by decide), List.length_cons]
          omega
        obtain ⟨buffer, ran, written⟩ := @tlvWriterAddAll_commodities values
          { w with buffer := buffer₁, added := w.added + comTlvSize } sizes' within
        dsimp only at ran written
        have front := Buffer.take_write_append written₁
        rw [tlvBytes_length size] at front
        generalize fitting values.length (w.max - (w.header + (w.added + comTlvSize))) = k
          at ran written count
        have total : w.added + comTlvSize * (1 + k) = w.added + comTlvSize + comTlvSize * k := by
          rw [Nat.mul_add, Nat.mul_one, Nat.add_assoc]
        refine ⟨buffer, by rw [ran, count, total], ?_⟩
        rw [count, Nat.add_assoc w.header, total, ← Nat.add_assoc w.header, written,
          ← Nat.add_assoc w.header, front, Nat.add_comm 1 k, List.take_succ_cons, List.flatMap_cons,
          List.append_assoc]

/-! ### Addresses -/

section Loop

variable {σ : Type} {creator : MessageCreator σ} {sendPacket : List UInt8 → Except Fault Unit}

/-- Without address compression no address is refused: all of them go into one fragment. -/
theorem addressLoop_eq {origAddr : List UInt8} {max : Nat} (roomy : creator.addrLen + 3 ≤ max) :
    ∀ {rest : List WriterAddress} {acs : CompressSession} {fragment : List WriterAddress}
      {s : Written × σ}, acs.lastTotal = 0 →
        addressLoop creator sendPacket origAddr max rest acs fragment s =
          finalizeMessageFragment creator sendPacket origAddr (fragment ++ rest) s
  | [], acs, fragment, s, _ => by
      rw [addressLoop, List.append_nil]
  | addr :: rest, acs, fragment, s, zero => by
      have session : (sessionFor fragment acs).lastTotal = 0 := by
        unfold sessionFor
        split
        · rfl
        · exact zero
      have small : (compressAddress creator.addrLen addr (sessionFor fragment acs)).total +
          (compressAddress creator.addrLen addr (sessionFor fragment acs)).current < max + 1 := by
        simp only [compressAddress, session]
        split
        · omega
        · omega
      rw [addressLoop]
      simp only [small, if_true]
      rw [addressLoop_eq roomy (by exact session), List.append_assoc]
      rfl

/-- The message that a fragment becomes. -/
def fragmentBytes (creator : MessageCreator σ) (origAddr : List UInt8) (seqno : UInt16) (added : Nat)
    (tlvs : List UInt8) (fragment : List WriterAddress) : List UInt8 :=
  messageHeader creator origAddr seqno
      (headerSize creator + added + (fragment.flatMap (addressBlock creator.addrLen)).length) added ++
    tlvs ++ fragment.flatMap (addressBlock creator.addrLen)

theorem messageHeader_length {origAddr : List UInt8} (enough : creator.addrLen ≤ origAddr.length)
    (seqno : UInt16) (size added : Nat) :
    (messageHeader creator origAddr seqno size added).length = headerSize creator := by
  have orig : (origAddr.take creator.addrLen).length = creator.addrLen := by
    rw [List.length_take]
    omega
  unfold messageHeader headerSize u16Bytes
  cases creator.hasOrigaddr <;> cases creator.hasSeqno <;> simp [orig]
  · omega
  · omega

variable {w : PbbWriter} {origAddr : List UInt8} {fragment : List WriterAddress} {state : σ}
  {datagrams : List (List UInt8)} {front tlvs : List UInt8}

/-- A message that fits behind the packet header is put there. -/
theorem finalizeMessageFragment_fits (enough : creator.addrLen ≤ origAddr.length)
    (header : w.header = headerSize creator) (packet : w.pktHeader = 3 ∧ w.pktMax = mtu)
    (empty : w.binMsgsSize = 0) (frontSize : front.length = w.header)
    (written : w.buffer.toList.take (w.header + w.added) = front ++ tlvs)
    (fits : w.header + w.added + (fragment.flatMap (addressBlock creator.addrLen)).length ≤ mtu - 3) :
    ∃ buffer pktBuffer, finalizeMessageFragment creator sendPacket origAddr fragment (⟨w, datagrams⟩, state) =
        .ok (⟨{ w with
            buffer := buffer, pktBuffer := pktBuffer
            binMsgsSize := w.header + w.added +
              (fragment.flatMap (addressBlock creator.addrLen)).length }, datagrams⟩,
          (creator.finishMessageHeader state).2) ∧
      (pktBuffer.toList.drop 3).take
          (w.header + w.added + (fragment.flatMap (addressBlock creator.addrLen)).length) =
        fragmentBytes creator origAddr (creator.finishMessageHeader state).1 w.added tlvs fragment := by
  generalize blocksEq : fragment.flatMap (addressBlock creator.addrLen) = blocks at fits ⊢
  have inside : w.header + w.added + blocks.length ≤ mtu := by
    unfold mtu at fits ⊢
    omega
  obtain ⟨buffer₁, copied₁, written₁⟩ := @copyInto_ok _ w.buffer (w.header + w.added) blocks inside
  generalize headEq : messageHeader creator origAddr (creator.finishMessageHeader state).1
    (w.header + w.added + blocks.length) w.added = head
  have headSize : head.length = w.header := by
    rw [← headEq, messageHeader_length enough, header]
  obtain ⟨buffer₂, copied₂, written₂⟩ := @copyInto_ok _ buffer₁ 0 head (by
    rw [headSize]
    omega)
  -- The message in the buffer: the header over the front, then the TLVs and the blocks.
  have message : buffer₂.toList.take (w.header + w.added + blocks.length) = head ++ tlvs ++ blocks := by
    have body : buffer₁.toList.take (w.header + w.added + blocks.length) = front ++ tlvs ++ blocks := by
      rw [Buffer.take_write_append written₁, written]
    rw [List.append_assoc] at body ⊢
    exact Buffer.take_write_front written₂ (frontSize.trans headSize.symm) (by omega) body
  have messageSize : (buffer₂.toList.take (w.header + w.added + blocks.length)).length =
      w.header + w.added + blocks.length := by
    rw [List.length_take, List.Vector.toList_length, Nat.min_eq_left inside]
  obtain ⟨pktBuffer, copied₃, written₃⟩ := @copyInto_ok _ w.pktBuffer 3
    (buffer₂.toList.take (w.header + w.added + blocks.length)) (by
      rw [messageSize]
      unfold mtu at fits ⊢
      omega)
  have noFlush : ¬w.pktHeader + w.binMsgsSize + (w.header + w.added + blocks.length) > w.pktMax := by
    rw [packet.1, packet.2, empty]
    unfold mtu at fits ⊢
    omega
  refine ⟨buffer₂, pktBuffer, ?_, ?_⟩
  · unfold finalizeMessageFragment
    dsimp only
    rw [blocksEq, headEq]
    refine bind_eq_ok_iff.mpr ⟨buffer₁, copied₁, ?_⟩
    refine bind_eq_ok_iff.mpr ⟨buffer₂, copied₂, ?_⟩
    refine bind_eq_ok_iff.mpr ⟨_, if_neg noFlush, ?_⟩
    refine bind_eq_ok_iff.mpr ⟨pktBuffer, ?_, ?_⟩
    · dsimp only
      rw [packet.1, empty]
      exact copied₃
    · dsimp only
      rw [empty, Nat.zero_add]
      rfl
  · have slice := Buffer.slice_write written₃
    rw [messageSize] at slice
    rw [slice, message, fragmentBytes, blocksEq, ← header, headEq]

/-- A message that does not fit overruns the message buffer or the packet buffer, if the packet before it
    can be sent at all. -/
theorem finalizeMessageFragment_overrun (enough : creator.addrLen ≤ origAddr.length)
    (header : w.header = headerSize creator) (packet : w.pktHeader = 3 ∧ w.pktMax = mtu)
    (empty : w.binMsgsSize = 0) (pending : w.isFlushed = false)
    (overrun : mtu - 3 <
      w.header + w.added + (fragment.flatMap (addressBlock creator.addrLen)).length) :
    ∃ fault, finalizeMessageFragment creator sendPacket origAddr fragment (⟨w, datagrams⟩, state) =
      .error fault := by
  generalize blocksEq : fragment.flatMap (addressBlock creator.addrLen) = blocks at overrun
  unfold finalizeMessageFragment
  dsimp only
  rw [blocksEq]
  by_cases inside : w.header + w.added + blocks.length ≤ mtu
  · obtain ⟨buffer₁, copied₁, _⟩ := @copyInto_ok _ w.buffer (w.header + w.added) blocks inside
    obtain ⟨buffer₂, copied₂, _⟩ := @copyInto_ok _ buffer₁ 0
      (messageHeader creator origAddr (creator.finishMessageHeader state).1
        (w.header + w.added + blocks.length) w.added) (by
          rw [messageHeader_length enough, ← header]
          omega)
    -- The empty packet is flushed, and the message still does not fit behind a new packet header.
    obtain ⟨pkt₁, flushed₁, _⟩ := @copyInto_ok _ w.pktBuffer 0 [0] (by decide)
    obtain ⟨pkt₂, flushed₂, _⟩ := @copyInto_ok _ pkt₁ 1 [] (by decide)
    have full : w.pktHeader + w.binMsgsSize + (w.header + w.added + blocks.length) > w.pktMax := by
      rw [packet.1, packet.2, empty]
      unfold mtu at overrun ⊢
      omega
    have flushes : pbbWriterFlush sendPacket ⟨{ w with buffer := buffer₂ }, datagrams⟩ =
        sendPacket (pkt₂.toList.take 1) >>= fun _ =>
          .ok ⟨{ w with buffer := buffer₂, pktBuffer := pkt₂, binMsgsSize := 0, isFlushed := true },
            datagrams ++ [pkt₂.toList.take 1]⟩ := by
      rw [pbbWriterFlush, pending, if_neg Bool.false_ne_true]
      simp only [flushed₁, flushed₂, empty, List.take_zero, bind, Except.bind]
      rfl
    have copied₃ : copyInto pkt₂ 3 (buffer₂.toList.take (w.header + w.added + blocks.length)) =
        .error .outOfBounds := by
      apply copyInto_overrun
      rw [List.length_take, List.Vector.toList_length, Nat.min_eq_left inside]
      unfold mtu at overrun ⊢
      omega
    cases sent : sendPacket (pkt₂.toList.take 1) with
    | error fault =>
        have room : makeRoom sendPacket (w.header + w.added + blocks.length)
            ⟨{ w with buffer := buffer₂ }, datagrams⟩ = .error fault := by
          rw [makeRoom, if_pos full, flushes, sent]
          rfl
        exact ⟨fault, by simp only [copied₁, copied₂, room, bind, Except.bind]⟩
    | ok _ =>
        have room : makeRoom sendPacket (w.header + w.added + blocks.length)
            ⟨{ w with buffer := buffer₂ }, datagrams⟩ =
              .ok ⟨beginPacket { w with
                buffer := buffer₂, pktBuffer := pkt₂, binMsgsSize := 0, isFlushed := true },
                datagrams ++ [pkt₂.toList.take 1]⟩ := by
          rw [makeRoom, if_pos full, flushes, sent]
          rfl
        exact ⟨.outOfBounds, by
          simp only [copied₁, copied₂, room, beginPacket, Nat.add_zero, copied₃, bind, Except.bind]⟩
  · rw [copyInto_overrun (Nat.not_le.mp inside)]
    exact ⟨_, rfl⟩

end Loop

/-! ### A hello round -/

/-- The writer with one message in its packet buffer sends it behind an empty packet header. -/
theorem pbbWriterFlush_message {sendPacket : List UInt8 → Except Fault Unit} {w : PbbWriter}
    {datagrams : List (List UInt8)} {message : List UInt8} (pending : w.isFlushed = false)
    (header : w.pktHeader = 3)
    (fits : w.binMsgsSize ≤ mtu - 3)
    (written : (w.pktBuffer.toList.drop 3).take w.binMsgsSize = message) :
    ∃ writer', pbbWriterFlush sendPacket ⟨w, datagrams⟩ =
        sendPacket (0 :: message) >>= (fun _ => .ok ⟨writer', datagrams ++ [0 :: message]⟩) ∧
      Idle writer' := by
  obtain ⟨pkt₁, copied₁, written₁⟩ := @copyInto_ok _ w.pktBuffer 0 [0] (by decide)
  have kept : (pkt₁.toList.drop 3).take w.binMsgsSize = message := by
    rw [Buffer.drop_write written₁ (by decide), written]
  have size : message.length = w.binMsgsSize := by
    rw [← written, List.length_take, List.length_drop, List.Vector.toList_length]
    unfold mtu at fits ⊢
    omega
  obtain ⟨pkt₂, copied₂, written₂⟩ := @copyInto_ok _ pkt₁ 1 message (by
    rw [size]
    unfold mtu at fits ⊢
    omega)
  have first : pkt₁.toList.take 1 = [0] := Buffer.slice_write written₁
  have datagram : pkt₂.toList.take (1 + w.binMsgsSize) = 0 :: message := by
    rw [← size, Buffer.take_write_append written₂, first]
    rfl
  refine ⟨{ w with pktBuffer := pkt₂, binMsgsSize := 0, isFlushed := true }, ?_, rfl, rfl⟩
  rw [pbbWriterFlush, pending, if_neg Bool.false_ne_true]
  simp only [copied₁, header, kept, copied₂, datagram, bind, Except.bind]
  rfl

/-- The addresses of a hello: the neighbours' address bytes, each once. -/
def addressHead (addrLen : Nat) (nlist : List Neighbor) : List WriterAddress :=
  (nlist.map fun n => (n.addr.addr.toList, n.addr.prefixLen)).foldl (pbbWriterAddAddress addrLen) []

/-- The size of a hello's header. -/
def helloHeaderSize (ipver : UInt8) : Nat := 8 + familyLen ipver

/-- The number of commodities that a hello carries. -/
def keptCount (ipver : UInt8) (count : Nat) : Nat := fitting count (mtu - 3 - helloHeaderSize ipver)

/-- The size of the address blocks of a hello. -/
def blocksSize (ipver : UInt8) (nlist : List Neighbor) : Nat :=
  ((addressHead (familyLen ipver) nlist).flatMap (addressBlock (familyLen ipver))).length

/-- The size of a hello: header, carried commodities, addresses. -/
def helloSize (ipver : UInt8) (count : Nat) (nlist : List Neighbor) : Nat :=
  helloHeaderSize ipver + comTlvSize * keptCount ipver count + blocksSize ipver nlist

/-- The memory images of the commodities. -/
def commodityValues (order : Words.ByteOrder) (padding : Nat → UInt8 × UInt8)
    (clist : List Commodity) : List (List UInt8) :=
  clist.mapIdx fun i c => commodityBytes order (padding i) c.cdata

/-- The message of a hello round that leaves the neighbours `nlist`. -/
def helloBytes (order : Words.ByteOrder) (padding : Nat → UInt8 × UInt8) (clock : Nat → Timeval)
    (bprd : BprdT) (nlist : List Neighbor) : List UInt8 :=
  fragmentBytes (helloCreator order padding clock (familyLen bprd.ipver))
    (ownNetaddr bprd.saddr).addr.toList bprd.helloSeqno
    (comTlvSize * keptCount bprd.ipver bprd.clist.length)
    (((commodityValues order padding bprd.clist).take
      (keptCount bprd.ipver bprd.clist.length)).flatMap (tlvBytes bprdMsgtlvTypeCom 0))
    (addressHead (familyLen bprd.ipver) nlist)

section

variable {order : Words.ByteOrder} {padding : Nat → UInt8 × UInt8} {clock : Nat → Timeval}
  {sendto : List UInt8 → Bool}
  {writer : PbbWriter} {bprd : BprdT}

theorem familyLen_le (ipver : UInt8) : familyLen ipver ≤ 16 := by
  unfold familyLen
  split
  · decide
  · decide

theorem headerSize_hello (ipver : UInt8) :
    headerSize (helloCreator order padding clock (familyLen ipver)) = helloHeaderSize ipver := by
  simp only [headerSize, helloCreator, if_true, helloHeaderSize]
  omega

theorem commodityBytes_length (padding : UInt8 × UInt8) (c : CommodityShort) :
    (commodityBytes order padding c).length = sizeofCommodityS := by
  simp [commodityBytes, sizeofCommodityS]

theorem commodityValues_length : ∀ value ∈ commodityValues order padding bprd.clist,
    value.length = sizeofCommodityS := by
  intro value member
  obtain ⟨i, inside, rfl⟩ := List.mem_mapIdx.mp member
  exact commodityBytes_length _ _

theorem helloAddrLen_eq {ipver : UInt8} (running : RunningFamily ipver) :
    helloAddrLen ipver = .ok (familyLen ipver) := by
  rcases running with inet | inet6
  · rw [inet]
    rfl
  · rw [inet6]
    rfl

/-- A hello has one TLV for each commodity. -/
theorem helloAddMsgtlvs_eq (running : RunningFamily bprd.ipver) :
    helloAddMsgtlvs order padding bprd =
      .ok ((commodityValues order padding bprd.clist).map fun value => (bprdMsgtlvTypeCom, 0, value)) := by
  have pointwise : (bprd.clist.mapIdx fun i c =>
      (bprdMsgtlvTypeCom, (0 : UInt8), commodityBytes order (padding i) c.cdata)) =
        (commodityValues order padding bprd.clist).map fun value => (bprdMsgtlvTypeCom, 0, value) := by
    apply List.ext_getElem?
    intro i
    simp [commodityValues, Function.comp_def]
  rw [helloAddMsgtlvs, helloAddrLen_eq running, ← pointwise]

/-- The writer when the addresses of a hello are written. -/
structure TlvsWritten (writer : PbbWriter) (bprd : BprdT) (order : Words.ByteOrder)
    (padding : Nat → UInt8 × UInt8) (w : PbbWriter) (front : List UInt8) : Prop where
  header : w.header = helloHeaderSize bprd.ipver
  added : w.added = comTlvSize * keptCount bprd.ipver bprd.clist.length
  max : w.max = mtu - 3
  packet : w.pktHeader = 3 ∧ w.pktMax = mtu
  empty : w.binMsgsSize = 0
  pending : w.isFlushed = false
  frontSize : front.length = w.header
  written : w.buffer.toList.take (w.header + w.added) = front ++
    ((commodityValues order padding bprd.clist).take
      (keptCount bprd.ipver bprd.clist.length)).flatMap (tlvBytes bprdMsgtlvTypeCom 0)

/-- A hello round of an idle writer, up to the one fragment it makes. -/
theorem helloCycle_eq (running : RunningFamily bprd.ipver) (idle : Idle writer) :
    ∃ w front, TlvsWritten writer bprd order padding w front ∧
      helloCycle order padding clock sendto writer bprd =
        finalizeMessageFragment (helloCreator order padding clock (familyLen bprd.ipver))
          (helloSend sendto bprd.ipver) (ownNetaddr bprd.saddr).addr.toList
          (addressHead (familyLen bprd.ipver)
            (ntableRefresh bprd.neighborTimeout clock bprd.nlist))
          (⟨w, []⟩, { bprd with nlist := ntableRefresh bprd.neighborTimeout clock bprd.nlist }) >>=
        fun made => pbbWriterFlush (helloSend sendto bprd.ipver) made.1 >>= fun out => .ok (out, made.2) := by
  have addrLen := helloAddrLen_eq running
  have bound := familyLen_le bprd.ipver
  -- The writer that starts the message.
  obtain ⟨w₀, w₀Eq⟩ : ∃ w₀ : PbbWriter, w₀ = { beginPacket writer with
    header := headerSize (helloCreator order padding clock (familyLen bprd.ipver))
    added := 0, max := min mtu (mtu - (beginPacket writer).pktHeader) } := ⟨_, rfl⟩
  have max₀ : w₀.max = mtu - 3 := by rw [w₀Eq]; rfl
  have header₀ : w₀.header = helloHeaderSize bprd.ipver := by rw [w₀Eq, ← headerSize_hello]
  have added₀ : w₀.added = 0 := by rw [w₀Eq]
  obtain ⟨buffer, ran, written⟩ := tlvWriterAddAll_commodities
    (@commodityValues_length order padding bprd) (show w₀.max ≤ mtu by rw [max₀]; decide)
  have count : fitting (commodityValues order padding bprd.clist).length
      (w₀.max - (w₀.header + w₀.added)) = keptCount bprd.ipver bprd.clist.length := by
    rw [max₀, header₀, added₀, commodityValues, List.length_mapIdx]
    rfl
  rw [count, added₀, Nat.zero_add] at ran
  rw [count, added₀, Nat.add_zero] at written
  refine ⟨{ w₀ with
      buffer := buffer, added := comTlvSize * keptCount bprd.ipver bprd.clist.length },
    w₀.buffer.toList.take w₀.header, ⟨header₀, rfl, max₀, ?_, ?_, ?_, ?_, written⟩, ?_⟩
  · rw [w₀Eq]
    exact ⟨rfl, rfl⟩
  · rw [w₀Eq]
    exact idle.empty
  · rw [w₀Eq]
    rfl
  · dsimp only
    rw [List.length_take, List.Vector.toList_length, header₀, helloHeaderSize]
    unfold mtu
    omega
  · have tlvs := @helloAddMsgtlvs_eq order padding bprd running
    have header : helloAddMsgHeader bprd = .ok (ownNetaddr bprd.saddr).addr.toList := if_pos running
    have created : pbbWriterCreateMessage
        (helloCreator order padding clock (familyLen bprd.ipver)) (helloSend sendto bprd.ipver)
        (⟨writer, []⟩, bprd) =
          finalizeMessageFragment (helloCreator order padding clock (familyLen bprd.ipver))
            (helloSend sendto bprd.ipver) (ownNetaddr bprd.saddr).addr.toList
            (addressHead (familyLen bprd.ipver)
              (ntableRefresh bprd.neighborTimeout clock bprd.nlist))
            (⟨{ w₀ with
                buffer := buffer
                added := comTlvSize * keptCount bprd.ipver bprd.clist.length }, []⟩,
              { bprd with nlist := ntableRefresh bprd.neighborTimeout clock bprd.nlist }) := by
      rw [pbbWriterCreateMessage]
      simp only [idle.flushed, if_true]
      rw [← w₀Eq]
      simp only [helloCreator] at w₀Eq header tlvs ran ⊢
      rw [header, tlvs]
      simp only [bind, Except.bind]
      rw [ran]
      simp only [helloAddAddresses]
      refine (addressLoop_eq ?_ rfl).trans ?_
      · dsimp only
        rw [max₀]
        unfold mtu
        omega
      · rfl
    rw [helloCycle, addrLen]
    simp only [bind, Except.bind]
    rw [created]
    rfl

theorem enough_ownNetaddr (ipver : UInt8) (saddr : Sockaddr) :
    (helloCreator order padding clock (familyLen ipver)).addrLen ≤
      (ownNetaddr saddr).addr.toList.length := by
  rw [List.Vector.toList_length]
  exact familyLen_le ipver

/-- A hello that fits is handed to the socket in one datagram, behind the empty packet header. -/
theorem helloCycle_fits (running : RunningFamily bprd.ipver) (idle : Idle writer)
    (fits : helloSize bprd.ipver bprd.clist.length
      (ntableRefresh bprd.neighborTimeout clock bprd.nlist) ≤ mtu - 3) :
    ∃ writer', helloCycle order padding clock sendto writer bprd =
        helloSend sendto bprd.ipver (0 :: helloBytes order padding clock bprd
          (ntableRefresh bprd.neighborTimeout clock bprd.nlist)) >>= (fun _ =>
        .ok (⟨writer', [0 :: helloBytes order padding clock bprd
          (ntableRefresh bprd.neighborTimeout clock bprd.nlist)]⟩,
          { bprd with
            nlist := ntableRefresh bprd.neighborTimeout clock bprd.nlist
            helloSeqno := bprd.helloSeqno + 1 })) ∧ Idle writer' := by
  obtain ⟨w, front, tlvs, cycle⟩ := @helloCycle_eq order padding clock sendto writer bprd running idle
  have size : w.header + w.added + blocksSize bprd.ipver
      (ntableRefresh bprd.neighborTimeout clock bprd.nlist) ≤ mtu - 3 := by
    rw [tlvs.header, tlvs.added]
    exact fits
  obtain ⟨buffer, pktBuffer, made, message⟩ := @finalizeMessageFragment_fits _
    (helloCreator order padding clock (familyLen bprd.ipver)) (helloSend sendto bprd.ipver) w _ _
    { bprd with nlist := ntableRefresh bprd.neighborTimeout clock bprd.nlist } [] front _
    (enough_ownNetaddr bprd.ipver bprd.saddr) (tlvs.header.trans (headerSize_hello bprd.ipver).symm)
    tlvs.packet tlvs.empty tlvs.frontSize tlvs.written size
  have bytes : (pktBuffer.toList.drop 3).take (w.header + w.added + blocksSize bprd.ipver
      (ntableRefresh bprd.neighborTimeout clock bprd.nlist)) =
        helloBytes order padding clock bprd
          (ntableRefresh bprd.neighborTimeout clock bprd.nlist) := by
    refine message.trans ?_
    rw [tlvs.added]
    rfl
  obtain ⟨writer', flushed, idle'⟩ := @pbbWriterFlush_message (helloSend sendto bprd.ipver)
    { w with
      buffer := buffer, pktBuffer := pktBuffer
      binMsgsSize := w.header + w.added + blocksSize bprd.ipver
        (ntableRefresh bprd.neighborTimeout clock bprd.nlist) } [] _
    tlvs.pending tlvs.packet.1 size bytes
  refine ⟨writer', ?_, idle'⟩
  refine (cycle.trans (congrArg (fun made => made >>= _) made)).trans ?_
  show (pbbWriterFlush (helloSend sendto bprd.ipver) ⟨{ w with
      buffer := buffer, pktBuffer := pktBuffer
      binMsgsSize := w.header + w.added + blocksSize bprd.ipver
        (ntableRefresh bprd.neighborTimeout clock bprd.nlist) }, []⟩ >>= fun out => .ok (out, _)) = _
  rw [flushed]
  cases helloSend sendto bprd.ipver _ with
  | error fault => rfl
  | ok _ => rfl

/-- A hello that does not fit does not go out. -/
theorem helloCycle_overrun (running : RunningFamily bprd.ipver) (idle : Idle writer)
    (overrun : mtu - 3 < helloSize bprd.ipver bprd.clist.length
      (ntableRefresh bprd.neighborTimeout clock bprd.nlist)) :
    ∃ fault, helloCycle order padding clock sendto writer bprd = .error fault := by
  obtain ⟨w, front, tlvs, cycle⟩ := @helloCycle_eq order padding clock sendto writer bprd running idle
  obtain ⟨fault, failed⟩ := @finalizeMessageFragment_overrun _ _ (helloSend sendto bprd.ipver) _ _ _
    { bprd with nlist := ntableRefresh bprd.neighborTimeout clock bprd.nlist } []
    (enough_ownNetaddr bprd.ipver bprd.saddr)
    (tlvs.header.trans (headerSize_hello bprd.ipver).symm) tlvs.packet tlvs.empty tlvs.pending (by
      rw [tlvs.header, tlvs.added]
      exact overrun)
  rw [cycle, failed]
  exact ⟨fault, rfl⟩

theorem helloSend_ok {sendto : List UInt8 → Bool} {ipver : UInt8} {buffer : List UInt8} :
    helloSend sendto ipver buffer = .ok () ↔ ipver = afInet ∧ sendto buffer = true := by
  rw [helloSend]
  split
  · rename_i sent
    exact iff_of_true rfl sent
  · rename_i failed
    exact iff_of_false (by simp) failed

/-- Over IPv4 the hello goes out, when the socket takes it. -/
theorem helloCycle_sent (inet : bprd.ipver = afInet) (idle : Idle writer)
    (fits : helloSize bprd.ipver bprd.clist.length
      (ntableRefresh bprd.neighborTimeout clock bprd.nlist) ≤ mtu - 3)
    (taken : ∀ datagram, sendto datagram = true) :
    ∃ writer', helloCycle order padding clock sendto writer bprd =
        .ok (⟨writer', [0 :: helloBytes order padding clock bprd
          (ntableRefresh bprd.neighborTimeout clock bprd.nlist)]⟩,
          { bprd with
            nlist := ntableRefresh bprd.neighborTimeout clock bprd.nlist
            helloSeqno := bprd.helloSeqno + 1 }) ∧ Idle writer' := by
  obtain ⟨writer', cycle, idle'⟩ := @helloCycle_fits order padding clock sendto writer bprd (.inl inet) idle
    fits
  rw [helloSend_ok.mpr ⟨inet, taken _⟩] at cycle
  exact ⟨writer', cycle, idle'⟩

/-- What is known of a hello round that returns: the hello fits, goes over IPv4 and is taken by the
    socket, in one datagram behind the empty packet header. -/
theorem helloCycle_ok (running : RunningFamily bprd.ipver) (idle : Idle writer) {result : Written × BprdT} :
    helloCycle order padding clock sendto writer bprd = .ok result →
      helloSize bprd.ipver bprd.clist.length
          (ntableRefresh bprd.neighborTimeout clock bprd.nlist) ≤ mtu - 3 ∧
        bprd.ipver = afInet ∧
        sendto (0 :: helloBytes order padding clock bprd
          (ntableRefresh bprd.neighborTimeout clock bprd.nlist)) = true ∧
        ∃ writer', result = (⟨writer', [0 :: helloBytes order padding clock bprd
            (ntableRefresh bprd.neighborTimeout clock bprd.nlist)]⟩,
          { bprd with
            nlist := ntableRefresh bprd.neighborTimeout clock bprd.nlist
            helloSeqno := bprd.helloSeqno + 1 }) ∧ Idle writer' := by
  intro ran
  by_cases fits : helloSize bprd.ipver bprd.clist.length
      (ntableRefresh bprd.neighborTimeout clock bprd.nlist) ≤ mtu - 3
  · obtain ⟨writer', cycle, idle'⟩ := @helloCycle_fits order padding clock sendto writer bprd running idle
      fits
    rw [cycle] at ran
    obtain ⟨_, sent, same⟩ := bind_eq_ok_iff.mp ran
    cases same
    obtain ⟨inet, taken⟩ := helloSend_ok.mp sent
    exact ⟨fits, inet, taken, writer', rfl, idle'⟩
  · obtain ⟨fault, failed⟩ := @helloCycle_overrun order padding clock sendto writer bprd running idle
      (Nat.not_le.mp fits)
    rw [failed] at ran
    cases ran

end

end Bprd
