/-
Module: Bprd.Model.PbbWriter
Layer: Model
Purpose: The message generator of the bundled packetbb library (lib/packetbb/pbb_msg_generator.c,
  pbb_tlv_writer.c, pbb_pkt_generator.c, pbb_writer.c), built with its optional compile flags undefined,
  with one interface, one message type and one content provider, and without packet header callbacks. Both
  buffers have the size of the configured MTU; a copy that does not fit a buffer is a fault.
Imports: Bprd.Lib.Buffer, Bprd.Model.Fault
Trusted boundary: human-reviewed spec
Main exports: PbbWriter, MessageCreator, WriterAddress, tlvBytes, tlvWriterAdd, pbbWriterAddAddress,
  CompressSession, addressBlock, messageHeader, finalizeMessageFragment, pbbWriterFlush,
  pbbWriterCreateMessage
-/
import Bprd.Lib.Buffer
import Bprd.Model.Fault

namespace Bprd

/-- The MTU that `hello_writer_init` passes for messages and for the interface. -/
def mtu : Nat := 512

/-- `struct pbb_writer` with its interface: the message buffer with the bytes used by header and TLVs and
    the maximum for them, and the packet buffer with the bytes reserved for the packet header and used by
    messages. No memory is ever allocated for later TLVs. -/
structure PbbWriter where
  buffer : List.Vector UInt8 mtu
  header : Nat
  added : Nat
  max : Nat
  pktBuffer : List.Vector UInt8 mtu
  pktHeader : Nat
  pktMax : Nat
  binMsgsSize : Nat
  isFlushed : Bool

/-- What is written so far in one call: the writer, and the datagrams handed to `sendto`. -/
structure Written where
  writer : PbbWriter
  datagrams : List (List UInt8)

/-- `struct pbb_writer_address`. -/
structure WriterAddress where
  addr : List UInt8
  prefixlen : UInt8
deriving DecidableEq, Repr

/-- A message type with its callbacks, over the state `σ` that the callbacks read and change. The
    callbacks are given by the calls they make: the originator they set, the TLVs and the addresses they
    add in order, and the sequence number they set. -/
structure MessageCreator (σ : Type) where
  type : UInt8
  addrLen : Nat
  hasOrigaddr : Bool
  hasSeqno : Bool
  addMessageHeader : σ → Except Fault (List UInt8)
  addMessageTLVs : σ → Except Fault (List (UInt8 × UInt8 × List UInt8))
  addAddresses : σ → σ × List (List UInt8 × UInt8)
  finishMessageHeader : σ → UInt16 × σ

/-- A copy into a buffer. -/
def copyInto {size : Nat} (buffer : List.Vector UInt8 size) (offset : Nat) (source : List UInt8) :
    Except Fault (List.Vector UInt8 size) :=
  match Buffer.write buffer offset source with
  | none => .error .outOfBounds
  | some buffer => .ok buffer

/-- `_calc_tlv_size`. -/
def calcTlvSize (exttype : Bool) (length : Nat) : Nat :=
  2 + (if exttype then 1 else 0) + length + (if length > 255 then 2 else if length > 0 then 1 else 0)

/-- `_write_tlv` for a message TLV, whose index range is 0 to 255: the bytes it writes. -/
def tlvBytes (type exttype : UInt8) (value : List UInt8) : List UInt8 :=
  let flags : UInt8 :=
    (if exttype > 0 then 0x80 else 0) ||| (if value.length > 255 then 0x08 else 0) |||
      (if value.length > 0 then 0x10 else 0)
  [type, flags] ++ (if exttype = 0 then [] else [exttype]) ++
    (if value.length > 255 then [UInt8.ofNat (value.length / 256)] else []) ++
    (if value.length > 0 then UInt8.ofNat value.length :: value else [])

/-- `_pbb_tlv_writer_add`. The result code tells whether there was room; no caller looks at it. -/
def tlvWriterAdd (w : PbbWriter) (tlv : UInt8 × UInt8 × List UInt8) : Except Fault PbbWriter :=
  let size := calcTlvSize (tlv.2.1 != 0) tlv.2.2.length
  if w.header + w.added + size > w.max then .ok w
  else
    match copyInto w.buffer (w.header + w.added) (tlvBytes tlv.1 tlv.2.1 tlv.2.2) with
    | .error fault => .error fault
    | .ok buffer => .ok { w with buffer := buffer, added := w.added + size }

/-- The calls of `pbb_writer_add_messagetlv` a content provider makes. -/
def tlvWriterAddAll : List (UInt8 × UInt8 × List UInt8) → PbbWriter → Except Fault PbbWriter
  | [], w => .ok w
  | tlv :: tlvs, w =>
      match tlvWriterAdd w tlv with
      | .error fault => .error fault
      | .ok w' => tlvWriterAddAll tlvs w'

/-- `pbb_writer_add_address`: the first bytes identify the address, whatever its prefix length. -/
def pbbWriterAddAddress (addrLen : Nat) (addrHead : List WriterAddress)
    (address : List UInt8 × UInt8) : List WriterAddress :=
  let addr := address.1.take addrLen
  if addrHead.any fun a => a.addr == addr then addrHead else addrHead ++ [⟨addr, address.2⟩]

/-- The address compression session as far as it is used without address compression: the entry of index
    0, and the total of the entry of the last index. -/
structure CompressSession where
  total : Nat
  current : Nat
  lastTotal : Nat

/-- `_compress_address`: without address compression every address closes the block before it and
    starts a new one, whose cost is added to the total of the last index. -/
def compressAddress (addrLen : Nat) (addr : WriterAddress) (acs : CompressSession) :
    CompressSession :=
  { acs with
    total := acs.lastTotal
    current := 2 + addrLen + (if addr.prefixlen.toNat ≠ addrLen * 8 then 1 else 0) }

/-- The block of one address, with its empty TLV block, as `_write_addresses` writes it. -/
def addressBlock (addrLen : Nat) (addr : WriterAddress) : List UInt8 :=
  if addr.prefixlen.toNat ≠ addrLen * 8 then [1, 0x10] ++ addr.addr ++ [addr.prefixlen, 0, 0]
  else [1, 0] ++ addr.addr ++ [0, 0]

/-- `_pbb_writer_begin_packet`. -/
def beginPacket (w : PbbWriter) : PbbWriter :=
  { w with pktHeader := 3, pktMax := mtu, isFlushed := false }

section Interface

variable (sendPacket : List UInt8 → Except Fault Unit)

/-- `pbb_writer_flush`, not forced: the message bytes move up to the one-byte packet header, and the
    callback of the interface sends the packet. -/
def pbbWriterFlush (s : Written) : Except Fault Written :=
  if s.writer.isFlushed then .ok s
  else do
    let w := s.writer
    let pktBuffer ← copyInto w.pktBuffer 0 [0]
    let messages := (pktBuffer.toList.drop w.pktHeader).take w.binMsgsSize
    let pktBuffer ← copyInto pktBuffer 1 messages
    let packet := pktBuffer.toList.take (1 + w.binMsgsSize)
    sendPacket packet
    return { writer := { w with pktBuffer := pktBuffer, binMsgsSize := 0, isFlushed := true }
             datagrams := s.datagrams ++ [packet] }

/-- The packet buffer is flushed and begun again when a message of `size` bytes does not fit behind what
    it holds. -/
def makeRoom (size : Nat) (out : Written) : Except Fault Written :=
  if out.writer.pktHeader + out.writer.binMsgsSize + size > out.writer.pktMax then
    match pbbWriterFlush sendPacket out with
    | .error fault => .error fault
    | .ok flushed => .ok { flushed with writer := beginPacket flushed.writer }
  else .ok out

end Interface

section Creation

variable {σ : Type} (creator : MessageCreator σ)

/-- `pbb_writer_set_msg_header`: the size of the header, TLV block length included. -/
def headerSize : Nat :=
  6 + (if creator.hasOrigaddr then creator.addrLen else 0) + (if creator.hasSeqno then 2 else 0)

/-- The two bytes of a 16-bit field. -/
def u16Bytes (value : UInt16) : List UInt8 := [(value >>> 8).toUInt8, value.toUInt8]

/-- `_write_msgheader`, for a message without hop limit and hop count. -/
def messageHeader (origAddr : List UInt8) (seqno : UInt16) (size added : Nat) : List UInt8 :=
  let flags := UInt8.ofNat (creator.addrLen - 1) ||| (if creator.hasOrigaddr then 0x80 else 0) |||
    (if creator.hasSeqno then 0x10 else 0)
  [creator.type, flags] ++ u16Bytes (UInt16.ofNat size) ++
    (if creator.hasOrigaddr then origAddr.take creator.addrLen else []) ++
    (if creator.hasSeqno then u16Bytes seqno else []) ++ u16Bytes (UInt16.ofNat added)

variable (sendPacket : List UInt8 → Except Fault Unit)

/-- `_finalize_message_fragment`: write the address blocks and the header into the message buffer, and
    append the message to the packet buffer. -/
def finalizeMessageFragment (origAddr : List UInt8) (fragment : List WriterAddress)
    (s : Written × σ) : Except Fault (Written × σ) := do
  let w := s.1.writer
  let blocks := fragment.flatMap (addressBlock creator.addrLen)
  let buffer ← copyInto w.buffer (w.header + w.added) blocks
  let seqno := (creator.finishMessageHeader s.2).1
  let size := w.header + w.added + blocks.length
  let buffer ← copyInto buffer 0 (messageHeader creator origAddr seqno size w.added)
  let out ← makeRoom sendPacket size { s.1 with writer := { w with buffer := buffer } }
  let w := out.writer
  let pktBuffer ← copyInto w.pktBuffer (w.pktHeader + w.binMsgsSize) (w.buffer.toList.take size)
  let w := { w with pktBuffer := pktBuffer, binMsgsSize := w.binMsgsSize + size }
  return ({ out with writer := w }, (creator.finishMessageHeader s.2).2)

/-- The session when the next address comes: a fragment starts with a cleared one. -/
def sessionFor (fragment : List WriterAddress) (acs : CompressSession) : CompressSession :=
  if fragment = [] then ⟨0, 0, 0⟩ else acs

/-- The address loop of `pbb_writer_create_message`. `fragment` holds the addresses from `first_addr` up
    to the one before the cursor. An address that does not fit closes the fragment and is looked at again
    with a cleared session; if it does not fit alone, the message is given up. -/
def addressLoop (origAddr : List UInt8) (max : Nat) :
    List WriterAddress → CompressSession → List WriterAddress → Written × σ →
      Except Fault (Written × σ)
  | [], _, fragment, s => finalizeMessageFragment creator sendPacket origAddr fragment s
  | addr :: rest, acs, fragment, s =>
      let acs := compressAddress creator.addrLen addr (sessionFor fragment acs)
      if acs.total + acs.current < max + 1 then
        addressLoop origAddr max rest { acs with total := acs.total + acs.current }
          (fragment ++ [addr]) s
      else if fragment = [] then .ok s
      else
        match finalizeMessageFragment creator sendPacket origAddr fragment s with
        | .error fault => .error fault
        | .ok s =>
            let acs := compressAddress creator.addrLen addr ⟨0, 0, 0⟩
            if acs.total + acs.current < max + 1 then
              addressLoop origAddr max rest { acs with total := acs.total + acs.current } [addr] s
            else .ok s

/-- `pbb_writer_create_message`, for one interface that every message goes to. -/
def pbbWriterCreateMessage (s : Written × σ) : Except Fault (Written × σ) := do
  let (out, state) := s
  let w := if out.writer.isFlushed then beginPacket out.writer else out.writer
  let w := { w with header := headerSize creator, added := 0, max := min mtu (mtu - w.pktHeader) }
  let origAddr ← creator.addMessageHeader state
  let tlvs ← creator.addMessageTLVs state
  let w ← tlvWriterAddAll tlvs w
  let (state, addresses) := creator.addAddresses state
  let addrHead := addresses.foldl (pbbWriterAddAddress creator.addrLen) []
  addressLoop creator sendPacket origAddr w.max addrHead ⟨0, 0, 0⟩ [] ({ out with writer := w }, state)

end Creation

end Bprd
