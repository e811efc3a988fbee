/-
Module: Bprd.Model.PbbReader
Layer: Model
Purpose: The packet parser of the bundled packetbb library (lib/packetbb/pbb_reader.c), built with its
  optional compile flags undefined and with one message and one address consumer. A read pointer is the
  list of the bytes from it to the end of the enclosing packet or message. A message is parsed as a whole
  before its first callback runs; a parse error ends the packet and keeps what earlier messages did.
Imports: Bprd.Lib.ConsumeLoop, Bprd.Lib.Words, Bprd.Lib.Buffer, Bprd.Model.Fault
Trusted boundary: human-reviewed spec
Main exports: PbbResult, ParseStop, TlvblockEntry, AddrblockEntry, Message, Consumers, parseTlv,
  parseTlvblock, parseAddrblock, parseMessage, scheduleTlvblock, handleMessage, pbbReaderHandlePacket
-/
import Bprd.Lib.ConsumeLoop
import Bprd.Lib.Words
import Bprd.Lib.Buffer
import Bprd.Model.Fault

namespace Bprd

open ConsumeLoop (consumeLoop)

/-- `enum pbb_result`, the codes the parser can return with these consumers. -/
inductive PbbResult where
  | okay
  | unsupportedVersion
  | endOfBuffer
  | badTlvIdxflags
  | badTlvValueflags
  | badTlvLength
  | emptyAddrblock
  | badMsgTailflags
  | badMsgPrefixflags
deriving DecidableEq, Repr

/-- Why parsing stops: a result code other than `okay`, or an abnormal end. -/
inductive ParseStop where
  | result (code : PbbResult)
  | fault (fault : Fault)
deriving DecidableEq, Repr

/-- A read pointer together with the result variable of the function that reads. -/
structure Cursor where
  rest : List UInt8
  result : PbbResult
deriving DecidableEq, Repr

/-- `_pbb_get_u8`: nothing is read once the result variable holds an error. -/
def pbbGetU8 (c : Cursor) : UInt8 × Cursor :=
  if c.result ≠ .okay then (0, c)
  else
    match c.rest with
    | [] => (0, { c with result := .endOfBuffer })
    | b :: rest => (b, { c with rest := rest })

/-- `_pbb_get_u16`. -/
def pbbGetU16 (c : Cursor) : UInt16 × Cursor :=
  let (hi, c) := pbbGetU8 c
  let (lo, c) := pbbGetU8 c
  (Words.join16 hi lo, c)

/-- A test of flag bits. -/
def hasFlag (flags mask : UInt8) : Bool := flags &&& mask != 0

/-- `struct pbb_reader_tlvblock_entry`. A value pointer is the list of the bytes from it on. -/
structure TlvblockEntry where
  type : UInt8
  flags : UInt8
  typeExt : UInt8
  length : UInt16
  singleValue : List UInt8
  index1 : UInt8
  index2 : UInt8
  intOrder : UInt16
  intValue : List UInt8
  intMultivalueTlv : Bool
deriving DecidableEq, Repr

/-- `memset(&entry, 0, sizeof(entry))`. -/
def clearedEntry : TlvblockEntry :=
  { type := 0, flags := 0, typeExt := 0, length := 0, singleValue := [], index1 := 0, index2 := 0
    intOrder := 0, intValue := [], intMultivalueTlv := false }

/-- The optional type extension of a TLV. -/
def readTypeExt (flags : UInt8) (c : Cursor) : UInt8 × Cursor :=
  if hasFlag flags 0x80 then pbbGetU8 c else (0, c)

/-- The index range of a TLV: none means all indexes. -/
def readIndex (flags : UInt8) (c : Cursor) : UInt8 × UInt8 × Cursor :=
  match hasFlag flags 0x40, hasFlag flags 0x20 with
  | false, false => (0, 255, c)
  | true, false =>
      let (index, c) := pbbGetU8 c
      (index, index, c)
  | false, true =>
      let (index1, c) := pbbGetU8 c
      let (index2, c) := pbbGetU8 c
      (index1, index2, c)
  | true, true => (0, 0, { c with result := .badTlvIdxflags })

/-- The length field of a TLV, into a variable that holds `length`: bad flags leave it there. -/
def readLength (length : UInt16) (flags : UInt8) (c : Cursor) : UInt16 × Cursor :=
  match hasFlag flags 0x10, hasFlag flags 0x08 with
  | false, false => (0, c)
  | true, false =>
      let (length, c) := pbbGetU8 c
      (length.toUInt16, c)
  | true, true => pbbGetU16 c
  | false, true => (length, { c with result := .badTlvValueflags })

/-- The number of values of a multivalue TLV, in 8-bit arithmetic: an index range that covers all 256
    indexes has a count of 0. -/
def valueCount (index1 index2 : UInt8) : UInt8 := index2 - index1 + 1

/-- `_parse_tlv`. The entry is the static buffer of the enclosing block, with what the TLV before left in
    it; a TLV without value leaves its `single_value` alone. -/
def parseTlv (entry : TlvblockEntry) (input : List UInt8) :
    Except ParseStop (TlvblockEntry × List UInt8) :=
  let (type, c) := pbbGetU8 ⟨input, .okay⟩
  let (flags, c) := pbbGetU8 c
  let (typeExt, c) := readTypeExt flags c
  let (index1, index2, c) := readIndex flags c
  let (length, c) := readLength entry.length flags c
  let multivalue := hasFlag flags 0x04
  let entry := { entry with
    type := type, flags := flags, typeExt := typeExt, length := length, index1 := index1
    index2 := index2, intOrder := Words.join16 type typeExt, intMultivalueTlv := multivalue }
  if c.rest.length < length.toNat then .error (.result .endOfBuffer)
  else if c.result ≠ .okay then .error (.result c.result)
  else if length = 0 then .ok ({ entry with intValue := [] }, c.rest)
  else
    let count := valueCount index1 index2
    let rest := c.rest.drop length.toNat
    if !multivalue || count == 1 then
      .ok ({ entry with intValue := c.rest, intMultivalueTlv := false, singleValue := c.rest }, rest)
    else if count = 0 then .error (.fault .divideByZero)
    else if length % count.toUInt16 ≠ 0 then .error (.result .badTlvLength)
    else .ok ({ entry with intValue := c.rest, length := length / count.toUInt16 }, rest)

/-- `avl_insert` with duplicates allowed: sorted by the internal order, behind equal keys. -/
def insertTlv (entry : TlvblockEntry) : List TlvblockEntry → List TlvblockEntry
  | [] => [entry]
  | e :: tlvblock =>
      if entry.intOrder < e.intOrder then entry :: e :: tlvblock else e :: insertTlv entry tlvblock

/-- One round of the loop of `_parse_tlvblock`. -/
def parseTlvStep (s : TlvblockEntry × List TlvblockEntry) (input : List UInt8) :
    Except ParseStop ((TlvblockEntry × List TlvblockEntry) × List UInt8) :=
  match parseTlv s.1 input with
  | .error stop => .error stop
  | .ok (entry, rest) => .ok ((entry, insertTlv entry s.2), rest)

/-- `_parse_tlvblock`. A TLV is bounded by the end of the enclosing input only, so the last one may reach
    behind the end of its block. -/
def parseTlvblock (input : List UInt8) : Except ParseStop (List TlvblockEntry × List UInt8) :=
  let (length, c) := pbbGetU16 ⟨input, .okay⟩
  if c.rest.length < length.toNat then .error (.result .endOfBuffer)
  else if c.result ≠ .okay then .error (.result c.result)
  else
    match consumeLoop parseTlvStep (.result .endOfBuffer) (c.rest.length - length.toNat)
        c.rest.length (clearedEntry, []) c.rest with
    | .error stop => .error stop
    | .ok (s, rest) => .ok (s.2, rest)

/-- Size of the address buffers, `PBB_MAX_ADDRLEN`. -/
def pbbMaxAddrlen : Nat := 16

/-- `struct pbb_reader_addrblock_entry`. `prefixes` is empty when the pointer is null. -/
structure AddrblockEntry where
  numAddr : UInt8
  midStart : UInt8
  midLen : UInt8
  midSrc : List UInt8
  addr : List.Vector UInt8 pbbMaxAddrlen
  prefixlen : UInt8
  prefixes : List UInt8
  tlvblock : List TlvblockEntry
deriving DecidableEq

/-- The head of the addresses of a block: its length, the address buffer with it, and the length of the
    rest of an address. -/
def readHead (flags : UInt8) (addrLen : UInt8) (c : Cursor) :
    Except ParseStop (UInt8 × UInt8 × List.Vector UInt8 pbbMaxAddrlen × Cursor) :=
  let addr := List.Vector.replicate pbbMaxAddrlen (0 : UInt8)
  if hasFlag flags 0x80 then
    let (midStart, c) := pbbGetU8 c
    if c.rest.length < midStart.toNat then .error (.result .endOfBuffer)
    else
      match Buffer.write addr 0 (c.rest.take midStart.toNat) with
      | none => .error (.fault .outOfBounds)
      | some addr =>
          .ok (midStart, addrLen - midStart, addr, { c with rest := c.rest.drop midStart.toNat })
  else .ok (0, addrLen, addr, c)

/-- The tail of the addresses of a block. -/
def readTail (flags : UInt8) (addrLen midLen : UInt8) (addr : List.Vector UInt8 pbbMaxAddrlen)
    (c : Cursor) : Except ParseStop (UInt8 × List.Vector UInt8 pbbMaxAddrlen × Cursor) :=
  match hasFlag flags 0x40, hasFlag flags 0x20 with
  | false, false => .ok (midLen, addr, c)
  | false, true =>
      let (tailLen, c) := pbbGetU8 c
      .ok (midLen - tailLen, addr, c)
  | true, false =>
      let (tailLen, c) := pbbGetU8 c
      if c.rest.length < tailLen.toNat then .error (.result .endOfBuffer)
      else if addrLen < tailLen then .error (.fault .outOfBounds)
      else
        match Buffer.write addr (addrLen.toNat - tailLen.toNat) (c.rest.take tailLen.toNat) with
        | none => .error (.fault .outOfBounds)
        | some addr => .ok (midLen - tailLen, addr, { c with rest := c.rest.drop tailLen.toNat })
  | true, true => .error (.result .badMsgTailflags)

/-- The prefix lengths of a block. The single one is read before the bound is tested; a byte read behind
    the end is not used. -/
def readPrefixes (flags numAddr addrLen : UInt8) (c : Cursor) :
    Except ParseStop (UInt8 × List UInt8 × Cursor) :=
  match hasFlag flags 0x10, hasFlag flags 0x08 with
  | false, false => .ok (addrLen * 8, [], c)
  | true, false =>
      match c.rest with
      | [] => .error (.result .endOfBuffer)
      | prefixlen :: rest => .ok (prefixlen, [], { c with rest := rest })
  | false, true =>
      if c.rest.length < numAddr.toNat then .error (.result .endOfBuffer)
      else .ok (0, c.rest.take numAddr.toNat, { c with rest := c.rest.drop numAddr.toNat })
  | true, true => .error (.result .badMsgPrefixflags)

/-- `_parse_addrblock`; the TLV block of the entry is filled in by the caller. -/
def parseAddrblock (addrLen : UInt8) (input : List UInt8) :
    Except ParseStop (AddrblockEntry × List UInt8) := do
  let (numAddr, c) := pbbGetU8 ⟨input, .okay⟩
  if numAddr = 0 then .error (.result .emptyAddrblock)
  else
    let (flags, c) := pbbGetU8 c
    let (midStart, midLen, addr, c) ← readHead flags addrLen c
    let (midLen, addr, c) ← readTail flags addrLen midLen addr c
    let midSrc := c.rest
    if c.rest.length < midLen.toNat * numAddr.toNat then .error (.result .endOfBuffer)
    else
      let c := { c with rest := c.rest.drop (midLen.toNat * numAddr.toNat) }
      let (prefixlen, prefixes, c) ← readPrefixes flags numAddr addrLen c
      if c.result ≠ .okay then .error (.result c.result)
      else
        .ok ({ numAddr := numAddr, midStart := midStart, midLen := midLen, midSrc := midSrc
               addr := addr, prefixlen := prefixlen, prefixes := prefixes, tlvblock := [] }, c.rest)

/-- One round of the address loop of `_handle_message`. -/
def parseAddrStep (addrLen : UInt8) (addrs : List AddrblockEntry) (input : List UInt8) :
    Except ParseStop (List AddrblockEntry × List UInt8) := do
  let (addr, rest) ← parseAddrblock addrLen input
  let (tlvblock, rest) ← parseTlvblock rest
  return (addrs ++ [{ addr with tlvblock := tlvblock }], rest)

/-- The message context and the parsed contents of one message. -/
structure Message where
  msgType : UInt8
  msgFlags : UInt8
  addrLen : UInt8
  origAddr : Option (List UInt8)
  hoplimit : Option UInt8
  hopcount : Option UInt8
  seqno : Option UInt16
  tlvs : List TlvblockEntry
  addrs : List AddrblockEntry
deriving DecidableEq

/-- An optional field of the message header. -/
def readOptional {α : Type} (present : Bool) (read : Cursor → α × Cursor) (c : Cursor) :
    Option α × Cursor :=
  if present then
    let (value, c) := read c
    (some value, c)
  else (none, c)

/-- The originator address. -/
def readOrigAddr (flags addrLen : UInt8) (c : Cursor) :
    Except ParseStop (Option (List UInt8) × Cursor) :=
  if hasFlag flags 0x80 then
    if c.rest.length < addrLen.toNat then .error (.result .endOfBuffer)
    else
      .ok (some (c.rest.take addrLen.toNat), { c with rest := c.rest.drop addrLen.toNat })
  else .ok (none, c)

/-- The parsing half of `_handle_message`. The header is bounded by the packet; what follows it, by the
    size field of the message. -/
def parseMessage (start : List UInt8) : Except ParseStop (Message × List UInt8) := do
  let (msgType, c) := pbbGetU8 ⟨start, .okay⟩
  let (flags, c) := pbbGetU8 c
  let (size, c) := pbbGetU16 c
  let addrLen := (flags &&& 0x0f) + 1
  let (origAddr, c) ← readOrigAddr flags addrLen c
  let (hoplimit, c) := readOptional (hasFlag flags 0x40) pbbGetU8 c
  let (hopcount, c) := readOptional (hasFlag flags 0x20) pbbGetU8 c
  let (seqno, c) := readOptional (hasFlag flags 0x10) pbbGetU16 c
  if start.length < size.toNat then .error (.result .endOfBuffer)
  else if c.result ≠ .okay then .error (.result c.result)
  else
    let body := (start.take size.toNat).drop (start.length - c.rest.length)
    let (tlvs, rest) ← parseTlvblock body
    let (addrs, _) ← consumeLoop (parseAddrStep addrLen) (.result .endOfBuffer) 0 rest.length [] rest
    return ({ msgType := msgType, msgFlags := flags &&& 0xf0, addrLen := addrLen
              origAddr := origAddr, hoplimit := hoplimit, hopcount := hopcount, seqno := seqno
              tlvs := tlvs, addrs := addrs }, start.drop size.toNat)

/-- The callbacks of a message consumer and an address consumer for one message type. Every callback of
    the daemon returns `PBB_OKAY` when it returns. -/
structure Consumers (σ : Type) where
  msgId : UInt8
  msgStart : Message → σ → Except Fault σ
  msgTlv : TlvblockEntry → σ → Except Fault σ
  addrStart : Message → List UInt8 → σ → Except Fault σ
  addrTlv : TlvblockEntry → σ → Except Fault σ

section Callbacks

variable {σ : Type}

/-- Run a callback over a sequence. -/
def forEach {α : Type} (act : α → σ → Except Fault σ) : List α → σ → Except Fault σ
  | [], s => .ok s
  | x :: xs, s =>
      match act x s with
      | .error fault => .error fault
      | .ok s' => forEach act xs s'

/-- The value pointer a TLV shows for one index. -/
def valueAt (idx : UInt8) (tlv : TlvblockEntry) : TlvblockEntry :=
  if tlv.intMultivalueTlv then
    { tlv with singleValue := tlv.intValue.drop ((idx.toNat - tlv.index1.toNat) * tlv.length.toNat) }
  else tlv

/-- Whether a TLV of a block applies to an index. -/
def indexMatch (idx : UInt8) (tlv : TlvblockEntry) : Bool :=
  decide (tlv.index1 ≤ idx) && decide (idx ≤ tlv.index2)

/-- `_schedule_tlvblock` for a consumer without consumer entries: the TLV callback runs for every TLV
    of the block whose index range holds the index. -/
def scheduleTlvblock (tlvCallback : TlvblockEntry → σ → Except Fault σ)
    (entries : List TlvblockEntry) (idx : UInt8) (s : σ) : Except Fault σ :=
  forEach tlvCallback ((entries.filter (indexMatch idx)).map (valueAt idx)) s

/-- `schedule_msgtlv_consumer`. -/
def scheduleMsgtlvConsumer (consumers : Consumers σ) (message : Message) (s : σ) : Except Fault σ :=
  match consumers.msgStart message s with
  | .error fault => .error fault
  | .ok s' => scheduleTlvblock consumers.msgTlv message.tlvs 0 s'

/-- The address of index `i` of a block, assembled in the block's address buffer. -/
def assembleAddr (addr : AddrblockEntry) (i : Nat) : Option (List.Vector UInt8 pbbMaxAddrlen) :=
  Buffer.write addr.addr addr.midStart.toNat
    ((addr.midSrc.drop (addr.midLen.toNat * i)).take addr.midLen.toNat)

/-- The inner loop of `schedule_msgaddr_consumer`, for one address. -/
def scheduleAddr (consumers : Consumers σ) (message : Message) (addr : AddrblockEntry) (i : Nat)
    (s : σ) : Except Fault σ :=
  match assembleAddr addr i with
  | none => .error .outOfBounds
  | some bytes =>
      match consumers.addrStart message bytes.toList s with
      | .error fault => .error fault
      | .ok s' => scheduleTlvblock consumers.addrTlv addr.tlvblock (UInt8.ofNat i) s'

/-- `schedule_msgaddr_consumer`. -/
def scheduleMsgaddrConsumer (consumers : Consumers σ) (message : Message) (s : σ) :
    Except Fault σ :=
  forEach (fun addr => forEach (scheduleAddr consumers message addr) (List.range addr.numAddr.toNat))
    message.addrs s

/-- The callback half of `_handle_message`: the message consumer runs before the address consumer. -/
def scheduleMessage (consumers : Consumers σ) (message : Message) (s : σ) : Except Fault σ :=
  if message.msgType = consumers.msgId then
    match scheduleMsgtlvConsumer consumers message s with
    | .error fault => .error fault
    | .ok s' => scheduleMsgaddrConsumer consumers message s'
  else .ok s

/-- How the message loop of a packet ends early. -/
inductive PacketStop (σ : Type) where
  | result (code : PbbResult) (s : σ)
  | fault (fault : Fault)

/-- `_handle_message`. -/
def handleMessage (consumers : Consumers σ) (s : σ) (input : List UInt8) :
    Except (PacketStop σ) (σ × List UInt8) :=
  match parseMessage input with
  | .error (.result code) => .error (.result code s)
  | .error (.fault fault) => .error (.fault fault)
  | .ok (message, rest) =>
      match scheduleMessage consumers message s with
      | .error fault => .error (.fault fault)
      | .ok s' => .ok (s', rest)

/-- What `pbb_reader_handle_packet` returns once its messages are handled. -/
def packetResult : Except (PacketStop σ) (σ × List UInt8) → Except Fault (PbbResult × σ)
  | .ok (s, _) => .ok (.okay, s)
  | .error (.result code s) => .ok (code, s)
  | .error (.fault fault) => .error fault

/-- The messages of a packet: the bytes behind the packet header and packet TLV block. -/
def packetMessages (buffer : List UInt8) : Except ParseStop (List UInt8) :=
  let (firstByte, c) := pbbGetU8 ⟨buffer, .okay⟩
  if firstByte >>> 4 ≠ 0 then .error (.result .unsupportedVersion)
  else
    let c := if hasFlag firstByte 0x08 then (pbbGetU16 c).2 else c
    if c.result ≠ .okay then .error (.result c.result)
    else if hasFlag firstByte 0x04 then
      match parseTlvblock c.rest with
      | .error stop => .error stop
      | .ok (_, rest) => .ok rest
    else .ok c.rest

/-- `pbb_reader_handle_packet`. -/
def pbbReaderHandlePacket (consumers : Consumers σ) (buffer : List UInt8) (s : σ) :
    Except Fault (PbbResult × σ) :=
  match packetMessages buffer with
  | .error (.result code) => .ok (code, s)
  | .error (.fault fault) => .error fault
  | .ok messages =>
      packetResult
        (consumeLoop (handleMessage consumers) (.result .endOfBuffer s) 0 messages.length s messages)

end Callbacks

end Bprd
