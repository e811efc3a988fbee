/-
Module: Bprd.Model.PbbHeap
Layer: Model
Purpose: The packet parser of Bprd.Model.PbbReader with its memory: every TLV is copied into an allocated
  entry and inserted into an AVL tree, an allocation can fail, and every exit path frees what it has to. The
  callbacks see the trees as `avl_for_each_element` runs through them. Allocated blocks are numbered.
Imports: Bprd.Model.Avl, Bprd.Model.PbbReader
Trusted boundary: human-reviewed spec
Main exports: PbbHeap, HeapResult, HeapStop, TlvTree, storeTlv, freeTlvblock, parseTlvblockHeap, AddrNode,
  parseAddrHeapStep, readMessageHeader, cleanupMessage, handleAddrsHeap, handleMessageHeap,
  pbbReaderHandlePacketHeap
-/
import Bprd.Model.Avl
import Bprd.Model.PbbReader

namespace Bprd

open ConsumeLoop (consumeLoop)

/-- The result codes of a parser whose allocations may fail. -/
inductive HeapResult where
  | parse (code : PbbResult)
  | outOfMemory
deriving DecidableEq, Repr

/-- The memory of a parser: the contents of the TLV entries, how many blocks it has allocated, and the
    blocks that it has freed, in order. -/
structure PbbHeap where
  entries : Nat → TlvblockEntry
  allocated : Nat
  freed : List Nat

namespace PbbHeap

/-- `malloc_tlvblock_entry` and `malloc_addrblock_entry`. `supply` says which allocations are granted. -/
def malloc (supply : Nat → Bool) (heap : PbbHeap) : Option (Nat × PbbHeap) :=
  if supply heap.allocated then some (heap.allocated, { heap with allocated := heap.allocated + 1 })
  else none

/-- `free_tlvblock_entry` and `free_addrblock_entry`, for some blocks. -/
def free (heap : PbbHeap) (blocks : List Nat) : PbbHeap := { heap with freed := heap.freed ++ blocks }

end PbbHeap

/-- Why a function of the parser ends early: it returns a result other than `PBB_OKAY`, or it does not
    return. -/
inductive HeapStop (σ : Type) where
  | result (code : HeapResult) (state : σ)
  | fault (fault : Fault)

/-- The tree of a TLV block. Its nodes are those of the allocated entries. The comparator reads the four
    bytes at the 16-bit key of an entry: two of them lie behind it, and are padding that `memset` has
    cleared where pointers take eight bytes. -/
abbrev TlvTree := AvlTree UInt32 Nat

/-- More than the TLVs of a block can be. -/
def tlvFuel : Nat := 2 ^ 16 + 2

/-! ### TLV blocks -/

/-- The static buffer is copied into an allocated entry, and the entry inserted. -/
def storeTlv (entry : TlvblockEntry) (block : Nat) (tree : TlvTree) (heap : PbbHeap) :
    Option (TlvTree × PbbHeap) :=
  (avlCall avlCompUint32 tlvFuel tree (.insert block entry.intOrder.toUInt32)).map fun inserted =>
    (inserted.2, { heap with entries := Function.update heap.entries block entry })

/-- One round of the loop of `_parse_tlvblock`. -/
def parseTlvHeapStep (supply : Nat → Bool) (s : TlvblockEntry × TlvTree × PbbHeap) (input : List UInt8) :
    Except (HeapStop (TlvTree × PbbHeap)) ((TlvblockEntry × TlvTree × PbbHeap) × List UInt8) :=
  match parseTlv s.1 input with
  | .error (.fault fault) => .error (.fault fault)
  | .error (.result code) => .error (.result (.parse code) s.2)
  | .ok (entry, rest) =>
      match s.2.2.malloc supply with
      | none => .error (.result .outOfMemory s.2)
      | some (block, heap) =>
          match storeTlv entry block s.2.1 heap with
          | none => .error (.fault .nullPointer)
          | some stored => .ok ((entry, stored), rest)

/-- `_free_tlvblock`. -/
def freeTlvblock (tree : TlvTree) (heap : PbbHeap) : Option (TlvTree × PbbHeap) :=
  (avlRemoveAll tree).map fun removed => (removed.2, heap.free removed.1)

/-- `cleanup_parse_tlvblock`, for a result other than `PBB_OKAY`. -/
def cleanupTlvblock (code : HeapResult) (s : TlvTree × PbbHeap) : HeapStop (TlvTree × PbbHeap) :=
  match freeTlvblock s.1 s.2 with
  | none => .fault .nullPointer
  | some freed => .result code freed

/-- `_parse_tlvblock`. -/
def parseTlvblockHeap (supply : Nat → Bool) (s : TlvTree × PbbHeap) (input : List UInt8) :
    Except (HeapStop (TlvTree × PbbHeap)) ((TlvTree × PbbHeap) × List UInt8) :=
  let (length, c) := pbbGetU16 ⟨input, .okay⟩
  if c.rest.length < length.toNat then .error (cleanupTlvblock (.parse .endOfBuffer) s)
  else if c.result ≠ .okay then .error (cleanupTlvblock (.parse c.result) s)
  else
    match consumeLoop (parseTlvHeapStep supply) (.fault .nullPointer) (c.rest.length - length.toNat)
        c.rest.length (clearedEntry, s) c.rest with
    | .error (.fault fault) => .error (.fault fault)
    | .error (.result code s) => .error (cleanupTlvblock code s)
    | .ok (s, rest) => .ok (s.2, rest)

/-- The TLVs in the order in which `avl_for_each_element` runs through them. -/
def readTlvs (heap : PbbHeap) (tree : TlvTree) : Option (List TlvblockEntry) :=
  (avlForEach tlvFuel tree).map (List.map heap.entries)

/-! ### Address blocks -/

/-- An element of the address list: the block that was allocated for it, what `_parse_addrblock` has written
    into it, and the tree of its TLVs. -/
structure AddrNode where
  block : Nat
  addr : AddrblockEntry
  tree : TlvTree

/-- One round of the address loop of `_handle_message`. `memory` is what the nodes of a tree hold before
    they are used. -/
def parseAddrHeapStep (supply : Nat → Bool) (memory : TlvTree) (addrLen : UInt8)
    (s : List AddrNode × PbbHeap) (input : List UInt8) :
    Except (HeapStop (List AddrNode × PbbHeap)) ((List AddrNode × PbbHeap) × List UInt8) :=
  match s.2.malloc supply with
  | none => .error (.result .outOfMemory s)
  | some (block, heap) =>
      match parseAddrblock addrLen input with
      | .error (.fault fault) => .error (.fault fault)
      | .error (.result code) => .error (.result (.parse code) (s.1, heap.free [block]))
      | .ok (addr, rest) =>
          match parseTlvblockHeap supply (avlInit memory true, heap) rest with
          | .error (.fault fault) => .error (.fault fault)
          | .error (.result code (_, heap)) => .error (.result code (s.1, heap.free [block]))
          | .ok ((tree, heap), rest) => .ok ((s.1 ++ [⟨block, addr, tree⟩], heap), rest)

/-- The address blocks with their TLVs, as the callbacks see them. -/
def readAddrs (heap : PbbHeap) : List AddrNode → Option (List AddrblockEntry)
  | [] => some []
  | node :: nodes => do
      let tlvblock ← readTlvs heap node.tree
      let addrs ← readAddrs heap nodes
      some ({ node.addr with tlvblock := tlvblock } :: addrs)

/-- The loop over the address list in `cleanup_parse_message`. -/
def freeAddrs : List AddrNode → PbbHeap → Option PbbHeap
  | [], heap => some heap
  | node :: nodes, heap => do
      let (_, heap) ← freeTlvblock node.tree heap
      freeAddrs nodes (heap.free [node.block])

/-! ### Messages -/

/-- The header of a message, the bytes behind it that its size field covers, and those behind the
    message. -/
def readMessageHeader (start : List UInt8) : Except ParseStop (Message × List UInt8 × List UInt8) := do
  let (msgType, c) := pbbGetU8 ⟨start, .okay⟩
  let (flags, c) := pbbGetU8 c
  let (size, c) := pbbGetU16 c
  let addrLen := (flags &&& 0x0f) + 1
  let (origAddr, c) ← readOrigAddr flags addrLen c
  let (hoplimit, c) := readOptional (hasFlag flags 0x40) pbbGetU8 c
  let (hopcount, c) := readOptional (hasFlag flags 0x20) pbbGetU8 c
  let (seqno, c) := readOptional (hasFlag flags 0x10) pbbGetU16 c
  if start.length < size.toNat then .error (.result .endOfBuffer)
  else if c.result ≠ .okay then .error (.result c.result)
  else
    return ({ msgType := msgType, msgFlags := flags &&& 0xf0, addrLen := addrLen
              origAddr := origAddr, hoplimit := hoplimit, hopcount := hopcount, seqno := seqno
              tlvs := [], addrs := [] },
      (start.take size.toNat).drop (start.length - c.rest.length), start.drop size.toNat)

/-- `cleanup_parse_message`. -/
def cleanupMessage (tlvs : TlvTree) (addrs : List AddrNode) (heap : PbbHeap) : Option PbbHeap := do
  let heap ← freeAddrs addrs heap
  let (_, heap) ← freeTlvblock tlvs heap
  some heap

section Callbacks

variable {σ : Type}

/-- The message as the callbacks see it. -/
def readMessage (header : Message) (tlvs : TlvTree) (addrs : List AddrNode) (heap : PbbHeap) :
    Option Message := do
  let tlvs ← readTlvs heap tlvs
  let addrs ← readAddrs heap addrs
  some { header with tlvs := tlvs, addrs := addrs }

/-- `cleanup_parse_message`, for a result other than `PBB_OKAY`. -/
def stopMessage (code : HeapResult) (s : σ) (tlvs : TlvTree) (addrs : List AddrNode) (heap : PbbHeap) :
    HeapStop (σ × PbbHeap) :=
  match cleanupMessage tlvs addrs heap with
  | none => .fault .nullPointer
  | some heap => .result code (s, heap)

/-- `_handle_message` from the address blocks on. -/
def handleAddrsHeap (supply : Nat → Bool) (memory : TlvTree) (consumers : Consumers σ) (header : Message)
    (tlvs : TlvTree) (s : σ × PbbHeap) (input : List UInt8) : Except (HeapStop (σ × PbbHeap)) (σ × PbbHeap) :=
  match consumeLoop (parseAddrHeapStep supply memory header.addrLen) (.fault .nullPointer) 0
      input.length ([], s.2) input with
  | .error (.fault fault) => .error (.fault fault)
  | .error (.result code (addrs, heap)) => .error (stopMessage code s.1 tlvs addrs heap)
  | .ok ((addrs, heap), _) =>
      match readMessage header tlvs addrs heap with
      | none => .error (.fault .nullPointer)
      | some message =>
          match scheduleMessage consumers message s.1 with
          | .error fault => .error (.fault fault)
          | .ok s' =>
              match cleanupMessage tlvs addrs heap with
              | none => .error (.fault .nullPointer)
              | some heap => .ok (s', heap)

/-- `_handle_message`. -/
def handleMessageHeap (supply : Nat → Bool) (memory : TlvTree) (consumers : Consumers σ) (s : σ × PbbHeap)
    (input : List UInt8) : Except (HeapStop (σ × PbbHeap)) ((σ × PbbHeap) × List UInt8) :=
  match readMessageHeader input with
  | .error (.fault fault) => .error (.fault fault)
  | .error (.result code) => .error (stopMessage (.parse code) s.1 (avlInit memory true) [] s.2)
  | .ok (header, body, next) =>
      match parseTlvblockHeap supply (avlInit memory true, s.2) body with
      | .error (.fault fault) => .error (.fault fault)
      | .error (.result code (tlvs, heap)) => .error (stopMessage code s.1 tlvs [] heap)
      | .ok ((tlvs, heap), rest) =>
          match handleAddrsHeap supply memory consumers header tlvs (s.1, heap) rest with
          | .error stop => .error stop
          | .ok s' => .ok (s', next)

/-- The result of the message loop of `pbb_reader_handle_packet`. -/
def packetHeapResult :
    Except (HeapStop (σ × PbbHeap)) ((σ × PbbHeap) × List UInt8) → Except Fault (HeapResult × σ × PbbHeap)
  | .ok (s, _) => .ok (.parse .okay, s)
  | .error (.result code s) => .ok (code, s)
  | .error (.fault fault) => .error fault

/-- The message loop, and behind it the end of the packet TLV block. -/
def handleMessagesHeap (supply : Nat → Bool) (memory : TlvTree) (consumers : Consumers σ) (tlvs : TlvTree)
    (s : σ × PbbHeap) (messages : List UInt8) : Except Fault (HeapResult × σ × PbbHeap) :=
  match packetHeapResult (consumeLoop (handleMessageHeap supply memory consumers) (.fault .nullPointer) 0
      messages.length s messages) with
  | .error fault => .error fault
  | .ok (code, s, heap) =>
      match freeTlvblock tlvs heap with
      | none => .error .nullPointer
      | some (_, heap) => .ok (code, s, heap)

/-- `pbb_reader_handle_packet`. -/
def pbbReaderHandlePacketHeap (supply : Nat → Bool) (memory : TlvTree) (consumers : Consumers σ)
    (buffer : List UInt8) (s : σ × PbbHeap) : Except Fault (HeapResult × σ × PbbHeap) :=
  let (firstByte, c) := pbbGetU8 ⟨buffer, .okay⟩
  if firstByte >>> 4 ≠ 0 then .ok (.parse .unsupportedVersion, s)
  else
    let c := if hasFlag firstByte 0x08 then (pbbGetU16 c).2 else c
    if c.result ≠ .okay then .ok (.parse c.result, s)
    else if hasFlag firstByte 0x04 then
      match parseTlvblockHeap supply (avlInit memory true, s.2) c.rest with
      | .error (.fault fault) => .error fault
      | .error (.result code (_, heap)) => .ok (code, s.1, heap)
      | .ok ((tlvs, heap), rest) => handleMessagesHeap supply memory consumers tlvs (s.1, heap) rest
    else handleMessagesHeap supply memory consumers (avlInit memory true) s c.rest

end Callbacks

end Bprd
