/-
Module: Bprd.Model.HelloReader
Layer: Model
Purpose: Reception of hello messages (src/hello_reader.c): the callbacks that fill the neighbour table
  while the packet parser runs. They share a static pointer to the neighbour of the current message;
  every message sets it before it is used, so a datagram may start with it null.
Imports: Bprd.Model.PbbReader, Bprd.Model.Ntable
Trusted boundary: human-reviewed spec
Main exports: Ambient, HelloReader, HelloReader.start, commodityFromBytes, helloConsMsgStart, helloConsMsgTlv,
  helloConsAddrStart, helloConsAddrTlv, helloConsumers, helloRecv
-/
import Bprd.Model.PbbReader
import Bprd.Model.Ntable

namespace Bprd

/-- `BPRD_MSG_TYPE_HELLO`. -/
def bprdMsgTypeHello : UInt8 := 1

/-- `BPRD_MSGTLV_TYPE_COM`. -/
def bprdMsgtlvTypeCom : UInt8 := 1

/-- `sizeof(commodity_s_t)`: 18 bytes of address, 2 of padding, 4 of backlog. -/
def sizeofCommodityS : Nat := 24

/-- What a datagram's callbacks read that the daemon's state does not determine: `clock k` is the k-th
    reading of `gettimeofday`, the k-th record in automatic or fresh heap memory holds `uninit k`, and the
    union into which the k-th call of `hello_cons_addr_start` copies the own address held `leftover k`. -/
structure Ambient where
  clock : Nat → Timeval
  uninit : Nat → Netaddr
  leftover : Nat → Leftover

/-- The reader's state: the neighbour list, the static pointer `n`, and how often the clock and
    uninitialised memory have been read and the own address has been copied so far. -/
structure HelloReader where
  nlist : List Neighbor
  n : Option Nat
  readings : Nat
  calls : Nat
  copies : Nat

/-- A `commodity_s_t` read from memory. -/
def commodityFromBytes (order : Words.ByteOrder) (bytes : List UInt8) : CommodityShort :=
  { addr := ⟨padAddr (bytes.take 16), bytes.getD 16 0, bytes.getD 17 0⟩
    backlog := Words.decode32 order (bytes.drop 20) }

section Callbacks

variable (bprd : BprdT) (order : Words.ByteOrder) (ambient : Ambient)

/-- `hello_cons_msg_start`. -/
def helloConsMsgStart (context : Message) (r : HelloReader) : Except Fault HelloReader :=
  if context.msgType ≠ bprdMsgTypeHello then
    .error (.assertion "context->msg_type == BPRD_MSG_TYPE_HELLO")
  else
    match context.origAddr with
    | none => .error (.assertion "context->has_origaddr")
    | some origAddr =>
        let fromBinary := fun dst =>
          (netaddrFromBinary dst origAddr context.addrLen.toNat bprd.ipver).2
        let updateTime := ambient.clock r.readings
        let ntemp : Neighbor :=
          { addr := fromBinary (ambient.uninit r.calls), bidir := 0, updateTime := updateTime
            clist := [] }
        match nlistFind r.nlist ntemp with
        | some i =>
            .ok { r with
              nlist := r.nlist.modify i fun n => { n with updateTime := updateTime }
              n := some i, readings := r.readings + 1, calls := r.calls + 1 }
        | none =>
            let n := { ntemp with addr := fromBinary (ambient.uninit (r.calls + 1)) }
            .ok { r with
              nlist := listInsert r.nlist n, n := some 0
              readings := r.readings + 1, calls := r.calls + 2 }

/-- The list work of `hello_cons_msg_tlv`: find the commodity or create it, then store the backlog. -/
def recordCommodity (cdata : CommodityShort) (clist : List Commodity) : List Commodity :=
  let comtemp : Commodity := { cdata := cdata, backdiff := 0, nfqId := 0, queue := none }
  match clistFind clist comtemp with
  | some i => clist.modify i fun com => { com with cdata := { com.cdata with backlog := cdata.backlog } }
  | none => listInsert clist comtemp

/-- `hello_cons_msg_tlv`. -/
def helloConsMsgTlv (tlv : TlvblockEntry) (r : HelloReader) : Except Fault HelloReader :=
  if tlv.type = bprdMsgtlvTypeCom ∧ tlv.length.toNat = sizeofCommodityS then
    match r.n with
    | none => .error .nullPointer
    | some i =>
        let cdata := commodityFromBytes order (tlv.singleValue.take sizeofCommodityS)
        .ok { r with
          nlist := r.nlist.modify i fun n => { n with clist := recordCommodity cdata n.clist } }
  else .error (.logErr "Unrecognized TLV parameters")

/-- `hello_cons_addr_start`. -/
def helloConsAddrStart (context : Message) (addr : List UInt8) (r : HelloReader) :
    Except Fault HelloReader :=
  let naddr1 :=
    (netaddrFromBinary (ambient.uninit r.calls) addr context.addrLen.toNat bprd.ipver).2
  let naddr2 := copiedNetaddr (ambient.leftover r.copies) bprd.saddr
  if netaddrCmp naddr1 naddr2 = 0 then
    match r.n with
    | none => .error .nullPointer
    | some i =>
        .ok { r with
          nlist := r.nlist.modify i fun n => { n with bidir := 1 }
          calls := r.calls + 1, copies := r.copies + 1 }
  else .ok { r with calls := r.calls + 1, copies := r.copies + 1 }

/-- `hello_cons_addr_tlv`. -/
def helloConsAddrTlv (_ : TlvblockEntry) (_ : HelloReader) : Except Fault HelloReader :=
  .error (.logErr "Addresses should not have tlv's!")

/-- The consumers that `hello_reader_init` registers. -/
def helloConsumers : Consumers HelloReader :=
  { msgId := bprdMsgTypeHello
    msgStart := helloConsMsgStart bprd ambient
    msgTlv := helloConsMsgTlv order
    addrStart := helloConsAddrStart bprd ambient
    addrTlv := helloConsAddrTlv }

/-- The reader when a datagram comes. -/
def HelloReader.start (nlist : List Neighbor) : HelloReader :=
  { nlist := nlist, n := none, readings := 0, calls := 0, copies := 0 }

/-- `hello_recv`. The result code of the parser is not looked at. -/
def helloRecv (buf : List UInt8) : Except Fault BprdT :=
  match pbbReaderHandlePacket (helloConsumers bprd order ambient) buf (.start bprd.nlist) with
  | .error fault => .error fault
  | .ok (_, r) => .ok { bprd with nlist := r.nlist }

end Callbacks

end Bprd
