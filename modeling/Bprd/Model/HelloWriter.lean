/-
Module: Bprd.Model.HelloWriter
Layer: Model
Purpose: Emission of hello messages (src/hello_writer.c): the callbacks of the message generator and one
  round of the writer thread, a message followed by a flush. The socket is for IPv4 (`socket_init` of
  src/bprd.c), so `sendto` fails for the multicast address of the other family.
Imports: Bprd.Model.PbbWriter, Bprd.Model.HelloReader
Trusted boundary: human-reviewed spec
Main exports: helloSend, commodityBytes, helloAddMsgHeader, helloAddMsgtlvs, helloAddAddresses,
  helloFinMsgHeader,
  helloAddrLen, helloWriterInit, helloCreator, helloCycle
-/
import Bprd.Model.PbbWriter
import Bprd.Model.HelloReader

namespace Bprd

/-- The family of the socket that `socket_init` creates. -/
def socketFamily : UInt8 := afInet

/-- `hello_send`, to the multicast address of the running family. `sendto` fails with `EAFNOSUPPORT` where
    that is not the family of the socket, and otherwise takes or refuses a datagram as `sendto` says. -/
def helloSend (sendto : List UInt8 → Bool) (ipver : UInt8) (buffer : List UInt8) : Except Fault Unit :=
  if ipver = socketFamily ∧ sendto buffer = true then .ok ()
  else .error (.logErr "Unable to send hello!")

/-- The memory image of a `commodity_s_t`; the two bytes of padding hold whatever was there. -/
def commodityBytes (order : Words.ByteOrder) (padding : UInt8 × UInt8) (c : CommodityShort) :
    List UInt8 :=
  c.addr.bytes ++ [padding.1, padding.2] ++ Words.encode32 order c.backlog

/-- The address length of the running family. -/
def helloAddrLen (ipver : UInt8) : Except Fault Nat :=
  if ipver = afInet then .ok 4
  else if ipver = afInet6 then .ok 16
  else .error (.logErr "Unrecognized IP version")

/-- `hello_add_msg_header`: the originator it sets. -/
def helloAddMsgHeader (bprd : BprdT) : Except Fault (List UInt8) :=
  if bprd.ipver = afInet ∨ bprd.ipver = afInet6 then .ok (ownNetaddr bprd.saddr).addr.toList
  else .error (.logErr "Unrecognized IP version")

/-- `hello_fin_msg_header`. -/
def helloFinMsgHeader (bprd : BprdT) : UInt16 × BprdT :=
  (bprd.helloSeqno, { bprd with helloSeqno := bprd.helloSeqno + 1 })

/-- `hello_add_msgtlvs`: one TLV for every commodity. -/
def helloAddMsgtlvs (order : Words.ByteOrder) (padding : Nat → UInt8 × UInt8) (bprd : BprdT) :
    Except Fault (List (UInt8 × UInt8 × List UInt8)) :=
  match helloAddrLen bprd.ipver with
  | .error fault => .error fault
  | .ok _ =>
      .ok (bprd.clist.mapIdx fun i c =>
        (bprdMsgtlvTypeCom, 0, commodityBytes order (padding i) c.cdata))

/-- `hello_add_addresses`: the table is refreshed, and every neighbour left is listed. -/
def helloAddAddresses (clock : Nat → Timeval) (bprd : BprdT) :
    BprdT × List (List UInt8 × UInt8) :=
  let nlist := ntableRefresh bprd.neighborTimeout clock bprd.nlist
  ({ bprd with nlist := nlist }, nlist.map fun n => (n.addr.addr.toList, n.addr.prefixLen))

/-- The message type that `hello_writer_init` registers. -/
def helloCreator (order : Words.ByteOrder) (padding : Nat → UInt8 × UInt8) (clock : Nat → Timeval)
    (addrLen : Nat) : MessageCreator BprdT :=
  { type := bprdMsgTypeHello
    addrLen := addrLen
    hasOrigaddr := true
    hasSeqno := true
    addMessageHeader := helloAddMsgHeader
    addMessageTLVs := helloAddMsgtlvs order padding
    addAddresses := helloAddAddresses clock
    finishMessageHeader := helloFinMsgHeader }

/-- The writer that `hello_writer_init` sets up. -/
def helloWriterInit : PbbWriter :=
  { buffer := List.Vector.replicate mtu 0, header := 0, added := 0, max := 0
    pktBuffer := List.Vector.replicate mtu 0, pktHeader := 0, pktMax := mtu, binMsgsSize := 0
    isFlushed := true }

/-- One round of `hello_writer_thread`: the writer and the daemon afterwards, and the datagrams sent. -/
def helloCycle (order : Words.ByteOrder) (padding : Nat → UInt8 × UInt8) (clock : Nat → Timeval)
    (sendto : List UInt8 → Bool) (writer : PbbWriter) (bprd : BprdT) : Except Fault (Written × BprdT) := do
  let addrLen ← helloAddrLen bprd.ipver
  let sendPacket := helloSend sendto bprd.ipver
  let (out, bprd) ←
    pbbWriterCreateMessage (helloCreator order padding clock addrLen) sendPacket (⟨writer, []⟩, bprd)
  let out ← pbbWriterFlush sendPacket out
  return (out, bprd)

end Bprd
