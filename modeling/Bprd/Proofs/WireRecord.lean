/-
Module: Bprd.Proofs.WireRecord
Layer: Proofs
Purpose: A commodity record between hosts of different byte order. The sender's callback copies the record
  from memory and the receiver's callback copies it back, so the destination always arrives, and the
  backlog arrives when both hosts have one byte order or the backlog's bytes read the same from both ends.
Imports: Bprd.Proofs.HelloRoundTrip, Bprd.Proofs.RouterUpdate
Trusted boundary: none
Main exports: WrittenRecord, StoredRecord, storedRecord_of_written, WireIntact, wireIntact_iff,
  wireIntact_mixed_orders
-/
import Bprd.Proofs.HelloRoundTrip
import Bprd.Proofs.RouterUpdate

namespace Bprd

/-- `tlv` is what the packet parser makes of the TLV that `hello_add_msgtlvs` writes, on a host of the
    order `sender`, for a commodity with the record `cdata`. -/
def WrittenRecord (sender : Words.ByteOrder) (cdata : CommodityShort) (tlv : TlvblockEntry) : Prop :=
  ∃ (bprd : BprdT) (padding : Nat → UInt8 × UInt8) (tlvs : List (UInt8 × UInt8 × List UInt8)) (k : Nat)
    (c : Commodity) (type exttype : UInt8) (value : List UInt8) (entry : TlvblockEntry)
    (rest rest' : List UInt8),
    helloAddMsgtlvs sender padding bprd = .ok tlvs ∧ bprd.clist[k]? = some c ∧ c.cdata = cdata ∧
      tlvs[k]? = some (type, exttype, value) ∧
      parseTlv entry (tlvBytes type exttype value ++ rest) = .ok (tlv, rest')

/-- On a host of the order `receiver`, `hello_cons_msg_tlv` returns on `tlv`, and then the current
    neighbour has the commodity `e` for the destination. -/
def StoredRecord (receiver : Words.ByteOrder) (tlv : TlvblockEntry) (r : HelloReader) (dest : Netaddr)
    (e : Commodity) : Prop :=
  ∃ r' i n, helloConsMsgTlv receiver tlv r = .ok r' ∧ r'.n = some i ∧ r'.nlist[i]? = some n ∧
    KeyedList.lookup Commodity.dest dest n.clist = some e

section

variable {sender receiver : Words.ByteOrder} {cdata : CommodityShort} {tlv : TlvblockEntry}
  {r : HelloReader} {i : Nat} {n : Neighbor}

/-- The parsed TLV carries the record's memory image. -/
theorem WrittenRecord.carries (written : WrittenRecord sender cdata tlv) :
    ∃ padding, TlvCarries (commodityBytes sender padding cdata) tlv := by
  obtain ⟨bprd, padding, tlvs, k, c, type, exttype, value, entry, rest, rest', wrote, listed, rfl,
    at_k, parsed⟩ := written
  have shape : tlvs = bprd.clist.mapIdx fun i c =>
      (bprdMsgtlvTypeCom, 0, commodityBytes sender (padding i) c.cdata) := by
    unfold helloAddMsgtlvs at wrote
    split at wrote
    · cases wrote
    · cases wrote
      rfl
  rw [shape, List.getElem?_mapIdx, listed] at at_k
  cases at_k
  obtain ⟨tlv', parsed', carries⟩ :=
    parseTlv_commodity (commodityBytes_length (padding k) c.cdata) entry rest
  rw [parsed'] at parsed
  cases parsed
  exact ⟨padding k, carries⟩

theorem exists_writtenRecord (sender : Words.ByteOrder) (cdata : CommodityShort) :
    ∃ tlv, WrittenRecord sender cdata tlv := by
  have size : (commodityBytes sender (0, 0) cdata).length = sizeofCommodityS := commodityBytes_length _ _
  obtain ⟨tlv, parsed, _⟩ := parseTlv_commodity size clearedEntry []
  let c : Commodity := { cdata := cdata, backdiff := 0, nfqId := 0, queue := none }
  let bprd : BprdT :=
    { ipver := afInet, ifIndex := 0, saddr := ⟨afInet, []⟩, helloSeqno := 0, neighborTimeout := 0
      clist := [c], nlist := [] }
  exact ⟨tlv, bprd, fun _ => (0, 0), _, 0, c, _, _, _, clearedEntry, [], [], rfl, rfl, rfl, rfl, parsed⟩

/-- Once a record is stored, its destination is found with it. -/
theorem recordCommodity_self (cdata : CommodityShort) (clist : List Commodity) :
    ∃ e, KeyedList.lookup Commodity.dest cdata.addr (recordCommodity cdata clist) = some e ∧
      e.cdata = cdata := by
  rw [recordCommodity_eq_upsert,
    KeyedList.lookup_upsert_self _ (setBacklog_dest _) (heardCommodity_dest cdata)]
  refine ⟨_, rfl, ?_⟩
  cases found : KeyedList.lookup Commodity.dest cdata.addr clist with
  | none => rfl
  | some e =>
      have dest : e.dest = cdata.addr := KeyedList.lookup_key found
      simp only [Commodity.dest] at dest
      simp only [Option.getD_some, setBacklog, dest]

/-- What the callback stores for a record that another host wrote. -/
theorem storedRecord_of_written (receiver : Words.ByteOrder) (written : WrittenRecord sender cdata tlv)
    (current : r.n = some i) (at_i : r.nlist[i]? = some n) :
    ∃ e, StoredRecord receiver tlv r cdata.addr e ∧ e.cdata =
      { addr := cdata.addr
        backlog := Words.decode32 receiver (Words.encode32 sender cdata.backlog) } := by
  obtain ⟨padding, carries⟩ := written.carries
  have read : commodityFromBytes receiver (tlv.singleValue.take sizeofCommodityS) =
      { addr := cdata.addr
        backlog := Words.decode32 receiver (Words.encode32 sender cdata.backlog) } := by
    rw [carries.value, commodityFromBytes_written]
  obtain ⟨e, found, same⟩ := recordCommodity_self
    { addr := cdata.addr
      backlog := Words.decode32 receiver (Words.encode32 sender cdata.backlog) } n.clist
  refine ⟨e, ⟨{ r with
    nlist := r.nlist.modify i fun n => { n with
      clist := recordCommodity
        { addr := cdata.addr
          backlog := Words.decode32 receiver (Words.encode32 sender cdata.backlog) } n.clist } },
    i, { n with
      clist := recordCommodity
        { addr := cdata.addr
          backlog := Words.decode32 receiver (Words.encode32 sender cdata.backlog) } n.clist },
    ?_, current, ?_, found⟩, same⟩
  · rw [helloConsMsgTlv, if_pos carries.isCommodity, current]
    simp only [read]
  · rw [List.getElem?_modify_eq, at_i]
    rfl

/-- The callback's result is determined. -/
theorem StoredRecord.unique {dest : Netaddr} {e e' : Commodity}
    (stored : StoredRecord receiver tlv r dest e) (stored' : StoredRecord receiver tlv r dest e') :
    e = e' := by
  obtain ⟨r₁, i₁, n₁, ran, current, at_i, found⟩ := stored
  obtain ⟨r₂, i₂, n₂, ran', current', at_i', found'⟩ := stored'
  rw [ran] at ran'
  cases ran'
  rw [current] at current'
  cases current'
  rw [at_i] at at_i'
  cases at_i'
  rw [found] at found'
  cases found'
  rfl

end

/-- The record does not depend on the hosts: whatever a host of the order `sender` writes for it, a host of
    the order `receiver` stores the same destination and backlog for its current neighbour, and computes
    from it the own backlog minus the sender's true backlog, clamped at 0. -/
def WireIntact (sender receiver : Words.ByteOrder) (cdata : CommodityShort) : Prop :=
  ∀ tlv, WrittenRecord sender cdata tlv → ∀ (r : HelloReader) (i : Nat) (n : Neighbor), r.n = some i →
    r.nlist[i]? = some n →
      ∃ e, StoredRecord receiver tlv r cdata.addr e ∧ e.cdata = cdata ∧
        ∀ clist own, ownOf clist cdata.addr = some own →
          ∃ e', updateBackdiff clist e = .ok e' ∧
            e'.backdiff.toNat = own.cdata.backlog.toNat - cdata.backlog.toNat

/-- A record that survives has a backlog that survives the copy. -/
theorem WireIntact.backlog {sender receiver : Words.ByteOrder} {cdata : CommodityShort}
    (intact : WireIntact sender receiver cdata) :
    Words.decode32 receiver (Words.encode32 sender cdata.backlog) = cdata.backlog := by
  obtain ⟨tlv, written⟩ := exists_writtenRecord sender cdata
  let n : Neighbor := { addr := uninitNetaddr, bidir := 0, updateTime := ⟨0, 0⟩, clist := [] }
  let r : HelloReader := { HelloReader.start [n] with n := some 0 }
  obtain ⟨e, stored, same, _⟩ := intact tlv written r 0 n rfl rfl
  obtain ⟨e', stored', read⟩ := storedRecord_of_written receiver written (r := r) (i := 0) (n := n) rfl rfl
  rw [stored'.unique stored, same] at read
  exact (congrArg CommodityShort.backlog read).symm

/-- A record survives exactly when the two hosts have the same byte order or the backlog's four bytes read
    the same from both ends. -/
theorem wireIntact_iff {sender receiver : Words.ByteOrder} {cdata : CommodityShort} :
    WireIntact sender receiver cdata ↔ sender = receiver ∨ Words.Symmetric cdata.backlog := by
  rw [← Words.decode32_encode32_iff]
  constructor
  · exact WireIntact.backlog
  · intro survives tlv written r i n current at_i
    obtain ⟨e, stored, read⟩ := storedRecord_of_written receiver written current at_i
    rw [survives] at read
    refine ⟨e, stored, read, ?_⟩
    intro clist own isOwn
    refine ⟨_, updateBackdiff_ok.mpr ⟨own, by rw [read]; exact isOwn, rfl⟩, ?_⟩
    rw [toNat_clampedDiff, read]

/-- A backlog of 1 that a little-endian host sends arrives at a big-endian host as 16777216. -/
theorem wireIntact_mixed_orders :
    Words.decode32 .big (Words.encode32 .little 1) = 16777216 ∧
      ¬WireIntact .little .big { addr := host4 [10, 0, 0, 9], backlog := 1 } := by
  have read : Words.decode32 .big (Words.encode32 .little 1) = 16777216 := by decide
  refine ⟨read, fun intact => ?_⟩
  have survives := intact.backlog
  rw [read] at survives
  exact absurd survives (by decide)

end Bprd
