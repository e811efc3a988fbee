/-
Module: Bprd.Proofs.HelloParse
Layer: Proofs
Purpose: The packet parser on the bytes of a hello. Reading inverts writing level by level: a commodity
  TLV, the TLV block, an address block, the message, and the packet around it.
Imports: Bprd.Proofs.HelloLayout, Bprd.Proofs.PacketScan
Trusted boundary: none
Main exports: TlvCarries, AddrCarries, HelloCarries, parseTlv_commodity, parseAddrStep_block,
  parseMessage_hello
-/
import Bprd.Proofs.HelloLayout
import Bprd.Proofs.PacketScan

namespace Bprd

open ConsumeLoop (consumeLoop consumeLoop_encoded length_le_flatMap)
open Fallible (bind_eq_ok_iff)

theorem pbbGetU16_u16Bytes (value : UInt16) (rest : List UInt8) :
    pbbGetU16 ⟨u16Bytes value ++ rest, .okay⟩ = (value, ⟨rest, .okay⟩) := by
  show (Words.join16 (value >>> 8).toUInt8 value.toUInt8, (⟨rest, .okay⟩ : Cursor)) = _
  rw [Words.join16_split16]

/-! ### TLVs -/

/-- A parsed TLV that carries a commodity's memory image. -/
structure TlvCarries (value : List UInt8) (tlv : TlvblockEntry) : Prop where
  isCommodity : tlv.type = bprdMsgtlvTypeCom ∧ tlv.length.toNat = sizeofCommodityS
  order : tlv.intOrder = 256
  everywhere : tlv.index1 = 0 ∧ tlv.index2 = 255
  single : tlv.intMultivalueTlv = false
  value : tlv.singleValue.take sizeofCommodityS = value

theorem parseTlv_commodity {value : List UInt8} (size : value.length = sizeofCommodityS)
    (entry : TlvblockEntry) (rest : List UInt8) :
    ∃ tlv, parseTlv entry (tlvBytes bprdMsgtlvTypeCom 0 value ++ rest) = .ok (tlv, rest) ∧
      TlvCarries value tlv := by
  have bytes : tlvBytes bprdMsgtlvTypeCom 0 value ++ rest = 1 :: 0x10 :: 24 :: (value ++ rest) := by
    simp [tlvBytes, size, sizeofCommodityS, bprdMsgtlvTypeCom]
  have enough : ¬(value ++ rest).length < (24 : UInt8).toUInt16.toNat := by
    rw [List.length_append, size]
    exact Nat.not_lt.mpr (Nat.le_add_right _ _)
  have front : (value ++ rest).drop (24 : UInt8).toUInt16.toNat = rest := by
    have exact_ : (24 : UInt8).toUInt16.toNat = value.length := size.symm
    rw [exact_, List.drop_left]
  refine ⟨{ entry with
    type := 1, flags := 0x10, typeExt := 0, length := (24 : UInt8).toUInt16, index1 := 0
    index2 := 255, intOrder := 256, intMultivalueTlv := false, intValue := value ++ rest
    singleValue := value ++ rest }, ?_, ⟨rfl, rfl⟩, rfl, ⟨rfl, rfl⟩, rfl, ?_⟩
  · rw [bytes, parseTlv]
    simp only [pbbGetU8, readTypeExt, readIndex, readLength, ne_eq, not_true_eq_false, if_false,
      show hasFlag 0x10 0x80 = false from rfl, show hasFlag 0x10 0x40 = false from rfl,
      show hasFlag 0x10 0x20 = false from rfl, show hasFlag 0x10 0x10 = true from rfl,
      show hasFlag 0x10 0x08 = false from rfl, show hasFlag 0x10 0x04 = false from rfl,
      Bool.false_eq_true, enough, front]
    rfl
  · rw [← size, List.take_left]

/-- Equal keys are inserted behind each other. -/
theorem insertTlv_last {entry : TlvblockEntry} : ∀ {tlvblock : List TlvblockEntry},
    (∀ e ∈ tlvblock, e.intOrder = entry.intOrder) → insertTlv entry tlvblock = tlvblock ++ [entry]
  | [], _ => rfl
  | e :: tlvblock, same => by
      have later : ¬entry.intOrder < e.intOrder := by
        rw [same e (List.mem_cons_self ..)]
        exact UInt16.lt_irrefl _
      rw [insertTlv, if_neg later,
        insertTlv_last fun f member => same f (List.mem_cons_of_mem _ member)]
      rfl

theorem parseTlvStep_commodity {values : List (List UInt8)} {value : List UInt8}
    {s : TlvblockEntry × List TlvblockEntry} (size : value.length = sizeofCommodityS)
    (rest : List UInt8) (carries : List.Forall₂ TlvCarries values s.2) :
    ∃ s', parseTlvStep s (tlvBytes bprdMsgtlvTypeCom 0 value ++ rest) = .ok (s', rest) ∧
      List.Forall₂ TlvCarries (values ++ [value]) s'.2 := by
  obtain ⟨tlv, parsed, carried⟩ := parseTlv_commodity size s.1 rest
  refine ⟨(tlv, insertTlv tlv s.2), ?_, ?_⟩
  · rw [parseTlvStep, parsed]
  · have last : insertTlv tlv s.2 = s.2 ++ [tlv] := by
      apply insertTlv_last
      intro e member
      obtain ⟨_, _, known⟩ := Fallible.related_mem carries member
      rw [known.order, carried.order]
    rw [last]
    exact List.rel_append carries (.cons carried .nil)

/-- A block of commodity TLVs is read in order, up to its length. -/
theorem parseTlvblock_commodities {values : List (List UInt8)} {length : UInt16}
    (sizes : ∀ value ∈ values, value.length = sizeofCommodityS)
    (isLength : length.toNat = (values.flatMap (tlvBytes bprdMsgtlvTypeCom 0)).length)
    (tail : List UInt8) :
    ∃ tlvs, parseTlvblock
        (u16Bytes length ++ (values.flatMap (tlvBytes bprdMsgtlvTypeCom 0) ++ tail)) =
          .ok (tlvs, tail) ∧ List.Forall₂ TlvCarries values tlvs := by
  have nonempty : ∀ value, value.length = sizeofCommodityS →
      tlvBytes bprdMsgtlvTypeCom 0 value ≠ [] := by
    intro value size empty
    have length := tlvBytes_length size
    rw [empty] at length
    cases length
  have fuel : values.length ≤ (values.flatMap (tlvBytes bprdMsgtlvTypeCom 0) ++ tail).length := by
    rw [List.length_append]
    exact Nat.le_add_right_of_le
      (length_le_flatMap fun value member => nonempty value (sizes value member))
  obtain ⟨s', ran, carries⟩ : ∃ s', consumeLoop parseTlvStep (.result .endOfBuffer) tail.length
      (values.flatMap (tlvBytes bprdMsgtlvTypeCom 0) ++ tail).length (clearedEntry, [])
        (values.flatMap (tlvBytes bprdMsgtlvTypeCom 0) ++ tail) = .ok (s', tail) ∧
      List.Forall₂ TlvCarries ([] ++ values) s'.2 :=
    consumeLoop_encoded (motive := fun done (s : TlvblockEntry × List TlvblockEntry) =>
      List.Forall₂ TlvCarries done s.2) nonempty
      (fun _ _ _ rest size carries => parseTlvStep_commodity size rest carries) sizes fuel .nil
  refine ⟨s'.2, ?_, carries⟩
  have inside : ¬(values.flatMap (tlvBytes bprdMsgtlvTypeCom 0) ++ tail).length < length.toNat := by
    rw [List.length_append, isLength]
    omega
  have stop : (values.flatMap (tlvBytes bprdMsgtlvTypeCom 0) ++ tail).length - length.toNat =
      tail.length := by
    rw [List.length_append, isLength]
    omega
  rw [parseTlvblock, pbbGetU16_u16Bytes]
  simp only [inside, if_false, ne_eq, not_true_eq_false, stop]
  rw [ran]

theorem parseTlvblock_empty (rest : List UInt8) : parseTlvblock (0 :: 0 :: rest) = .ok ([], rest) := by
  obtain ⟨tlvs, parsed, carries⟩ := @parseTlvblock_commodities [] 0 (by simp) rfl rest
  cases carries
  exact parsed

/-! ### Addresses -/

/-- A parsed block that carries one address of a family. -/
structure AddrCarries (ipver : UInt8) (a : WriterAddress) (entry : AddrblockEntry) : Prop where
  noTlvs : entry.tlvblock = []
  fits : ∀ i < entry.numAddr.toNat, (assembleAddr entry i).isSome
  assembled : entry.assembled.map (hostAddr ipver) = [hostAddr ipver a.addr]

/-- Only the bytes of the family's length count. -/
theorem hostAddr_append {ipver : UInt8} (running : RunningFamily ipver) {bytes : List UInt8}
    (len : bytes.length = familyLen ipver) (more : List UInt8) :
    hostAddr ipver (bytes ++ more) = hostAddr ipver bytes := by
  rcases running with rfl | rfl
  · have four : bytes.length = 4 := len
    simp only [hostAddr, if_true, host4, List.take_append_of_le_length (Nat.le_of_eq four.symm)]
  · have sixteen : bytes.length = 16 := len
    have other : ¬afInet6 = afInet := by decide
    simp only [hostAddr, other, if_false,
      List.take_append_of_le_length (Nat.le_of_eq sixteen.symm)]

/-- The entry of a block with one address. -/
def oneAddrEntry (len prefixlen : UInt8) (source : List UInt8) : AddrblockEntry :=
  { numAddr := 1, midStart := 0, midLen := len, midSrc := source
    addr := List.Vector.replicate pbbMaxAddrlen 0, prefixlen := prefixlen, prefixes := []
    tlvblock := [] }

theorem oneAddrEntry_carries {ipver : UInt8} (running : RunningFamily ipver) {a : WriterAddress}
    {len : UInt8} (isLen : len.toNat = familyLen ipver) (size : a.addr.length = familyLen ipver)
    (prefixlen : UInt8) (rest : List UInt8) :
    AddrCarries ipver a (oneAddrEntry len prefixlen (a.addr ++ rest)) := by
  have source : ((a.addr ++ rest).drop (len.toNat * 0)).take len.toNat = a.addr := by
    rw [Nat.mul_zero, List.drop_zero, isLen, ← size, List.take_left]
  obtain ⟨bytes, written⟩ : ∃ bytes,
      Buffer.write (List.Vector.replicate pbbMaxAddrlen (0 : UInt8)) 0 a.addr = some bytes := by
    apply Buffer.exists_write
    rw [size, Nat.zero_add]
    exact familyLen_le ipver
  have assembled : assembleAddr (oneAddrEntry len prefixlen (a.addr ++ rest)) 0 = some bytes := by
    rw [assembleAddr]
    simp only [oneAddrEntry]
    rw [source]
    exact written
  refine ⟨rfl, ?_, ?_⟩
  · intro i inside
    have first : i = 0 := Nat.lt_one_iff.mp inside
    rw [first, assembled]
    rfl
  · have indexes : List.range (oneAddrEntry len prefixlen (a.addr ++ rest)).numAddr.toNat = [0] := rfl
    have front := Buffer.toList_write written
    rw [List.take_zero, List.nil_append, Nat.zero_add] at front
    rw [AddrblockEntry.assembled, indexes, List.filterMap_cons, assembled]
    simp only [Option.map_some, List.filterMap_nil, List.map_cons, List.map_nil]
    rw [front, hostAddr_append running size]

theorem parseAddrStep_block {ipver : UInt8} (running : RunningFamily ipver) {a : WriterAddress}
    {len : UInt8} (isLen : len.toNat = familyLen ipver) (size : a.addr.length = familyLen ipver)
    (addrs : List AddrblockEntry) (rest : List UInt8) :
    ∃ entry, parseAddrStep len addrs (addressBlock (familyLen ipver) a ++ rest) =
        .ok (addrs ++ [entry], rest) ∧ AddrCarries ipver a entry := by
  have drops : ∀ more : List UInt8, (a.addr ++ more).drop (len.toNat * (1 : UInt8).toNat) = more := by
    intro more
    have whole : len.toNat * (1 : UInt8).toNat = a.addr.length := by
      rw [size, ← isLen]
      exact Nat.mul_one _
    rw [whole, List.drop_left]
  have enough : ∀ more : List UInt8, ¬(a.addr ++ more).length < len.toNat * (1 : UInt8).toNat := by
    intro more
    rw [List.length_append, size, ← isLen]
    show ¬_ < len.toNat * 1
    omega
  unfold addressBlock
  split
  · -- A prefix length that is not the address length is written behind the address.
    refine ⟨oneAddrEntry len a.prefixlen (a.addr ++ a.prefixlen :: 0 :: 0 :: rest), ?_,
      oneAddrEntry_carries running isLen size _ _⟩
    have block : parseAddrblock len (1 :: 0x10 :: (a.addr ++ a.prefixlen :: 0 :: 0 :: rest)) =
        .ok (oneAddrEntry len a.prefixlen (a.addr ++ a.prefixlen :: 0 :: 0 :: rest),
          0 :: 0 :: rest) := by
      unfold parseAddrblock
      simp only [pbbGetU8, ne_eq, not_true_eq_false, if_false, readHead, readTail, readPrefixes,
        show hasFlag 0x10 0x80 = false from rfl, show hasFlag 0x10 0x40 = false from rfl,
        show hasFlag 0x10 0x20 = false from rfl, show hasFlag 0x10 0x10 = true from rfl,
        show hasFlag 0x10 0x08 = false from rfl, Bool.false_eq_true, bind, Except.bind, enough, drops,
        show ¬(1 : UInt8) = 0 from by decide]
      rfl
    have shape : [1, 0x10] ++ a.addr ++ [a.prefixlen, 0, 0] ++ rest =
        1 :: 0x10 :: (a.addr ++ a.prefixlen :: 0 :: 0 :: rest) := by
      simp
    rw [shape, parseAddrStep, block]
    simp only [bind, Except.bind]
    rw [parseTlvblock_empty]
    rfl
  · refine ⟨oneAddrEntry len (len * 8) (a.addr ++ 0 :: 0 :: rest), ?_,
      oneAddrEntry_carries running isLen size _ _⟩
    have block : parseAddrblock len (1 :: 0 :: (a.addr ++ 0 :: 0 :: rest)) =
        .ok (oneAddrEntry len (len * 8) (a.addr ++ 0 :: 0 :: rest), 0 :: 0 :: rest) := by
      unfold parseAddrblock
      simp only [pbbGetU8, ne_eq, not_true_eq_false, if_false, readHead, readTail, readPrefixes,
        show hasFlag 0 0x80 = false from rfl, show hasFlag 0 0x40 = false from rfl,
        show hasFlag 0 0x20 = false from rfl, show hasFlag 0 0x10 = false from rfl,
        show hasFlag 0 0x08 = false from rfl, Bool.false_eq_true, bind, Except.bind, enough, drops,
        show ¬(1 : UInt8) = 0 from by decide]
      rfl
    have shape : [1, 0] ++ a.addr ++ [0, 0] ++ rest = 1 :: 0 :: (a.addr ++ 0 :: 0 :: rest) := by
      simp
    rw [shape, parseAddrStep, block]
    simp only [bind, Except.bind]
    rw [parseTlvblock_empty]
    rfl

theorem addressBlock_ne_nil (addrLen : Nat) (a : WriterAddress) : addressBlock addrLen a ≠ [] := by
  unfold addressBlock
  split
  · exact List.cons_ne_nil _ _
  · exact List.cons_ne_nil _ _

/-- The address blocks of a message are read in order, to the end. -/
theorem parseAddrs_fragment {ipver : UInt8} (running : RunningFamily ipver) {len : UInt8}
    (isLen : len.toNat = familyLen ipver) {fragment : List WriterAddress}
    (sizes : ∀ a ∈ fragment, a.addr.length = familyLen ipver) :
    ∃ addrs, consumeLoop (parseAddrStep len) (.result .endOfBuffer) 0
        (fragment.flatMap (addressBlock (familyLen ipver))).length []
        (fragment.flatMap (addressBlock (familyLen ipver))) = .ok (addrs, []) ∧
      List.Forall₂ (AddrCarries ipver) fragment addrs := by
  have fuel := @length_le_flatMap _ _ (addressBlock (familyLen ipver)) fragment
    fun a _ => addressBlock_ne_nil (familyLen ipver) a
  obtain ⟨addrs, ran, carries⟩ : ∃ addrs, consumeLoop (parseAddrStep len) (.result .endOfBuffer)
      ([] : List UInt8).length (fragment.flatMap (addressBlock (familyLen ipver))).length []
        (fragment.flatMap (addressBlock (familyLen ipver)) ++ []) = .ok (addrs, []) ∧
      List.Forall₂ (AddrCarries ipver) ([] ++ fragment) addrs :=
    consumeLoop_encoded
      (motive := fun done (addrs : List AddrblockEntry) => List.Forall₂ (AddrCarries ipver) done addrs)
      (fun a _ => addressBlock_ne_nil (familyLen ipver) a)
      (fun done addrs a rest size carries => by
        obtain ⟨entry, parsed, carried⟩ := parseAddrStep_block running isLen size addrs rest
        exact ⟨_, parsed, List.rel_append carries (.cons carried .nil)⟩) sizes fuel .nil
  rw [List.append_nil] at ran
  exact ⟨addrs, ran, carries⟩

/-! ### Messages and packets -/

/-- A parsed message that carries what was written into it. -/
structure HelloCarries (ipver : UInt8) (orig : List UInt8) (values : List (List UInt8))
    (fragment : List WriterAddress) (m : Message) : Prop where
  isHello : m.msgType = bprdMsgTypeHello
  originator : m.origAddr = some orig
  family : m.addrLen.toNat = familyLen ipver
  tlvs : List.Forall₂ TlvCarries values m.tlvs
  addrs : List.Forall₂ (AddrCarries ipver) fragment m.addrs

/-- The flags that the writer sets for a family. -/
def helloFlags (ipver : UInt8) : UInt8 := UInt8.ofNat (familyLen ipver - 1) ||| 0x80 ||| 0x10

theorem helloFlags_fields {ipver : UInt8} (running : RunningFamily ipver) :
    hasFlag (helloFlags ipver) 0x80 = true ∧ hasFlag (helloFlags ipver) 0x40 = false ∧
      hasFlag (helloFlags ipver) 0x20 = false ∧ hasFlag (helloFlags ipver) 0x10 = true ∧
      ((helloFlags ipver &&& 0x0f) + 1).toNat = familyLen ipver := by
  rcases running with rfl | rfl
  · decide
  · decide

/-- The bytes of a message as the reader takes them apart. -/
def messageBytes (ipver : UInt8) (orig : List UInt8) (size seqno : UInt16) (body : List UInt8) :
    List UInt8 :=
  bprdMsgTypeHello :: helloFlags ipver :: (u16Bytes size ++ (orig ++ (u16Bytes seqno ++ body)))

theorem parseMessage_hello {ipver : UInt8} (running : RunningFamily ipver) {orig : List UInt8}
    (origSize : orig.length = familyLen ipver) {size seqno length : UInt16}
    {values : List (List UInt8)} {fragment : List WriterAddress}
    (sizes : ∀ value ∈ values, value.length = sizeofCommodityS)
    (isLength : length.toNat = (values.flatMap (tlvBytes bprdMsgtlvTypeCom 0)).length)
    (addrSizes : ∀ a ∈ fragment, a.addr.length = familyLen ipver)
    (isSize : size.toNat = (messageBytes ipver orig size seqno (u16Bytes length ++
      (values.flatMap (tlvBytes bprdMsgtlvTypeCom 0) ++
        fragment.flatMap (addressBlock (familyLen ipver))))).length) :
    ∃ m, parseMessage (messageBytes ipver orig size seqno (u16Bytes length ++
        (values.flatMap (tlvBytes bprdMsgtlvTypeCom 0) ++
          fragment.flatMap (addressBlock (familyLen ipver))))) = .ok (m, []) ∧
      HelloCarries ipver orig values fragment m ∧ m.seqno = some seqno := by
  obtain ⟨hasOrig, noHoplimit, noHopcount, hasSeqno, isLen⟩ := helloFlags_fields running
  obtain ⟨tlvs, block, tlvsCarry⟩ := parseTlvblock_commodities sizes isLength
    (fragment.flatMap (addressBlock (familyLen ipver)))
  obtain ⟨addrs, loop, addrsCarry⟩ := parseAddrs_fragment running isLen addrSizes
  generalize (u16Bytes length ++ (values.flatMap (tlvBytes bprdMsgtlvTypeCom 0) ++
    fragment.flatMap (addressBlock (familyLen ipver)))) = body at block isSize ⊢
  have origin : ∀ rest : List UInt8, readOrigAddr (helloFlags ipver) ((helloFlags ipver &&& 0x0f) + 1)
      ⟨orig ++ rest, .okay⟩ = .ok (some orig, ⟨rest, .okay⟩) := by
    intro rest
    have enough : ¬(orig ++ rest).length < ((helloFlags ipver &&& 0x0f) + 1).toNat := by
      rw [isLen, ← origSize, List.length_append]
      omega
    rw [readOrigAddr, if_pos hasOrig]
    simp only [if_neg enough]
    rw [isLen, ← origSize, List.take_left, List.drop_left]
  have bodyIs : ((messageBytes ipver orig size seqno body).take size.toNat).drop
      ((messageBytes ipver orig size seqno body).length - body.length) = body := by
    rw [isSize, List.take_length]
    have shape : messageBytes ipver orig size seqno body =
        (bprdMsgTypeHello :: helloFlags ipver :: (u16Bytes size ++ (orig ++ u16Bytes seqno))) ++
          body := by
      simp [messageBytes]
    rw [shape, List.length_append, Nat.add_sub_cancel, List.drop_left]
  have inside : ¬(messageBytes ipver orig size seqno body).length < size.toNat := by
    rw [isSize]
    exact Nat.lt_irrefl _
  have last : (messageBytes ipver orig size seqno body).drop size.toNat = [] := by
    rw [isSize, List.drop_length]
  refine ⟨{ msgType := bprdMsgTypeHello, msgFlags := helloFlags ipver &&& 0xf0
            addrLen := (helloFlags ipver &&& 0x0f) + 1, origAddr := some orig, hoplimit := none
            hopcount := none, seqno := some seqno, tlvs := tlvs, addrs := addrs }, ?_,
    ⟨rfl, rfl, isLen, tlvsCarry, addrsCarry⟩, rfl⟩
  have type : pbbGetU8 ⟨messageBytes ipver orig size seqno body, .okay⟩ =
      (bprdMsgTypeHello, ⟨helloFlags ipver ::
        (u16Bytes size ++ (orig ++ (u16Bytes seqno ++ body))), .okay⟩) := rfl
  have flags : ∀ rest : List UInt8, pbbGetU8 ⟨helloFlags ipver :: rest, .okay⟩ =
      (helloFlags ipver, ⟨rest, .okay⟩) := fun _ => rfl
  unfold parseMessage
  simp only [type, flags, pbbGetU16_u16Bytes, origin, readOptional, noHoplimit, noHopcount, hasSeqno,
    Bool.false_eq_true, if_false, if_true, bind, Except.bind, inside, bodyIs, last, ne_eq,
    not_true_eq_false]
  rw [block]
  simp only
  rw [loop]
  rfl

end Bprd
