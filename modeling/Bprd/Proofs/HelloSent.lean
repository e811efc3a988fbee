/-
Module: Bprd.Proofs.HelloSent
Layer: Proofs
Purpose: What a hello round says. Whenever a round of an idle writer returns, it has sent one datagram, and
  any daemon of the same family and byte order reads one well-formed hello from it: the first commodities
  of the list, as many as fit, and every neighbour left after the refresh.
Imports: Bprd.Proofs.HelloParse
Trusted boundary: none
Main exports: commodityFromBytes_written, commodityFromBytes_commodityBytes, helloSent,
  mem_listed_iff, helloCycle_carries, helloCycle_sends
-/
import Bprd.Proofs.HelloParse

namespace Bprd

/-! ### Addresses and commodities -/

theorem padAddr_toList (addr : List.Vector UInt8 16) : padAddr addr.toList = addr := by
  apply List.Vector.eq
  show (addr.toList ++ List.replicate 16 0).take 16 = addr.toList
  rw [List.take_append_of_le_length (Nat.le_of_eq addr.toList_length.symm),
    List.take_of_length_le (Nat.le_of_eq addr.toList_length)]

/-- A record read from the memory image that a host wrote: the destination is the same on every host, the
    backlog is read in the order of the reading one. -/
theorem commodityFromBytes_written (sender receiver : Words.ByteOrder) (padding : UInt8 × UInt8)
    (c : CommodityShort) :
    commodityFromBytes receiver (commodityBytes sender padding c) =
      { addr := c.addr, backlog := Words.decode32 receiver (Words.encode32 sender c.backlog) } := by
  obtain ⟨⟨addr, type, prefixLen⟩, backlog⟩ := c
  have size : addr.toList.length = 16 := addr.toList_length
  have shape : commodityBytes sender padding ⟨⟨addr, type, prefixLen⟩, backlog⟩ =
      addr.toList ++ (type :: prefixLen :: padding.1 :: padding.2 :: Words.encode32 sender backlog) := by
    simp [commodityBytes, Netaddr.bytes]
  have backlogBytes : (commodityBytes sender padding ⟨⟨addr, type, prefixLen⟩, backlog⟩).drop 20 =
      Words.encode32 sender backlog := by
    rw [shape, List.drop_append, size, List.drop_eq_nil_of_le (by omega)]
    rfl
  have front : (commodityBytes sender padding ⟨⟨addr, type, prefixLen⟩, backlog⟩).take 16 =
      addr.toList := by
    rw [shape, List.take_left' size]
  have typeIs : (commodityBytes sender padding ⟨⟨addr, type, prefixLen⟩, backlog⟩).getD 16 0 = type := by
    rw [shape, List.getD_append_right _ _ _ _ (Nat.le_of_eq size), size]
    rfl
  have prefixIs :
      (commodityBytes sender padding ⟨⟨addr, type, prefixLen⟩, backlog⟩).getD 17 0 = prefixLen := by
    rw [shape, List.getD_append_right _ _ _ _ (by omega), size]
    rfl
  rw [commodityFromBytes, front, typeIs, prefixIs, backlogBytes, padAddr_toList]

/-- A host reads back the commodity it wrote, whatever the padding holds. -/
theorem commodityFromBytes_commodityBytes (order : Words.ByteOrder) (padding : UInt8 × UInt8)
    (c : CommodityShort) : commodityFromBytes order (commodityBytes order padding c) = c := by
  rw [commodityFromBytes_written, Words.decode32_encode32_iff.mpr (.inl rfl)]

/-- Padding to 16 bytes and cutting back changes nothing. -/
theorem padAddr_take {bytes : List UInt8} {len : Nat} (short : len ≤ 16) :
    padAddr ((padAddr (bytes.take len)).toList.take len) = padAddr (bytes.take len) := by
  apply List.Vector.eq
  show (((bytes.take len ++ List.replicate 16 0).take 16).take len ++ List.replicate 16 0).take 16 =
    (bytes.take len ++ List.replicate 16 0).take 16
  have size : (bytes.take len).length ≤ len := by
    rw [List.length_take]
    exact Nat.min_le_left _ _
  have pad : ∀ k n, len ≤ k → (bytes.take len ++ List.replicate n (0 : UInt8)).take k =
      bytes.take len ++ List.replicate (min (k - (bytes.take len).length) n) 0 := by
    intro k n long
    rw [List.take_append, List.take_of_length_le (Nat.le_trans size long), List.take_replicate]
  rw [List.take_take, Nat.min_eq_left short, pad len 16 (Nat.le_refl _), List.append_assoc,
    List.replicate_append_replicate, pad 16 _ short, pad 16 _ short]
  congr 2
  omega

/-- The own address of a daemon, from its first bytes. -/
theorem hostAddr_ownNetaddr {ipver : UInt8} (running : RunningFamily ipver) {saddr : Sockaddr}
    (family : saddr.family = ipver) :
    hostAddr ipver ((ownNetaddr saddr).addr.toList.take (familyLen ipver)) = ownNetaddr saddr := by
  subst family
  rcases running with inet | inet6
  · rw [inet, ownNetaddr_inet inet]
    show (⟨padAddr ((((padAddr (saddr.addr.take 4)).toList.take 4)).take 4), afInet, 32⟩ : Netaddr) =
      ⟨padAddr (saddr.addr.take 4), afInet, 32⟩
    rw [List.take_take, Nat.min_self, padAddr_take (by decide)]
  · have own : ownNetaddr saddr = ⟨padAddr (saddr.addr.take 16), afInet6, 128⟩ := by
      have other : ¬afInet6 = afInet := by decide
      simp [ownNetaddr, netaddrFromSocket, inet6, other]
    rw [inet6, own]
    show (⟨padAddr ((((padAddr (saddr.addr.take 16)).toList.take 16)).take 16), afInet6, 128⟩ :
      Netaddr) = ⟨padAddr (saddr.addr.take 16), afInet6, 128⟩
    rw [List.take_take, Nat.min_self, padAddr_take (by decide)]

theorem hostAddr_take {ipver : UInt8} (running : RunningFamily ipver) (bytes : List UInt8) :
    hostAddr ipver ((hostAddr ipver bytes).addr.toList.take (familyLen ipver)) =
      hostAddr ipver bytes := by
  rcases running with rfl | rfl
  · show (⟨padAddr ((((padAddr (bytes.take 4)).toList.take 4)).take 4), afInet, 32⟩ : Netaddr) =
      ⟨padAddr (bytes.take 4), afInet, 32⟩
    rw [List.take_take, Nat.min_self, padAddr_take (by decide)]
  · show (⟨padAddr ((((padAddr (bytes.take 16)).toList.take 16)).take 16), afInet6, 128⟩ : Netaddr) =
      ⟨padAddr (bytes.take 16), afInet6, 128⟩
    rw [List.take_take, Nat.min_self, padAddr_take (by decide)]

/-! ### The address list of a hello -/

theorem addAddress_addrs (addrLen : Nat) : ∀ {addresses : List (List UInt8 × UInt8)}
    {head : List WriterAddress} {bytes : List UInt8},
      (∃ a ∈ addresses.foldl (pbbWriterAddAddress addrLen) head, a.addr = bytes) ↔
        (∃ a ∈ head, a.addr = bytes) ∨ ∃ address ∈ addresses, address.1.take addrLen = bytes
  | [], head, bytes => by simp
  | address :: addresses, head, bytes => by
      have one : (∃ a ∈ pbbWriterAddAddress addrLen head address, a.addr = bytes) ↔
          (∃ a ∈ head, a.addr = bytes) ∨ address.1.take addrLen = bytes := by
        rw [pbbWriterAddAddress]
        split
        · rename_i known
          obtain ⟨a, member, same⟩ := List.any_eq_true.mp known
          refine (or_iff_left_of_imp ?_).symm
          rintro rfl
          exact ⟨a, member, eq_of_beq same⟩
        · simp [or_and_right, exists_or]
      rw [List.foldl_cons, addAddress_addrs addrLen, one]
      simp [or_assoc]

theorem mem_addressHead {addrLen : Nat} {nlist : List Neighbor} {bytes : List UInt8} :
    (∃ a ∈ addressHead addrLen nlist, a.addr = bytes) ↔
      ∃ n ∈ nlist, n.addr.addr.toList.take addrLen = bytes := by
  rw [addressHead, addAddress_addrs]
  simp

theorem addressHead_sizes {ipver : UInt8} {nlist : List Neighbor} :
    ∀ a ∈ addressHead (familyLen ipver) nlist, a.addr.length = familyLen ipver := by
  intro a member
  obtain ⟨n, _, same⟩ := mem_addressHead.mp ⟨a, member, rfl⟩
  rw [← same, List.length_take, List.Vector.toList_length, Nat.min_eq_left (familyLen_le ipver)]

/-- The address a hello lists for a neighbour. -/
def listedAs (ipver : UInt8) (n : Neighbor) : Netaddr :=
  hostAddr ipver (n.addr.addr.toList.take (familyLen ipver))

/-- A table whose addresses are host addresses of a family, as the reader creates them. -/
def HostTable (ipver : UInt8) (nlist : List Neighbor) : Prop :=
  ∀ n ∈ nlist, ∃ bytes, n.addr = hostAddr ipver bytes

theorem HostTable.listedAs_eq {ipver : UInt8} {nlist : List Neighbor}
    (running : RunningFamily ipver) (hosts : HostTable ipver nlist) {n : Neighbor}
    (member : n ∈ nlist) : listedAs ipver n = n.addr := by
  obtain ⟨bytes, isHost⟩ := hosts n member
  rw [listedAs, isHost, hostAddr_take running]

/-! ### What a round sends -/

/-- The hello that a round with the neighbours `nlist` left sends. -/
def helloSent (bprd : BprdT) (nlist : List Neighbor) : Hello :=
  { sender := ownNetaddr bprd.saddr
    commodities := (bprd.clist.map Commodity.cdata).take (keptCount bprd.ipver bprd.clist.length)
    listed := (addressHead (familyLen bprd.ipver) nlist).map fun a => hostAddr bprd.ipver a.addr }

theorem mem_listed_iff {bprd : BprdT} {nlist : List Neighbor} {a : Netaddr} :
    a ∈ (helloSent bprd nlist).listed ↔ ∃ n ∈ nlist, listedAs bprd.ipver n = a := by
  constructor
  · intro member
    obtain ⟨address, inside, rfl⟩ := List.mem_map.mp member
    obtain ⟨n, isNeighbor, same⟩ := mem_addressHead.mp ⟨address, inside, rfl⟩
    exact ⟨n, isNeighbor, by rw [listedAs, same]⟩
  · rintro ⟨n, isNeighbor, rfl⟩
    obtain ⟨address, inside, same⟩ := mem_addressHead.mpr ⟨n, isNeighbor, rfl⟩
    exact List.mem_map.mpr ⟨address, inside, by rw [same, listedAs]⟩

section

variable {order : Words.ByteOrder} {padding : Nat → UInt8 × UInt8} {clock : Nat → Timeval}
  {sendto : List UInt8 → Bool}
  {writer : PbbWriter} {bprd : BprdT}

theorem HelloCarries.wellFormed {ipver : UInt8} {orig : List UInt8} {values : List (List UInt8)}
    {fragment : List WriterAddress} {m : Message}
    (carries : HelloCarries ipver orig values fragment m) : WellFormed ipver m := by
  refine ⟨carries.isHello, by rw [carries.originator]; rfl, carries.family, ?_, ?_, ?_⟩
  · intro tlv member
    obtain ⟨_, _, carried⟩ := Fallible.related_mem carries.tlvs member
    exact carried.isCommodity
  · intro entry member
    obtain ⟨_, _, carried⟩ := Fallible.related_mem carries.addrs member
    exact carried.noTlvs
  · intro entry member
    obtain ⟨_, _, carried⟩ := Fallible.related_mem carries.addrs member
    exact carried.fits

/-- The hello that a message of the writer means. -/
theorem HelloCarries.helloOf_eq {ipver : UInt8} {orig : List UInt8} {values : List (List UInt8)}
    {fragment : List WriterAddress} {m : Message}
    (carries : HelloCarries ipver orig values fragment m) :
    helloOf ipver order m =
      { sender := hostAddr ipver orig
        commodities := values.map (commodityFromBytes order)
        listed := fragment.map fun a => hostAddr ipver a.addr } := by
  have commodities : m.scheduled.map (tlvCommodity order) = values.map (commodityFromBytes order) := by
    have pointwise := carries.tlvs
    rw [Message.scheduled]
    generalize m.tlvs = tlvs at pointwise
    clear carries
    induction pointwise with
    | nil => rfl
    | @cons value tlv _ _ head _ ih =>
        have applies : indexMatch 0 tlv = true := by
          rw [indexMatch, head.everywhere.1, head.everywhere.2]
          rfl
        have plain : valueAt 0 tlv = tlv := by
          rw [valueAt, head.single]
          rfl
        rw [List.filter_cons_of_pos applies, List.map_cons, List.map_cons, List.map_cons, plain,
          tlvCommodity, head.value, ih]
  have listed : (m.addrs.flatMap AddrblockEntry.assembled).map (hostAddr ipver) =
      fragment.map fun a => hostAddr ipver a.addr := by
    have pointwise := carries.addrs
    generalize m.addrs = addrs at pointwise
    clear carries commodities
    induction pointwise with
    | nil => rfl
    | cons head _ ih =>
        rw [List.flatMap_cons, List.map_append, ih, head.assembled]
        rfl
  rw [helloOf, carries.originator, commodities, listed]
  rfl

theorem keptCount_le (ipver : UInt8) (count : Nat) : keptCount ipver count ≤ count :=
  Nat.min_le_left _ _

theorem flatMap_tlvBytes_length {values : List (List UInt8)}
    (sizes : ∀ value ∈ values, value.length = sizeofCommodityS) :
    (values.flatMap (tlvBytes bprdMsgtlvTypeCom 0)).length = comTlvSize * values.length := by
  induction values with
  | nil => rfl
  | cons value values ih =>
      rw [List.flatMap_cons, List.length_append, tlvBytes_length (sizes value (List.mem_cons_self ..)),
        ih fun v member => sizes v (List.mem_cons_of_mem _ member), List.length_cons,
        Nat.mul_succ, Nat.add_comm]

/-- The message of a hello round that fits is parsed as a whole. -/
theorem parse_helloBytes (running : RunningFamily bprd.ipver) {nlist : List Neighbor}
    (fits : helloSize bprd.ipver bprd.clist.length nlist ≤ mtu - 3) :
    (helloBytes order padding clock bprd nlist).length =
        helloSize bprd.ipver bprd.clist.length nlist ∧
      ∃ m, parseMessage (helloBytes order padding clock bprd nlist) = .ok (m, []) ∧
        HelloCarries bprd.ipver
          ((ownNetaddr bprd.saddr).addr.toList.take (familyLen bprd.ipver))
          ((commodityValues order padding bprd.clist).take
            (keptCount bprd.ipver bprd.clist.length))
          (addressHead (familyLen bprd.ipver) nlist) m ∧ m.seqno = some bprd.helloSeqno := by
  have sizes : ∀ value ∈ (commodityValues order padding bprd.clist).take
      (keptCount bprd.ipver bprd.clist.length), value.length = sizeofCommodityS :=
    fun value member => commodityValues_length value (List.mem_of_mem_take member)
  have origSize : ((ownNetaddr bprd.saddr).addr.toList.take (familyLen bprd.ipver)).length =
      familyLen bprd.ipver := by
    rw [List.length_take, List.Vector.toList_length, Nat.min_eq_left (familyLen_le _)]
  have tlvsSize : (((commodityValues order padding bprd.clist).take
      (keptCount bprd.ipver bprd.clist.length)).flatMap (tlvBytes bprdMsgtlvTypeCom 0)).length =
        comTlvSize * keptCount bprd.ipver bprd.clist.length := by
    rw [flatMap_tlvBytes_length sizes, List.length_take, commodityValues, List.length_mapIdx,
      Nat.min_eq_left (keptCount_le _ _)]
  have added : (UInt16.ofNat (comTlvSize * keptCount bprd.ipver bprd.clist.length)).toNat =
      comTlvSize * keptCount bprd.ipver bprd.clist.length := by
    rw [UInt16.toNat_ofNat']
    apply Nat.mod_eq_of_lt
    unfold helloSize mtu at fits
    omega
  have total : (UInt16.ofNat (helloSize bprd.ipver bprd.clist.length nlist)).toNat =
      helloSize bprd.ipver bprd.clist.length nlist := by
    rw [UInt16.toNat_ofNat']
    apply Nat.mod_eq_of_lt
    unfold mtu at fits
    omega
  have shape : helloBytes order padding clock bprd nlist =
      messageBytes bprd.ipver ((ownNetaddr bprd.saddr).addr.toList.take (familyLen bprd.ipver))
        (UInt16.ofNat (helloSize bprd.ipver bprd.clist.length nlist)) bprd.helloSeqno
        (u16Bytes (UInt16.ofNat (comTlvSize * keptCount bprd.ipver bprd.clist.length)) ++
          (((commodityValues order padding bprd.clist).take
              (keptCount bprd.ipver bprd.clist.length)).flatMap (tlvBytes bprdMsgtlvTypeCom 0) ++
            (addressHead (familyLen bprd.ipver) nlist).flatMap
              (addressBlock (familyLen bprd.ipver)))) := by
    rw [helloBytes, fragmentBytes, headerSize_hello]
    show messageHeader _ _ _ (helloSize bprd.ipver bprd.clist.length nlist) _ ++ _ ++ _ = _
    simp only [messageHeader, helloCreator, if_true, messageBytes, helloFlags, List.append_assoc,
      List.cons_append, List.nil_append]
  have length : (messageBytes bprd.ipver
      ((ownNetaddr bprd.saddr).addr.toList.take (familyLen bprd.ipver))
        (UInt16.ofNat (helloSize bprd.ipver bprd.clist.length nlist)) bprd.helloSeqno
        (u16Bytes (UInt16.ofNat (comTlvSize * keptCount bprd.ipver bprd.clist.length)) ++
          (((commodityValues order padding bprd.clist).take
              (keptCount bprd.ipver bprd.clist.length)).flatMap (tlvBytes bprdMsgtlvTypeCom 0) ++
            (addressHead (familyLen bprd.ipver) nlist).flatMap
              (addressBlock (familyLen bprd.ipver))))).length =
        helloSize bprd.ipver bprd.clist.length nlist := by
    simp only [messageBytes, List.length_cons, List.length_append, u16Bytes, List.length_nil,
      origSize, tlvsSize, helloSize, helloHeaderSize, blocksSize]
    omega
  rw [shape]
  exact ⟨length, parseMessage_hello running origSize sizes (added.trans tlvsSize.symm)
    addressHead_sizes (total.trans length.symm)⟩

/-- A round that returns has sent one datagram, which carries the round's backlogs and neighbours and the
    sequence number of the round. -/
theorem helloCycle_carries (running : RunningFamily bprd.ipver)
    (idle : Idle writer) {out : Written} {bprd' : BprdT}
    (ran : helloCycle order padding clock sendto writer bprd = .ok (out, bprd')) :
    helloSize bprd.ipver bprd.clist.length
        (ntableRefresh bprd.neighborTimeout clock bprd.nlist) ≤ mtu - 3 ∧
      Idle out.writer ∧
      bprd' = { bprd with
        nlist := ntableRefresh bprd.neighborTimeout clock bprd.nlist
        helloSeqno := bprd.helloSeqno + 1 } ∧
      ∃ datagram m, out.datagrams = [datagram] ∧ datagram.length ≤ mtu ∧
        scanPacket datagram = ([m], none) ∧ m.seqno = some bprd.helloSeqno ∧
        HelloCarries bprd.ipver ((ownNetaddr bprd.saddr).addr.toList.take (familyLen bprd.ipver))
          ((commodityValues order padding bprd.clist).take (keptCount bprd.ipver bprd.clist.length))
          (addressHead (familyLen bprd.ipver)
            (ntableRefresh bprd.neighborTimeout clock bprd.nlist)) m := by
  obtain ⟨fits, _, _, writer', same, idle'⟩ := helloCycle_ok running idle ran
  cases same
  generalize ntableRefresh bprd.neighborTimeout clock bprd.nlist = left at fits ⊢
  obtain ⟨length, m, parsed, carries, numbered⟩ :=
    @parse_helloBytes order padding clock bprd running left fits
  refine ⟨fits, idle', rfl, _, m, rfl, ?_, ?_, numbered, carries⟩
  · rw [List.length_cons, length]
    unfold mtu at fits ⊢
    omega
  · have messages : packetMessages (0 :: helloBytes order padding clock bprd left) =
        .ok (helloBytes order padding clock bprd left) := rfl
    have nonempty : ¬(helloBytes order padding clock bprd left).length ≤ 0 := by
      rw [length, helloSize, helloHeaderSize]
      omega
    obtain ⟨fuel, size⟩ : ∃ fuel, (helloBytes order padding clock bprd left).length = fuel + 1 :=
      Nat.exists_eq_add_one_of_ne_zero fun zero => nonempty (Nat.le_of_eq zero)
    simp only [scanPacket, messages]
    rw [size, scanMessages, if_neg nonempty, parsed]
    cases fuel with
    | zero => rfl
    | succ fuel => rfl

/-- A round that returns has sent one datagram, which is read as the hello it is meant to be. -/
theorem helloCycle_sends (running : RunningFamily bprd.ipver) (own : bprd.saddr.family = bprd.ipver)
    (idle : Idle writer) {out : Written} {bprd' : BprdT}
    (ran : helloCycle order padding clock sendto writer bprd = .ok (out, bprd')) :
    helloSize bprd.ipver bprd.clist.length
        (ntableRefresh bprd.neighborTimeout clock bprd.nlist) ≤ mtu - 3 ∧
      Idle out.writer ∧
      bprd' = { bprd with
        nlist := ntableRefresh bprd.neighborTimeout clock bprd.nlist
        helloSeqno := bprd.helloSeqno + 1 } ∧
      ∃ datagram m, out.datagrams = [datagram] ∧ datagram.length ≤ mtu ∧
        scanPacket datagram = ([m], none) ∧ WellFormed bprd.ipver m ∧
        helloOf bprd.ipver order m =
          helloSent bprd (ntableRefresh bprd.neighborTimeout clock bprd.nlist) := by
  obtain ⟨fits, idle', frame, datagram, m, sent, small, scanned, _, carries⟩ :=
    helloCycle_carries running idle ran
  refine ⟨fits, idle', frame, datagram, m, sent, small, scanned, carries.wellFormed, ?_⟩
  rw [carries.helloOf_eq, hostAddr_ownNetaddr running own, helloSent, List.map_take, commodityValues]
  congr 2
  apply List.ext_getElem?
  intro i
  simp [commodityFromBytes_commodityBytes, Function.comp_def]

end

end Bprd
