/-
Module: Bprd.Proofs.HelloMessage
Layer: Proofs
Purpose: One well-formed hello through the callbacks. The callbacks of a message all work on one entry,
  through a static pointer; together they find or create the sender's entry and change it in place. The
  own address is copied anew for every listed address, over IPv6 only in part, so whether the reader finds
  itself listed is a question of its own; over IPv4 the answer is the membership.
Imports: Bprd.Lib.KeyedList, Bprd.Lib.Fallible, Bprd.Spec.HelloHistory, Bprd.Model.HelloReader
Trusted boundary: none
Main exports: RunningFamily, familyLen, hostAddr, WellFormed, helloOf, Neighbor.absorb, heardHello,
  recognises, seenHello, heardHello_seen_inet, scheduleMessage_wellFormed
-/
import Bprd.Lib.KeyedList
import Bprd.Lib.Fallible
import Bprd.Spec.HelloHistory
import Bprd.Model.HelloReader

namespace Bprd

/-- `bprd_init` accepts these two families. -/
def RunningFamily (ipver : UInt8) : Prop := ipver = afInet ∨ ipver = afInet6

instance (ipver : UInt8) : Decidable (RunningFamily ipver) :=
  inferInstanceAs (Decidable (ipver = afInet ∨ ipver = afInet6))

/-- The length of the addresses of a running family. -/
def familyLen (ipver : UInt8) : Nat := if ipver = afInet then 4 else 16

/-- The host address of a running family with the given bytes. -/
def hostAddr (ipver : UInt8) (bytes : List UInt8) : Netaddr :=
  if ipver = afInet then host4 bytes else ⟨padAddr (bytes.take 16), afInet6, 128⟩

/-- A complete, well-formed hello: a message of type 1 with an originator of the running family's length,
    only commodity TLVs, and addresses that fit the address buffer and carry no TLVs. -/
structure WellFormed (ipver : UInt8) (m : Message) : Prop where
  isHello : m.msgType = bprdMsgTypeHello
  originator : m.origAddr.isSome
  family : m.addrLen.toNat = familyLen ipver
  onlyCommodities : ∀ tlv ∈ m.tlvs,
    tlv.type = bprdMsgtlvTypeCom ∧ tlv.length.toNat = sizeofCommodityS
  noAddrTlvs : ∀ addr ∈ m.addrs, addr.tlvblock = []
  assembled : ∀ addr ∈ m.addrs, ∀ i < addr.numAddr.toNat, (assembleAddr addr i).isSome

/-- The commodity a TLV carries. -/
def tlvCommodity (order : Words.ByteOrder) (tlv : TlvblockEntry) : CommodityShort :=
  commodityFromBytes order (tlv.singleValue.take sizeofCommodityS)

/-- The TLVs of a message that are scheduled, in order. -/
def Message.scheduled (m : Message) : List TlvblockEntry :=
  (m.tlvs.filter (indexMatch 0)).map (valueAt 0)

/-- The addresses of a block as they are assembled. -/
def AddrblockEntry.assembled (addr : AddrblockEntry) : List (List UInt8) :=
  (List.range addr.numAddr.toNat).filterMap fun i =>
    (assembleAddr addr i).map List.Vector.toList

/-- The hello that a message means to a daemon of a family and byte order. -/
def helloOf (ipver : UInt8) (order : Words.ByteOrder) (m : Message) : Hello :=
  { sender := hostAddr ipver (m.origAddr.getD [])
    commodities := m.scheduled.map (tlvCommodity order)
    listed := (m.addrs.flatMap AddrblockEntry.assembled).map (hostAddr ipver) }

/-- The backlogs of a hello, recorded one after the other. -/
def recordCommodities (commodities : List CommodityShort) (clist : List Commodity) : List Commodity :=
  commodities.foldl (fun clist cdata => recordCommodity cdata clist) clist

/-- What a hello does to the entry of its sender. -/
def Neighbor.absorb (own : Netaddr) (time : Timeval) (hello : Hello) (n : Neighbor) : Neighbor :=
  { n with
    bidir := if own ∈ hello.listed then 1 else n.bidir
    updateTime := time
    clist := recordCommodities hello.commodities n.clist }

/-- A neighbour as the reader creates it. -/
def newNeighbor (addr : Netaddr) (time : Timeval) : Neighbor :=
  { addr := addr, bidir := 0, updateTime := time, clist := [] }

/-- What a hello does to a neighbour list. -/
def heardHello (own : Netaddr) (time : Timeval) (hello : Hello) (nlist : List Neighbor) :
    List Neighbor :=
  KeyedList.upsert Neighbor.addr hello.sender (newNeighbor hello.sender time)
    (Neighbor.absorb own time hello) nlist

/-- Whether the reader takes one of some addresses for the own one; `k` copies of that were made before. -/
def recognises (ambient : Ambient) (saddr : Sockaddr) : Nat → List Netaddr → Bool
  | _, [] => false
  | k, a :: rest =>
      decide (a = copiedNetaddr (ambient.leftover k) saddr) || recognises ambient saddr (k + 1) rest

/-- A hello as the reader sees it: of the listed addresses it only matters whether one is taken for the
    own one. -/
def seenHello (ambient : Ambient) (saddr : Sockaddr) (k : Nat) (hello : Hello) : Hello :=
  { hello with
    listed := if recognises ambient saddr k hello.listed = true then [ownNetaddr saddr] else [] }

section Recognises

variable {ambient : Ambient} {saddr : Sockaddr}

theorem recognises_append : ∀ {k : Nat} {as bs : List Netaddr},
    recognises ambient saddr k (as ++ bs) =
      (recognises ambient saddr k as || recognises ambient saddr (k + as.length) bs)
  | k, [], bs => rfl
  | k, a :: as, bs => by
      have later : k + 1 + as.length = k + (a :: as).length := by
        rw [List.length_cons]
        omega
      rw [List.cons_append, recognises, recognises, recognises_append, later, Bool.or_assoc]

/-- Over IPv4 every copy is complete, and the reader recognises the own address wherever it is. -/
theorem recognises_inet (family : saddr.family = afInet) : ∀ {k : Nat} {listed : List Netaddr},
    recognises ambient saddr k listed = true ↔ ownNetaddr saddr ∈ listed
  | k, [] => by simp [recognises]
  | k, a :: rest => by
      rw [recognises, copiedNetaddr_inet family, Bool.or_eq_true, decide_eq_true_iff,
        recognises_inet family, List.mem_cons, @eq_comm _ a]

theorem mem_seenHello_listed {k : Nat} {hello : Hello} :
    ownNetaddr saddr ∈ (seenHello ambient saddr k hello).listed ↔
      recognises ambient saddr k hello.listed = true := by
  rw [seenHello]
  split
  · rename_i found
    exact iff_of_true (List.mem_singleton.mpr rfl) found
  · rename_i missed
    exact iff_of_false List.not_mem_nil missed

/-- What a hello as it is seen does to the entry of its sender. -/
theorem absorb_seen (time : Timeval) (k : Nat) (hello : Hello) :
    Neighbor.absorb (ownNetaddr saddr) time (seenHello ambient saddr k hello) = fun n =>
      { n with
        bidir := if recognises ambient saddr k hello.listed = true then 1 else n.bidir
        updateTime := time
        clist := recordCommodities hello.commodities n.clist } := by
  funext n
  simp only [Neighbor.absorb, mem_seenHello_listed]
  rfl

/-- Over IPv4 a hello does what it says. -/
theorem heardHello_seen_inet (family : saddr.family = afInet) (time : Timeval) (k : Nat) (hello : Hello)
    (nlist : List Neighbor) :
    heardHello (ownNetaddr saddr) time (seenHello ambient saddr k hello) nlist =
      heardHello (ownNetaddr saddr) time hello nlist := by
  have absorbs : Neighbor.absorb (ownNetaddr saddr) time (seenHello ambient saddr k hello) =
      Neighbor.absorb (ownNetaddr saddr) time hello := by
    rw [absorb_seen]
    simp only [recognises_inet family]
    rfl
  rw [heardHello, absorbs]
  rfl

end Recognises

theorem netaddrFromBinary_family {ipver : UInt8} (running : RunningFamily ipver) (dst : Netaddr)
    (bytes : List UInt8) {len : Nat} (family : len = familyLen ipver) :
    (netaddrFromBinary dst bytes len ipver).2 = hostAddr ipver bytes := by
  subst family
  rcases running with rfl | rfl
  · rfl
  · rfl

/-- Two changes at one position are one. -/
theorem modify_comp {α : Type} (l : List α) (i : Nat) (f g : α → α) :
    (l.modify i f).modify i g = l.modify i (g ∘ f) := by
  induction l generalizing i with
  | nil => simp
  | cons x l ih =>
      cases i with
      | zero => rfl
      | succ i => simp [ih]

section Callbacks

variable {bprd : BprdT} {order : Words.ByteOrder} {ambient : Ambient} {r : HelloReader} {i : Nat}

/-- The TLV callback over commodity TLVs: the backlogs are recorded in the current entry. -/
theorem forEach_helloConsMsgTlv : ∀ {tlvs : List TlvblockEntry} {r : HelloReader},
    (∀ tlv ∈ tlvs, tlv.type = bprdMsgtlvTypeCom ∧ tlv.length.toNat = sizeofCommodityS) →
      r.n = some i →
      forEach (helloConsMsgTlv order) tlvs r = .ok { r with
        nlist := r.nlist.modify i fun n =>
          { n with clist := recordCommodities (tlvs.map (tlvCommodity order)) n.clist } }
  | [], r, _, current => by
      have same : (fun n : Neighbor => { n with clist := recordCommodities [] n.clist }) = id := rfl
      rw [forEach, List.map_nil, same, List.modify_id]
  | tlv :: tlvs, r, commodities, current => by
      have head : helloConsMsgTlv order tlv r = .ok { r with
          nlist := r.nlist.modify i fun n =>
            { n with clist := recordCommodity (tlvCommodity order tlv) n.clist } } := by
        rw [helloConsMsgTlv, if_pos (commodities tlv (List.mem_cons_self ..)), current]
        rfl
      rw [forEach, head]
      refine (forEach_helloConsMsgTlv
        (fun t member => commodities t (List.mem_cons_of_mem _ member)) (by exact current)).trans ?_
      dsimp only
      rw [modify_comp]
      rfl

/-- A neighbour whose hello lists the own address is marked as bidirectional. -/
def markListed (listed : Bool) (n : Neighbor) : Neighbor :=
  { n with bidir := if listed = true then 1 else n.bidir }

theorem markListed_comp (listed listed' : Bool) :
    markListed listed' ∘ markListed listed = markListed (listed || listed') := by
  funext n
  cases listed <;> cases listed' <;> rfl

/-- The reader after the addresses `listed`, with `i` the current entry. -/
def afterAddresses (ambient : Ambient) (saddr : Sockaddr) (listed : List Netaddr) (i : Nat)
    (r : HelloReader) : HelloReader :=
  { r with
    nlist := r.nlist.modify i (markListed (recognises ambient saddr r.copies listed))
    calls := r.calls + listed.length
    copies := r.copies + listed.length }

theorem afterAddresses_append (saddr : Sockaddr) (as bs : List Netaddr) (i : Nat) (r : HelloReader) :
    afterAddresses ambient saddr bs i (afterAddresses ambient saddr as i r) =
      afterAddresses ambient saddr (as ++ bs) i r := by
  simp only [afterAddresses, modify_comp, markListed_comp, recognises_append, List.length_append,
    Nat.add_assoc]

theorem afterAddresses_nil (saddr : Sockaddr) (i : Nat) (r : HelloReader) :
    afterAddresses ambient saddr [] i r = r := by
  have same : markListed (recognises ambient saddr r.copies []) = id := rfl
  simp only [afterAddresses, same, List.modify_id, List.length_nil, Nat.add_zero]

theorem helloConsAddrStart_family (running : RunningFamily bprd.ipver) {m : Message}
    (family : m.addrLen.toNat = familyLen bprd.ipver) (current : r.n = some i) (bytes : List UInt8) :
    helloConsAddrStart bprd ambient m bytes r =
      .ok (afterAddresses ambient bprd.saddr [hostAddr bprd.ipver bytes] i r) := by
  rw [helloConsAddrStart, netaddrFromBinary_family running _ _ family]
  by_cases listed : hostAddr bprd.ipver bytes = copiedNetaddr (ambient.leftover r.copies) bprd.saddr
  · have marks : markListed (recognises ambient bprd.saddr r.copies [hostAddr bprd.ipver bytes]) =
        fun n => { n with bidir := 1 } := by
      funext n
      simp [markListed, recognises, listed]
    rw [if_pos (netaddrCmp_eq_zero.mpr listed), current]
    simp only [afterAddresses, marks, List.length_singleton, current]
  · have marks : markListed (recognises ambient bprd.saddr r.copies [hostAddr bprd.ipver bytes]) = id := by
      funext n
      simp [markListed, recognises, listed]
    rw [if_neg fun same => listed (netaddrCmp_eq_zero.mp same)]
    simp only [afterAddresses, marks, List.modify_id, List.length_singleton]

/-- The addresses of one block. -/
theorem forEach_scheduleAddr (running : RunningFamily bprd.ipver) {m : Message}
    (family : m.addrLen.toNat = familyLen bprd.ipver) {addr : AddrblockEntry}
    (noTlvs : addr.tlvblock = []) : ∀ {indexes : List Nat} {r : HelloReader},
      (∀ j ∈ indexes, (assembleAddr addr j).isSome) → r.n = some i →
      forEach (scheduleAddr (helloConsumers bprd order ambient) m addr) indexes r =
        .ok (afterAddresses ambient bprd.saddr
          ((indexes.filterMap fun j => (assembleAddr addr j).map List.Vector.toList).map
            (hostAddr bprd.ipver)) i r)
  | [], r, _, _ => by
      rw [forEach, List.filterMap_nil, List.map_nil, afterAddresses_nil]
  | j :: indexes, r, fits, current => by
      obtain ⟨bytes, assembled⟩ := Option.isSome_iff_exists.mp (fits j (List.mem_cons_self ..))
      have head : scheduleAddr (helloConsumers bprd order ambient) m addr j r =
          .ok (afterAddresses ambient bprd.saddr [hostAddr bprd.ipver bytes.toList] i r) := by
        rw [scheduleAddr, assembled]
        simp only [helloConsumers]
        rw [helloConsAddrStart_family running family current, noTlvs]
        rfl
      rw [forEach, head]
      refine (forEach_scheduleAddr running family noTlvs
        (fun k member => fits k (List.mem_cons_of_mem _ member)) (by exact current)).trans ?_
      rw [afterAddresses_append, List.filterMap_cons, assembled]
      rfl

/-- All blocks of a message. -/
theorem forEach_addrblocks (running : RunningFamily bprd.ipver) {m : Message}
    (family : m.addrLen.toNat = familyLen bprd.ipver) :
    ∀ {addrs : List AddrblockEntry} {r : HelloReader},
      (∀ addr ∈ addrs, addr.tlvblock = []) →
      (∀ addr ∈ addrs, ∀ j < addr.numAddr.toNat, (assembleAddr addr j).isSome) → r.n = some i →
      forEach (fun addr => forEach (scheduleAddr (helloConsumers bprd order ambient) m addr)
          (List.range addr.numAddr.toNat)) addrs r =
        .ok (afterAddresses ambient bprd.saddr
          ((addrs.flatMap AddrblockEntry.assembled).map (hostAddr bprd.ipver)) i r)
  | [], r, _, _, _ => by
      rw [forEach, List.flatMap_nil, List.map_nil, afterAddresses_nil]
  | addr :: addrs, r, noTlvs, fits, current => by
      have head := @forEach_scheduleAddr bprd order ambient i running m family addr
        (noTlvs addr (List.mem_cons_self ..)) _ r
        (fun j member => fits addr (List.mem_cons_self ..) j (List.mem_range.mp member)) current
      rw [forEach, head]
      refine (forEach_addrblocks running family
        (fun a member => noTlvs a (List.mem_cons_of_mem _ member))
        (fun a member => fits a (List.mem_cons_of_mem _ member)) (by exact current)).trans ?_
      rw [afterAddresses_append, List.flatMap_cons, List.map_append]
      rfl

end Callbacks

section Message

variable {bprd : BprdT} {order : Words.ByteOrder} {ambient : Ambient} {m : Message}

/-- The callbacks of a message of type 1, in order. -/
theorem scheduleMessage_hello (isHello : m.msgType = bprdMsgTypeHello) (r : HelloReader) :
    scheduleMessage (helloConsumers bprd order ambient) m r =
      helloConsMsgStart bprd ambient m r >>= fun r₁ =>
        forEach (helloConsMsgTlv order) m.scheduled r₁ >>= fun r₂ =>
          forEach (fun addr => forEach (scheduleAddr (helloConsumers bprd order ambient) m addr)
            (List.range addr.numAddr.toNat)) m.addrs r₂ := by
  have accepted : m.msgType = (helloConsumers bprd order ambient).msgId := isHello
  have start : (helloConsumers bprd order ambient).msgStart m r =
      helloConsMsgStart bprd ambient m r := rfl
  have tlvs : ∀ s, scheduleTlvblock (helloConsumers bprd order ambient).msgTlv m.tlvs 0 s =
      forEach (helloConsMsgTlv order) m.scheduled s := fun _ => rfl
  rw [scheduleMessage, if_pos accepted, scheduleMsgtlvConsumer, start]
  cases helloConsMsgStart bprd ambient m r with
  | error fault => rfl
  | ok r₁ =>
      dsimp only
      rw [tlvs]
      show _ = forEach (helloConsMsgTlv order) m.scheduled r₁ >>= _
      cases forEach (helloConsMsgTlv order) m.scheduled r₁ with
      | error fault => rfl
      | ok r₂ => rfl

/-- What a well-formed hello does to the reader's neighbour list: the callbacks return, the clock is read
    once, the own address is copied once for every listed address, and the list changes as `heardHello`
    says of the hello that the reader sees. -/
theorem scheduleMessage_wellFormed (running : RunningFamily bprd.ipver)
    (wellFormed : WellFormed bprd.ipver m) (r : HelloReader) :
    ∃ r', scheduleMessage (helloConsumers bprd order ambient) m r = .ok r' ∧
      r'.readings = r.readings + 1 ∧
      r'.copies = r.copies + (helloOf bprd.ipver order m).listed.length ∧
      r'.nlist = heardHello (ownNetaddr bprd.saddr) (ambient.clock r.readings)
        (seenHello ambient bprd.saddr r.copies (helloOf bprd.ipver order m)) r.nlist := by
  obtain ⟨orig, hasOrig⟩ := Option.isSome_iff_exists.mp wellFormed.originator
  have sender : (helloOf bprd.ipver order m).sender = hostAddr bprd.ipver orig := by
    rw [helloOf, hasOrig]
    rfl
  -- The first callback finds or creates the entry; the others change the entry at its position.
  have started : ∃ i r₀, helloConsMsgStart bprd ambient m r = .ok r₀ ∧ r₀.n = some i ∧
      r₀.readings = r.readings + 1 ∧ r₀.copies = r.copies ∧ ∀ f : Neighbor → Neighbor,
        r₀.nlist.modify i f = KeyedList.upsert Neighbor.addr (helloOf bprd.ipver order m).sender
          (newNeighbor (helloOf bprd.ipver order m).sender (ambient.clock r.readings))
          (fun n => f { n with updateTime := ambient.clock r.readings }) r.nlist := by
    have searched : ∀ n : Neighbor, nlistFind r.nlist n =
        KeyedList.position Neighbor.addr n.addr r.nlist := fun n => nlistFind_eq r.nlist n
    rw [helloConsMsgStart, if_neg (by simpa using wellFormed.isHello), hasOrig]
    simp only [netaddrFromBinary_family running _ _ wellFormed.family, searched, ← sender]
    simp only [KeyedList.upsert]
    cases KeyedList.position Neighbor.addr (helloOf bprd.ipver order m).sender r.nlist with
    | some i => exact ⟨i, _, rfl, rfl, rfl, rfl, fun f => modify_comp _ _ _ _⟩
    | none => exact ⟨0, _, rfl, rfl, rfl, rfl, fun f => rfl⟩
  obtain ⟨i, r₀, start, current, readings, copies, upserts⟩ := started
  have tlvs : ∀ tlv ∈ m.scheduled,
      tlv.type = bprdMsgtlvTypeCom ∧ tlv.length.toNat = sizeofCommodityS := by
    intro tlv member
    obtain ⟨tlv₀, member₀, rfl⟩ := List.mem_map.mp member
    have original := wellFormed.onlyCommodities tlv₀ (List.mem_filter.mp member₀).1
    unfold valueAt
    split
    · exact original
    · exact original
  have recorded := @forEach_helloConsMsgTlv order i _ _ tlvs current
  refine ⟨afterAddresses ambient bprd.saddr (helloOf bprd.ipver order m).listed i { r₀ with
      nlist := r₀.nlist.modify i fun n => { n with
        clist := recordCommodities (helloOf bprd.ipver order m).commodities n.clist } },
    ?_, readings, congrArg (· + _) copies, ?_⟩
  · rw [scheduleMessage_hello wellFormed.isHello]
    refine Fallible.bind_eq_ok_iff.mpr ⟨r₀, start, Fallible.bind_eq_ok_iff.mpr ⟨_, recorded, ?_⟩⟩
    exact forEach_addrblocks running wellFormed.family wellFormed.noAddrTlvs wellFormed.assembled
      (by exact current)
  · show ((r₀.nlist.modify i _).modify i (markListed _)) = _
    rw [modify_comp, upserts]
    dsimp only
    rw [copies, heardHello, absorb_seen]
    rfl

/-- A message of another type is skipped. -/
theorem scheduleMessage_other (other : m.msgType ≠ bprdMsgTypeHello) (r : HelloReader) :
    scheduleMessage (helloConsumers bprd order ambient) m r = .ok r :=
  if_neg other

end Message

end Bprd
