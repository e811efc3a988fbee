/-
Module: Bprd.Proofs.HelloRoundTrip
Layer: Proofs
Purpose: A hello round at the sender and its reception, taken together, and the capacity of a round. What
  the receiver learns is exactly the sender's backlogs and whether the sender lists the receiver. A round
  says everything exactly when it fits the message buffer; otherwise it drops commodities silently or
  overruns a buffer.
Imports: Bprd.Proofs.HelloSent
Trusted boundary: none
Main exports: EntryChanges, Learned, hello_roundtrip, HelloComplete, hello_complete_iff
-/
import Bprd.Proofs.HelloSent

namespace Bprd

/-! ### The size of the address list -/

/-- The size of an address block. -/
def blockSize (addrLen : Nat) (a : WriterAddress) : Nat :=
  addrLen + 4 + if a.prefixlen.toNat ≠ addrLen * 8 then 1 else 0

theorem blocksSize_eq (ipver : UInt8) (nlist : List Neighbor) :
    blocksSize ipver nlist =
      ((addressHead (familyLen ipver) nlist).map (blockSize (familyLen ipver))).sum := by
  have each : ∀ a ∈ addressHead (familyLen ipver) nlist,
      (addressBlock (familyLen ipver) a).length = blockSize (familyLen ipver) a := by
    intro a member
    have size := addressHead_sizes a member
    unfold addressBlock blockSize
    split
    · rw [List.length_append, List.length_append, size]
      simp only [List.length_cons, List.length_nil]
      omega
    · rw [List.length_append, List.length_append, size]
      simp only [List.length_cons, List.length_nil]
      omega
  rw [blocksSize, List.length_flatMap, List.map_congr_left each]

theorem addAddress_length_le (addrLen : Nat) : ∀ (addresses : List (List UInt8 × UInt8))
    (head : List WriterAddress),
      (addresses.foldl (pbbWriterAddAddress addrLen) head).length ≤ head.length + addresses.length
  | [], head => Nat.le_refl _
  | address :: addresses, head => by
      have rest := addAddress_length_le addrLen addresses (pbbWriterAddAddress addrLen head address)
      have one : (pbbWriterAddAddress addrLen head address).length ≤ head.length + 1 := by
        unfold pbbWriterAddAddress
        dsimp only
        split
        · omega
        · exact Nat.le_of_eq List.length_append
      rw [List.foldl_cons, List.length_cons]
      omega

theorem addAddress_prefix (addrLen : Nat) : ∀ {addresses : List (List UInt8 × UInt8)}
    {head : List WriterAddress},
      ∀ a ∈ addresses.foldl (pbbWriterAddAddress addrLen) head,
        a ∈ head ∨ ∃ address ∈ addresses, a.prefixlen = address.2
  | [], head, a, member => .inl member
  | address :: addresses, head, a, member => by
      rw [List.foldl_cons] at member
      rcases addAddress_prefix addrLen a member with early | ⟨later, inside, same⟩
      · unfold pbbWriterAddAddress at early
        dsimp only at early
        split at early
        · exact .inl early
        · rcases List.mem_append.mp early with old | new
          · exact .inl old
          · rw [List.mem_singleton.mp new]
            exact .inr ⟨address, List.mem_cons_self .., rfl⟩
      · exact .inr ⟨later, List.mem_cons_of_mem _ inside, same⟩

/-- The addresses of a table of host addresses take 8 bytes each over IPv4, and 20 over IPv6. -/
theorem blocksSize_hosts {ipver : UInt8} (running : RunningFamily ipver) {nlist : List Neighbor}
    (hosts : HostTable ipver nlist) : blocksSize ipver nlist ≤ (familyLen ipver + 4) * nlist.length := by
  have plain : ∀ a ∈ addressHead (familyLen ipver) nlist,
      blockSize (familyLen ipver) a = familyLen ipver + 4 := by
    intro a member
    rcases addAddress_prefix _ a member with absurd_ | ⟨address, inside, same⟩
    · cases absurd_
    · obtain ⟨n, isNeighbor, rfl⟩ := List.mem_map.mp inside
      obtain ⟨bytes, isHost⟩ := hosts n isNeighbor
      have full : a.prefixlen.toNat = familyLen ipver * 8 := by
        rw [same, isHost]
        rcases running with rfl | rfl
        · rfl
        · rfl
      rw [blockSize, if_neg (not_not_intro full)]
  have count : (addressHead (familyLen ipver) nlist).length ≤ nlist.length := by
    have bound := addAddress_length_le (familyLen ipver)
      (nlist.map fun n => (n.addr.addr.toList, n.addr.prefixLen)) []
    rw [List.length_map, List.length_nil, Nat.zero_add] at bound
    exact bound
  rw [blocksSize_eq, List.map_congr_left plain, List.map_const', List.sum_replicate_nat, Nat.mul_comm]
  exact Nat.mul_le_mul_left _ count

/-! ### Round trip -/

/-- A neighbour list changes in the entry of one address only, from `n` to `n'` in place; an address
    without an entry gets one at the head, made from `fresh`. -/
def EntryChanges (a : Netaddr) (fresh : Neighbor) (change : Neighbor → Neighbor → Prop)
    (nlist nlist' : List Neighbor) : Prop :=
  (∃ before n after n', nlist = before ++ n :: after ∧ (∀ m ∈ before, m.addr ≠ a) ∧ n.addr = a ∧
    nlist' = before ++ n' :: after ∧ change n n') ∨
  ((∀ m ∈ nlist, m.addr ≠ a) ∧ ∃ n', nlist' = n' :: nlist ∧ change fresh n')

/-- What the entry of a sender learns from its hello: `left` are the neighbours that the sender lists, and
    `own` is the receiver. -/
structure Learned (sender : BprdT) (left : List Neighbor) (own : Netaddr) (time : Timeval)
    (n n' : Neighbor) : Prop where
  addr : n'.addr = ownNetaddr sender.saddr
  updateTime : n'.updateTime = time
  listed : (∃ m ∈ left, m.addr = own) → n'.bidir = 1
  unlisted : (∀ m ∈ left, m.addr ≠ own) → n'.bidir = n.bidir
  backlogs : ∀ c ∈ sender.clist, KeyedList.lookup Commodity.dest c.dest n'.clist =
    some (setBacklog c.cdata.backlog
      ((KeyedList.lookup Commodity.dest c.dest n.clist).getD (heardCommodity c.cdata)))
  others : ∀ d, (∀ c ∈ sender.clist, c.dest ≠ d) →
    KeyedList.lookup Commodity.dest d n'.clist = KeyedList.lookup Commodity.dest d n.clist

/-- Destinations that are not carried keep their record. -/
theorem recordCommodities_other {commodities : List CommodityShort} {d : Netaddr}
    (other : ∀ c ∈ commodities, c.addr ≠ d) : ∀ {clist : List Commodity},
      KeyedList.lookup Commodity.dest d (recordCommodities commodities clist) =
        KeyedList.lookup Commodity.dest d clist := by
  induction commodities with
  | nil => exact fun {_} => rfl
  | cons c commodities ih =>
      intro clist
      show KeyedList.lookup Commodity.dest d (recordCommodities commodities (recordCommodity c clist)) = _
      rw [ih fun f member => other f (List.mem_cons_of_mem _ member), recordCommodity_eq_upsert]
      exact KeyedList.lookup_upsert_other _ (setBacklog_dest _) (heardCommodity_dest _)
        (other c (List.mem_cons_self ..)).symm

/-- A destination that is carried once gets its backlog. -/
theorem recordCommodities_self {commodities : List CommodityShort}
    (distinct : (commodities.map CommodityShort.addr).Nodup) {c : CommodityShort}
    (member : c ∈ commodities) : ∀ {clist : List Commodity},
      KeyedList.lookup Commodity.dest c.addr (recordCommodities commodities clist) =
        some (setBacklog c.backlog
          ((KeyedList.lookup Commodity.dest c.addr clist).getD (heardCommodity c))) := by
  induction commodities with
  | nil => cases member
  | cons f commodities ih =>
      intro clist
      rw [List.map_cons, List.nodup_cons] at distinct
      show KeyedList.lookup Commodity.dest c.addr
        (recordCommodities commodities (recordCommodity f clist)) = _
      rcases List.mem_cons.mp member with rfl | behind
      · have once : ∀ g ∈ commodities, g.addr ≠ c.addr := fun g inside same =>
          distinct.1 (same ▸ List.mem_map_of_mem inside)
        rw [recordCommodities_other once, recordCommodity_eq_upsert]
        exact KeyedList.lookup_upsert_self _ (setBacklog_dest _) (heardCommodity_dest _)
      · have other : c.addr ≠ f.addr := fun same =>
          distinct.1 (same ▸ List.mem_map_of_mem behind)
        rw [ih distinct.2 behind, recordCommodity_eq_upsert,
          KeyedList.lookup_upsert_other _ (setBacklog_dest _) (heardCommodity_dest _) other]

/-- A hello on a neighbour list changes the sender's entry only. -/
theorem heardHello_entryChanges (own : Netaddr) (time : Timeval) (hello : Hello)
    (nlist : List Neighbor) :
    EntryChanges hello.sender (newNeighbor hello.sender time)
      (fun n n' => n' = n.absorb own time hello ∧ n.addr = hello.sender) nlist
      (heardHello own time hello nlist) := by
  rcases @KeyedList.upsert_cases _ _ _ Neighbor.addr hello.sender nlist
      (newNeighbor hello.sender time) (Neighbor.absorb own time hello) with
    ⟨before, n, after, shape, others, found, result⟩ | ⟨none_, result⟩
  · exact .inl ⟨before, n, after, _, shape, others, found, result, rfl, found⟩
  · exact .inr ⟨none_, _, result, rfl, rfl⟩

theorem EntryChanges.imp {a : Netaddr} {fresh : Neighbor} {change change' : Neighbor → Neighbor → Prop}
    {nlist nlist' : List Neighbor} (changes : EntryChanges a fresh change nlist nlist')
    (weaker : ∀ {n n'}, change n n' → change' n n') : EntryChanges a fresh change' nlist nlist' := by
  rcases changes with ⟨before, n, after, n', shape, others, found, result, holds⟩ |
    ⟨none_, n', result, holds⟩
  · exact .inl ⟨before, n, after, n', shape, others, found, result, weaker holds⟩
  · exact .inr ⟨none_, n', result, weaker holds⟩

section

variable {order : Words.ByteOrder} {padding : Nat → UInt8 × UInt8} {clock : Nat → Timeval}
  {sendto : List UInt8 → Bool}
  {writer : PbbWriter} {sender receiver : BprdT} {ambient : Ambient}

theorem helloSize_le {ipver : UInt8} (running : RunningFamily ipver) {count : Nat}
    {left : List Neighbor} (hosts : HostTable ipver left)
    (fits : helloHeaderSize ipver + comTlvSize * count + (familyLen ipver + 4) * left.length ≤
      mtu - 3) :
    keptCount ipver count = count ∧ helloSize ipver count left ≤ mtu - 3 := by
  have blocks := blocksSize_hosts running hosts
  have kept : keptCount ipver count = count := by
    apply Nat.min_eq_left
    rw [Nat.le_div_iff_mul_le (by decide), Nat.mul_comm]
    omega
  refine ⟨kept, ?_⟩
  rw [helloSize, kept]
  omega

/-- What a hello that drops no commodity teaches: the sender's entry changes, by what the hello says. -/
theorem heardHello_learned (running : RunningFamily sender.ipver) {left : List Neighbor}
    (hosts : HostTable sender.ipver left)
    (kept : keptCount sender.ipver sender.clist.length = sender.clist.length)
    (destinations : (sender.clist.map Commodity.dest).Nodup) {own : Netaddr} {time : Timeval}
    (nlist : List Neighbor) :
    EntryChanges (ownNetaddr sender.saddr) (newNeighbor (ownNetaddr sender.saddr) time)
      (Learned sender left own time) nlist (heardHello own time (helloSent sender left) nlist) := by
  refine (heardHello_entryChanges own time (helloSent sender left) nlist).imp ?_
  rintro n n' ⟨rfl, isSender⟩
  have commodities : (helloSent sender left).commodities = sender.clist.map Commodity.cdata := by
    rw [helloSent, kept, List.take_of_length_le (Nat.le_of_eq (List.length_map _))]
  have distinct : ((helloSent sender left).commodities.map CommodityShort.addr).Nodup := by
    rw [commodities, List.map_map]
    exact destinations
  have lists : own ∈ (helloSent sender left).listed ↔ ∃ m ∈ left, m.addr = own := by
    rw [mem_listed_iff]
    constructor
    · rintro ⟨m, member, same⟩
      exact ⟨m, member, (hosts.listedAs_eq running member).symm.trans same⟩
    · rintro ⟨m, member, same⟩
      exact ⟨m, member, (hosts.listedAs_eq running member).trans same⟩
  refine ⟨isSender, rfl, ?_, ?_, ?_, ?_⟩
  · exact fun listed => if_pos (lists.mpr listed)
  · intro unlisted
    refine if_neg fun listed => ?_
    obtain ⟨m, member, same⟩ := lists.mp listed
    exact unlisted m member same
  · intro c member
    have carried : c.cdata ∈ (helloSent sender left).commodities := by
      rw [commodities]
      exact List.mem_map_of_mem member
    exact recordCommodities_self distinct carried
  · intro d other
    apply recordCommodities_other
    intro cdata member
    rw [commodities] at member
    obtain ⟨c, isOwn, rfl⟩ := List.mem_map.mp member
    exact other c isOwn

/-- Receiving the datagram of a hello round that fits: the sender sends it, the receiver returns, and the
    receiver's table changes in the sender's entry only, by what the hello says. -/
theorem hello_roundtrip (senderInet : sender.ipver = afInet) (senderOwn : sender.saddr.family = afInet)
    (receiverInet : receiver.ipver = afInet) (receiverOwn : receiver.saddr.family = afInet)
    (idle : Idle writer) (taken : ∀ datagram, sendto datagram = true)
    (destinations : (sender.clist.map Commodity.dest).Nodup)
    (hosts : HostTable afInet (ntableRefresh sender.neighborTimeout clock sender.nlist))
    (fits : 12 + 27 * sender.clist.length +
      8 * (ntableRefresh sender.neighborTimeout clock sender.nlist).length ≤ 509) :
    ∃ out sender' datagram nlist', helloCycle order padding clock sendto writer sender = .ok (out, sender') ∧
      out.datagrams = [datagram] ∧
      helloRecv receiver order ambient datagram = .ok { receiver with nlist := nlist' } ∧
      EntryChanges (ownNetaddr sender.saddr)
        (newNeighbor (ownNetaddr sender.saddr) (ambient.clock 0))
        (Learned sender (ntableRefresh sender.neighborTimeout clock sender.nlist)
          (ownNetaddr receiver.saddr) (ambient.clock 0)) receiver.nlist nlist' := by
  have running : RunningFamily sender.ipver := .inl senderInet
  generalize leftEq : ntableRefresh sender.neighborTimeout clock sender.nlist = left at hosts fits ⊢
  have hosts' : HostTable sender.ipver left := senderInet ▸ hosts
  obtain ⟨kept, size⟩ := @helloSize_le sender.ipver running sender.clist.length left hosts' (by
    rw [senderInet]
    exact fits)
  obtain ⟨writer', cycle, _⟩ := @helloCycle_sent order padding clock sendto writer sender senderInet idle
    (by
      rw [leftEq]
      exact size) taken
  obtain ⟨_, _, _, datagram, m, sent, _, scanned, wellFormed, means⟩ :=
    helloCycle_sends running (senderOwn.trans senderInet.symm) idle cycle
  rw [leftEq] at means
  have sameFamily : sender.ipver = receiver.ipver := senderInet.trans receiverInet.symm
  rw [sameFamily] at wellFormed means
  have received := @helloRecv_one receiver order ambient (.inl receiverInet) datagram m scanned wellFormed
  rw [means, heardHello_seen_inet receiverOwn] at received
  exact ⟨_, _, datagram, _, cycle, sent, received,
    heardHello_learned running hosts' kept destinations receiver.nlist⟩

end

/-- The daemon at 10.0.0.2 that holds five packets for 10.0.0.9 and has heard 10.0.0.1. -/
def speaker : BprdT :=
  { ipver := afInet, ifIndex := 1, saddr := ⟨afInet, [10, 0, 0, 2]⟩, helloSeqno := 41
    neighborTimeout := 2500000
    clist := [{ cdata := ⟨host4 [10, 0, 0, 9], 5⟩, backdiff := 0, nfqId := 1
                queue := some { head := 0, tail := 5, qh := some 7 } }]
    nlist := [newNeighbor (host4 [10, 0, 0, 1]) ⟨0, 0⟩] }

/-- A clock that stands still, so that no entry expires. -/
def stillClock (_ : Nat) : Timeval := ⟨0, 0⟩

theorem hello_roundtrip_run : ∃ out sender' datagram nlist',
    helloCycle .little (fun _ => (0, 0)) stillClock (fun _ => true) helloWriterInit speaker =
        .ok (out, sender') ∧
      out.datagrams = [datagram] ∧
      helloRecv listener .little stillAmbient datagram = .ok { listener with nlist := nlist' } ∧
      EntryChanges (ownNetaddr speaker.saddr) (newNeighbor (ownNetaddr speaker.saddr) ⟨0, 0⟩)
        (Learned speaker (ntableRefresh speaker.neighborTimeout stillClock speaker.nlist)
          (ownNetaddr listener.saddr) ⟨0, 0⟩) listener.nlist nlist' :=
  hello_roundtrip rfl rfl rfl rfl idle_helloWriterInit (fun _ => rfl) (by decide)
    (fun n member => ⟨[10, 0, 0, 1], by
      rw [List.mem_singleton.mp member]
      rfl⟩)
    (by decide)

/-! ### Capacity -/

/-- The hellos that some datagrams are read as. -/
def hellosOf (ipver : UInt8) (order : Words.ByteOrder) (datagrams : List (List UInt8)) : List Hello :=
  datagrams.flatMap fun datagram => (scanPacket datagram).1.map (helloOf ipver order)

/-- A hello round loses nothing and fits: it returns without overrunning a buffer, every datagram fits
    the receive buffer, and together the datagrams carry every commodity and list every neighbour left. -/
def HelloComplete (order : Words.ByteOrder) (padding : Nat → UInt8 × UInt8) (clock : Nat → Timeval)
    (sendto : List UInt8 → Bool) (writer : PbbWriter) (bprd : BprdT) : Prop :=
  ∃ out bprd', helloCycle order padding clock sendto writer bprd = .ok (out, bprd') ∧
    (∀ datagram ∈ out.datagrams, datagram.length ≤ mtu) ∧
    (hellosOf bprd.ipver order out.datagrams).flatMap Hello.commodities =
      bprd.clist.map Commodity.cdata ∧
    ∀ n ∈ ntableRefresh bprd.neighborTimeout clock bprd.nlist,
      ∃ hello ∈ hellosOf bprd.ipver order out.datagrams, listedAs bprd.ipver n ∈ hello.listed

section

variable {order : Words.ByteOrder} {padding : Nat → UInt8 × UInt8} {clock : Nat → Timeval}
  {sendto : List UInt8 → Bool}
  {writer : PbbWriter} {bprd : BprdT}

/-- The commodities that the datagrams of a round carry: the first ones, as many as fit. -/
theorem hellosOf_cycle (running : RunningFamily bprd.ipver) (own : bprd.saddr.family = bprd.ipver)
    (idle : Idle writer) {out : Written} {bprd' : BprdT}
    (ran : helloCycle order padding clock sendto writer bprd = .ok (out, bprd')) :
    hellosOf bprd.ipver order out.datagrams =
      [helloSent bprd (ntableRefresh bprd.neighborTimeout clock bprd.nlist)] := by
  obtain ⟨_, _, _, datagram, m, sent, _, scanned, _, means⟩ := helloCycle_sends running own idle ran
  rw [hellosOf, sent, List.flatMap_singleton, scanned, List.map_singleton, means]

/-- Over IPv4, when the socket takes what it is given, a round loses nothing and fits exactly when
    header, commodities and addresses together do. -/
theorem hello_complete_iff (inet : bprd.ipver = afInet) (own : bprd.saddr.family = afInet)
    (idle : Idle writer) (taken : ∀ datagram, sendto datagram = true) :
    HelloComplete order padding clock sendto writer bprd ↔
      12 + 27 * bprd.clist.length + ((addressHead 4
        (ntableRefresh bprd.neighborTimeout clock bprd.nlist)).map (blockSize 4)).sum ≤ 509 := by
  have sizes : 12 + 27 * bprd.clist.length + ((addressHead 4
      (ntableRefresh bprd.neighborTimeout clock bprd.nlist)).map (blockSize 4)).sum =
        helloHeaderSize bprd.ipver + comTlvSize * bprd.clist.length +
          blocksSize bprd.ipver (ntableRefresh bprd.neighborTimeout clock bprd.nlist) := by
    rw [blocksSize_eq, inet]
    rfl
  have running : RunningFamily bprd.ipver := .inl inet
  have own : bprd.saddr.family = bprd.ipver := own.trans inet.symm
  rw [sizes]
  show _ ↔ _ ≤ mtu - 3
  constructor
  · rintro ⟨out, bprd', ran, _, carried, _⟩
    obtain ⟨fits, _⟩ := helloCycle_sends running own idle ran
    rw [hellosOf_cycle running own idle ran, List.flatMap_singleton, helloSent] at carried
    have all := congrArg List.length carried
    rw [List.length_take, List.length_map, Nat.min_eq_left (keptCount_le _ _)] at all
    rw [helloSize, all] at fits
    exact fits
  · intro fits
    have kept : keptCount bprd.ipver bprd.clist.length = bprd.clist.length := by
      apply Nat.min_eq_left
      rw [Nat.le_div_iff_mul_le (by decide), Nat.mul_comm]
      omega
    obtain ⟨writer', cycle, _⟩ := @helloCycle_sent order padding clock sendto writer bprd inet idle
      (by
        rw [helloSize, kept]
        exact fits) taken
    have sent := hellosOf_cycle running own idle cycle
    obtain ⟨_, _, _, datagram, _, isSent, small, _⟩ := helloCycle_sends running own idle cycle
    refine ⟨_, _, cycle, ?_, ?_, ?_⟩
    · intro d member
      rw [isSent, List.mem_singleton] at member
      exact member ▸ small
    · rw [sent, List.flatMap_singleton, helloSent, kept,
        List.take_of_length_le (Nat.le_of_eq (List.length_map _))]
    · intro n member
      rw [sent]
      exact ⟨_, List.mem_singleton.mpr rfl, mem_listed_iff.mpr ⟨n, member, rfl⟩⟩

end

theorem hello_complete_speaker :
    HelloComplete .little (fun _ => (0, 0)) stillClock (fun _ => true) helloWriterInit speaker ↔
      12 + 27 * 1 + ((addressHead 4 speaker.nlist).map (blockSize 4)).sum ≤ 509 :=
  hello_complete_iff rfl rfl idle_helloWriterInit fun _ => rfl

/-- The daemon at 10.0.0.2 with no neighbours and commodities for 10.0.0.1, ..., 10.0.0.19. -/
def crowded : BprdT :=
  { speaker with
    clist := (List.range 19).map fun i =>
      { cdata := ⟨host4 [10, 0, 0, UInt8.ofNat (i + 1)], 0⟩, backdiff := 0, nfqId := UInt16.ofNat i
        queue := some fifoInit }
    nlist := [] }

/-- The round returns, and the hello carries 18 of the 19 commodities. -/
theorem hello_drops_commodity :
    ¬HelloComplete .little (fun _ => (0, 0)) stillClock (fun _ => true) helloWriterInit crowded := by
  rintro ⟨out, bprd', ran, _, carried, _⟩
  rw [hellosOf_cycle (.inl rfl) rfl idle_helloWriterInit ran, List.flatMap_singleton,
    helloSent] at carried
  have all := congrArg List.length carried
  rw [List.length_take, List.length_map] at all
  exact absurd all (by decide)

end Bprd
