/-
Module: Bprd.Proofs.CaptureRoutes
Layer: Proofs
Purpose: What a commodity captures and what it routes. Its two rules divert the packets of a prefix, its
  route covers the single host with the address bytes, and the test for the own address compares the
  prefix length too. The three agree exactly when the commodity string denotes a host.
Imports: Bprd.Proofs.RouteTracking, Bprd.Proofs.CommodityText, Bprd.Lib.BitPrefix
Trusted boundary: none
Main exports: capturedAddresses, coveredAddresses, denotedAddresses, CapturesWhatItRoutes, DenotesHost,
  capturesWhatItRoutes_iff, capture_routes_iff, prefix_captured_not_routed
-/
import Bprd.Proofs.RouteTracking
import Bprd.Proofs.CommodityText
import Bprd.Lib.BitPrefix

namespace Bprd

/-- The IPv4 addresses whose packets the rules of a commodity divert into its queue. -/
def capturedAddresses (own : Netaddr) (c : Commodity) : Set (List.Vector UInt8 4) :=
  {dst | ∀ chain, divert (captureRules own [c]) chain (padAddr dst.toList) = some c.nfqId}

/-- The IPv4 addresses that a route covers: `nl_addr_build` of four bytes is a single host. -/
def coveredAddresses (route : RouteUpdate) : Set (List.Vector UInt8 4) :=
  {dst | route.family = afInet ∧ route.dst = dst.toList}

/-- The IPv4 addresses in the destination of a commodity. -/
def denotedAddresses (c : Commodity) : Set (List.Vector UInt8 4) :=
  {dst | matchesPrefix c.cdata.addr (padAddr dst.toList) = true}

/-- The rules of a commodity divert what its route covers, and a node recognises the commodity as its own
    exactly when its own address is in its destination. `saddr` is the address of the node, and `copied`
    is what the start of the backlogger has read of it. -/
structure CapturesWhatItRoutes (copied : Netaddr) (saddr : Sockaddr) (c : Commodity) : Prop where
  /-- When there are rules, every route that an update sets to the destination covers what they divert. -/
  sameAddresses : captureRules copied [c] ≠ [] → ∀ tie leftover bprd bprd' routes,
    bprd.ipver = afInet → bprd.saddr = saddr → (∃ d ∈ bprd.clist, d.cdata.addr = c.cdata.addr) →
      routerUpdate tie leftover bprd = .ok (bprd', routes) →
        ∀ route ∈ routes, route.key = routeKey afInet c.cdata.addr →
          coveredAddresses route = capturedAddresses copied c
  /-- There are no rules exactly when the own address is in the destination. -/
  ownRules : captureRules copied [c] = [] ↔ ∃ dst ∈ denotedAddresses c, dst.toList = saddr.addr.take 4
  /-- Without rules, no update sets a route. -/
  ownRoutes : captureRules copied [c] = [] → ∀ tie leftover bprd nlist tests tests' c' routes,
    updateCommodity (copiedNetaddr leftover saddr) bprd tie nlist tests c = .ok (tests', c', routes) →
      routes = []

/-- The address in a commodity string has no prefix length, or the numeric prefix length 32. -/
def DenotesHost (buf : List Char) : Prop :=
  match (splitPrefix (strTrim (strscpy (addressText buf) sizeofNetaddrStr))).2 with
  | none => True
  | some text => numericPrefix text = 32

/-! ### Prefixes and hosts -/

section

variable {bytes : List UInt8}

theorem toList_padAddr_take (four : bytes.length = 4) : (padAddr bytes).toList.take 4 = bytes := by
  show ((bytes ++ List.replicate 16 0).take 16).take 4 = bytes
  rw [List.take_take, List.take_append_of_le_length (by omega), List.take_of_length_le (by omega)]

theorem addrBit_padAddr (four : bytes.length = 4) {i : Nat} (inside : i < 32) :
    addrBit (padAddr bytes) i = BitPrefix.bit bytes i := by
  have position : i / 8 < 4 := by omega
  rw [addrBit, BitPrefix.bit, List.getD_eq_getElem?_getD, List.getD_eq_getElem?_getD]
  conv_rhs => rw [← toList_padAddr_take four]
  rw [List.getElem?_take_of_lt position]

theorem matchesPrefix_iff {dst : List UInt8} {type p : UInt8} (four : bytes.length = 4)
    (fourDst : dst.length = 4) (within : p.toNat ≤ 32) :
    matchesPrefix ⟨padAddr bytes, type, p⟩ (padAddr dst) = true ↔
      BitPrefix.Agree p.toNat bytes dst := by
  rw [matchesPrefix, List.all_eq_true]
  constructor
  · intro all i inside
    have bits := all i (List.mem_range.mpr inside)
    rw [addrBit_padAddr four (by omega), addrBit_padAddr fourDst (by omega), beq_iff_eq] at bits
    exact bits
  · intro agree i member
    have inside := List.mem_range.mp member
    dsimp only at inside ⊢
    rw [addrBit_padAddr four (by omega), addrBit_padAddr fourDst (by omega), beq_iff_eq]
    exact agree i inside

/-- A prefix of 32 bits holds its own address only. -/
theorem matchesHost_iff {dst : List UInt8} {type : UInt8} (four : bytes.length = 4)
    (fourDst : dst.length = 4) :
    matchesPrefix ⟨padAddr bytes, type, 32⟩ (padAddr dst) = true ↔ bytes = dst := by
  rw [matchesPrefix_iff four fourDst (by decide), ← BitPrefix.agree_iff_eq (four.trans fourDst.symm), four]
  rfl

end

/-! ### Rules and routes -/

section

variable {own : Netaddr} {c : Commodity}

theorem captureRules_eq_nil : captureRules own [c] = [] ↔ own = c.cdata.addr := by
  rw [captureRules, List.flatMap_singleton]
  by_cases isOwn : own = c.cdata.addr
  · rw [if_pos (netaddrCmp_eq_zero.mpr isOwn)]
    exact iff_of_true rfl isOwn
  · rw [if_neg fun same => isOwn (netaddrCmp_eq_zero.mp same)]
    exact iff_of_false (List.cons_ne_nil _ _) isOwn

/-- Both rules divert what the destination denotes. -/
theorem capturedAddresses_eq (forOthers : own ≠ c.cdata.addr) :
    capturedAddresses own c = denotedAddresses c := by
  have rules : captureRules own [c] =
      [⟨.output, c.cdata.addr, c.nfqId⟩, ⟨.prerouting, c.cdata.addr, c.nfqId⟩] := by
    rw [captureRules, List.flatMap_singleton, if_neg fun same => forOthers (netaddrCmp_eq_zero.mp same)]
  ext dst
  show (∀ chain, divert (captureRules own [c]) chain (padAddr dst.toList) = some c.nfqId) ↔
    matchesPrefix c.cdata.addr (padAddr dst.toList) = true
  rw [rules]
  cases inside : matchesPrefix c.cdata.addr (padAddr dst.toList) with
  | true =>
      refine iff_of_true ?_ rfl
      intro chain
      cases chain with
      | output => simp [divert, inside]
      | prerouting => simp [divert, inside]
  | false =>
      refine iff_of_false ?_ Bool.false_ne_true
      intro diverted
      have output := diverted .output
      simp [divert, inside] at output

/-- A route covers the host with the address bytes of its destination. -/
theorem mem_coveredAddresses {route : RouteUpdate} (isRoute : route.key = routeKey afInet c.cdata.addr)
    {dst : List.Vector UInt8 4} :
    dst ∈ coveredAddresses route ↔ addressBytes afInet c.cdata.addr = dst.toList := by
  have family : route.family = afInet := congrArg Prod.fst isRoute
  have isDest : route.dst = addressBytes afInet c.cdata.addr := congrArg Prod.snd isRoute
  rw [← isDest]
  exact and_iff_right family

/-- A daemon with one commodity and one bidirectional neighbour. -/
def oneNeighbor (saddr : Sockaddr) (c : Commodity) : BprdT :=
  { ipver := afInet, ifIndex := 1, saddr := saddr, helloSeqno := 0, neighborTimeout := 0
    clist := [{ c with queue := some fifoInit }]
    nlist := [{ addr := c.cdata.addr, bidir := 1, updateTime := ⟨0, 0⟩, clist := [c] }] }

/-- Every commodity that is not recognised as own gets a route in some update. -/
theorem exists_route {saddr : Sockaddr} {leftover : Leftover}
    (forOthers : copiedNetaddr leftover saddr ≠ c.cdata.addr) (tie : TieTest) : ∃ bprd' routes,
    routerUpdate tie leftover (oneNeighbor saddr c) = .ok (bprd', routes) ∧
      ∃ route ∈ routes, route.key = routeKey afInet c.cdata.addr := by
  have lists : ListsOwn (oneNeighbor saddr c) := by
    intro n member addr
    obtain rfl := List.mem_singleton.mp member
    simp [oneNeighbor]
  have queues : ∀ d ∈ (oneNeighbor saddr c).clist, ∃ queue, d.queue = some queue := by
    intro d member
    obtain rfl := List.mem_singleton.mp member
    exact ⟨_, rfl⟩
  obtain ⟨bprd', routes, ran⟩ := @routerUpdate_total tie leftover _ lists queues
  refine ⟨bprd', routes, ran, ?_⟩
  have usable : Usable (oneNeighbor saddr c) :=
    ⟨_, List.mem_singleton.mpr rfl, (by decide : (1 : UInt8) ≠ 0)⟩
  obtain ⟨sameIpver, sameSaddr, _, _⟩ := routerUpdate_frame ran
  obtain ⟨d, isOwn, _, _, _, rfl, _⟩ :=
    Fallible.related_mem_left (routerUpdate_commodities ran) (List.mem_singleton.mpr rfl)
  obtain ⟨route, set, isKey⟩ := routerUpdate_sets ran usable isOwn (by
    rw [sameSaddr]
    exact forOthers)
  rw [sameIpver] at isKey
  exact ⟨route, set, isKey⟩

end

/-! ### Hosts and networks -/

section

variable {leftover : Leftover} {saddr : Sockaddr} {c : Commodity} {bytes : List UInt8} {p : UInt8}

theorem ownNetaddr_host (family : saddr.family = afInet) :
    ownNetaddr saddr = ⟨padAddr (saddr.addr.take 4), afInet, 32⟩ := by
  rw [ownNetaddr_inet family, host4]

theorem addressBytes_inet (four : bytes.length = 4) (isDest : c.cdata.addr = ⟨padAddr bytes, afInet, p⟩) :
    addressBytes afInet c.cdata.addr = bytes := by
  rw [isDest]
  simp only [addressBytes, if_pos]
  exact toList_padAddr_take four

theorem padAddr_inj {bs : List UInt8} (four : bytes.length = 4) (fourOther : bs.length = 4) :
    padAddr bytes = padAddr bs ↔ bytes = bs := by
  constructor
  · intro same
    rw [← toList_padAddr_take four, same, toList_padAddr_take fourOther]
  · rintro rfl
    rfl

/-- A destination with a full prefix denotes its own address only. -/
theorem mem_denotedAddresses_host {dst : List.Vector UInt8 4} (four : bytes.length = 4)
    (isDest : c.cdata.addr = ⟨padAddr bytes, afInet, 32⟩) : dst ∈ denotedAddresses c ↔ bytes = dst.toList := by
  show matchesPrefix c.cdata.addr (padAddr dst.toList) = true ↔ bytes = dst.toList
  rw [isDest]
  exact matchesHost_iff four dst.toList_length

/-- A destination with a shorter prefix denotes another address too: the one with the last bit inverted. -/
theorem exists_denoted_other (four : bytes.length = 4) (shorter : p.toNat < 32)
    (isDest : c.cdata.addr = ⟨padAddr bytes, afInet, p⟩) :
    ∃ dst ∈ denotedAddresses c, dst.toList ≠ bytes := by
  have fourFlipped : (BitPrefix.flipLast bytes).length = 4 :=
    (BitPrefix.length_flipLast bytes).trans four
  have nonempty : bytes ≠ [] := by
    rintro rfl
    cases four
  refine ⟨⟨BitPrefix.flipLast bytes, fourFlipped⟩, ?_, BitPrefix.flipLast_ne nonempty⟩
  show matchesPrefix c.cdata.addr (padAddr (BitPrefix.flipLast bytes)) = true
  rw [isDest]
  exact (matchesPrefix_iff four fourFlipped (Nat.le_of_lt shorter)).mpr
    (BitPrefix.agree_flipLast (by omega))

/-- The three uses of an accepted IPv4 destination agree exactly when it is a host. -/
theorem capturesWhatItRoutes_iff (family : saddr.family = afInet) (ownFour : 4 ≤ saddr.addr.length)
    (four : bytes.length = 4) (within : p.toNat ≤ 32)
    (isDest : c.cdata.addr = ⟨padAddr bytes, afInet, p⟩) :
    CapturesWhatItRoutes (copiedNetaddr leftover saddr) saddr c ↔ p = 32 := by
  rw [copiedNetaddr_inet family]
  have fourOwn : (saddr.addr.take 4).length = 4 := by
    rw [List.length_take]
    omega
  constructor
  · intro agree
    by_contra network
    have forOthers : ownNetaddr saddr ≠ c.cdata.addr := by
      rw [ownNetaddr_host family, isDest]
      intro same
      exact network (congrArg Netaddr.prefixLen same).symm
    have rules : captureRules (ownNetaddr saddr) [c] ≠ [] := mt captureRules_eq_nil.mp forOthers
    have isForeign : copiedNetaddr leftover saddr ≠ c.cdata.addr := by
      rw [copiedNetaddr_inet family]
      exact forOthers
    obtain ⟨bprd', routes, ran, route, set, isKey⟩ := exists_route isForeign acceptTies
    have same := agree.sameAddresses rules acceptTies leftover (oneNeighbor saddr c) bprd' routes rfl rfl
      ⟨_, List.mem_singleton.mpr rfl, rfl⟩ ran route set isKey
    rw [capturedAddresses_eq forOthers] at same
    have shorter : p.toNat < 32 := by
      have notFull : p.toNat ≠ 32 := fun full => network (UInt8.toNat_inj.mp full)
      omega
    obtain ⟨flipped, diverted, other⟩ := exists_denoted_other four shorter isDest
    rw [← same, mem_coveredAddresses isKey, addressBytes_inet four isDest] at diverted
    exact other diverted.symm
  · rintro rfl
    refine ⟨?_, ?_, ?_⟩
    · intro rules tie _ bprd bprd' routes _ _ _ _ route _ isKey
      have forOthers : ownNetaddr saddr ≠ c.cdata.addr := mt captureRules_eq_nil.mpr rules
      ext dst
      rw [mem_coveredAddresses isKey, addressBytes_inet four isDest, capturedAddresses_eq forOthers,
        mem_denotedAddresses_host four isDest]
    · rw [captureRules_eq_nil, ownNetaddr_host family, isDest]
      constructor
      · intro same
        have sameBytes := (padAddr_inj fourOwn four).mp (congrArg Netaddr.addr same)
        exact ⟨⟨bytes, four⟩, (mem_denotedAddresses_host four isDest).mpr rfl, sameBytes.symm⟩
      · rintro ⟨dst, inside, isOwn⟩
        rw [(mem_denotedAddresses_host four isDest).mp inside, isOwn]
    · intro noRules tie leftover bprd nlist tests tests' c' routes ran
      have isOwn := netaddrCmp_eq_zero.mpr (captureRules_eq_nil.mp noRules)
      rw [copiedNetaddr_inet family, updateCommodity, if_pos isOwn] at ran
      cases ran
      rfl

end

/-! ### Commodity strings -/

theorem maskSearch_lt (v4 : UInt32) : ∀ (n : Nat) (shift : UInt32), maskSearch v4 n shift < n
  | 0, _ => by rw [maskSearch]; decide
  | len + 1, shift => by
      rw [maskSearch]
      split
      · exact Int.ofNat_lt.mpr (Nat.lt_succ_self len)
      · exact Int.lt_trans (maskSearch_lt v4 len _) (Int.ofNat_lt.mpr (Nat.lt_succ_self len))

/-- No subnet mask gives the prefix length 32. -/
theorem subnetmaskToPrefixlen_ne (text : List Char) : subnetmaskToPrefixlen text ≠ 32 := by
  unfold subnetmaskToPrefixlen
  split
  · decide
  · exact Int.ne_of_lt (maskSearch_lt _ 32 _)

theorem prefixFromString_host (text : List Char) :
    prefixFromString afInet text = 32 ↔ numericPrefix text = 32 := by
  unfold prefixFromString
  split
  · rename_i mask
    rw [mask.2]
    exact iff_of_false (subnetmaskToPrefixlen_ne text) (by decide)
  · rfl

/-- The destination that an accepted string gives to an IPv4 commodity. -/
theorem commodityOf_inet {buf : List Char} {c : Commodity} (read : commodityOf buf = .ok c)
    (family : c.cdata.addr.type = afInet) :
    ∃ bytes p, bytes.length = 4 ∧ p.toNat ≤ 32 ∧ c.cdata.addr = ⟨padAddr bytes, afInet, p⟩ ∧
      (p = 32 ↔ DenotesHost buf) := by
  obtain ⟨_, _, number, rest, addr, _, parsed, rfl⟩ := commodityOf_ok read
  obtain ⟨_, type, maxPrefix, bytes, host, lower, upper, rfl⟩ := netaddrFromString_ok parsed
  have inet : type = afInet := family
  subst inet
  obtain ⟨_, rfl, quad⟩ : afInet = afInet ∧ maxPrefix = 32 ∧ CText.inetPton4 _ = some bytes := by
    rcases hostFromString_cases host with inet | ⟨other, _⟩ | other | other
    · exact inet
    · exact absurd other (by decide)
    · exact absurd other (by decide)
    · exact absurd other (by decide)
  unfold DenotesHost
  generalize (splitPrefix (strTrim (strscpy (addressText buf) sizeofNetaddrStr))).2 = prefixText
    at lower upper ⊢
  have value : (UInt8.ofNat (prefixOf afInet 32 prefixText).toNat).toNat =
      (prefixOf afInet 32 prefixText).toNat := by
    rw [UInt8.toNat_ofNat']
    exact Nat.mod_eq_of_lt (by omega)
  refine ⟨bytes, _, CText.inetPton4_length quad, ?_, rfl, ?_⟩
  · omega
  · rw [← UInt8.toNat_inj, value]
    have full : (prefixOf afInet 32 prefixText).toNat = (32 : UInt8).toNat ↔
        prefixOf afInet 32 prefixText = 32 := by
      rw [show (32 : UInt8).toNat = 32 from rfl]
      omega
    rw [full]
    cases prefixText with
    | none => exact iff_of_true rfl trivial
    | some text => exact prefixFromString_host text

/-- Every string that is accepted for IPv4 gives a commodity, and this captures what it routes if and only
    if the string denotes a host. -/
theorem capture_routes_iff (leftover : Leftover) {strings : List (List Char)} {clist : List Commodity}
    {saddr : Sockaddr} (family : saddr.family = afInet) (ownFour : 4 ≤ saddr.addr.length)
    (accepted : initCommodities afInet strings = .ok clist) {s : List Char} (member : s ∈ strings) :
    ∃ c ∈ clist, commodityOf s = .ok c ∧
      (CapturesWhatItRoutes (copiedNetaddr leftover saddr) saddr c ↔ DenotesHost s) := by
  obtain ⟨cs, all, rfl, _, families⟩ := initCommodities_ok accepted
  obtain ⟨c, isOwn, read⟩ := Fallible.related_mem_left all member
  obtain ⟨bytes, p, four, within, isDest, host⟩ := commodityOf_inet read (families c isOwn)
  refine ⟨c, List.mem_reverse.mpr isOwn, read, ?_⟩
  rw [capturesWhatItRoutes_iff family ownFour four within isDest, host]

/-- The address of the node 10.0.0.1. -/
def hostOne : Sockaddr := ⟨afInet, [10, 0, 0, 1]⟩

theorem capture_routes_host : ∃ c ∈ [newCommodity (host4 [10, 0, 0, 9], 1)],
    commodityOf "10.0.0.9,1".toList = .ok c ∧
      (CapturesWhatItRoutes (copiedNetaddr zeroLeftover hostOne) hostOne c ↔
        DenotesHost "10.0.0.9,1".toList) :=
  @capture_routes_iff zeroLeftover ["10.0.0.9,1".toList] _ hostOne rfl (by decide) rfl
    "10.0.0.9,1".toList (by decide)

/-- The commodity 10.0.0.0/24 is accepted, diverts the packets of the whole network, and routes its first
    address. -/
theorem prefix_captured_not_routed : ∃ clist, ∃ c ∈ clist,
    initCommodities afInet ["10.0.0.0/24,1".toList] = .ok clist ∧
      ¬CapturesWhatItRoutes (copiedNetaddr zeroLeftover hostOne) hostOne c := by
  refine ⟨[newCommodity (⟨padAddr [10, 0, 0, 0], afInet, 24⟩, 1)], _, List.mem_singleton.mpr rfl, rfl, ?_⟩
  rw [capturesWhatItRoutes_iff (p := 24) rfl (by decide) (by decide) (by decide) rfl]
  decide

end Bprd
