/-
Module: Bprd.Proofs.CommodityText
Layer: Proofs
Purpose: What has been read when commodity strings are accepted. An accepted address text gives the bytes
  of its host part and a prefix length within the family's bound; a list of strings is accepted when every
  string gives a commodity, no two have the same destination, and all have the running family; it is
  refused with a message when one names no address or an address for the second time, or when the families
  differ.
Imports: Bprd.Model.Config, Bprd.Lib.Fallible, Bprd.Model.Node
Trusted boundary: none
Main exports: hostFromString_cases, netaddrFromString_ok, commodityOf_ok, initCommodities_ok,
  namedAddress, Refused, initCommodities_refused_iff
-/
import Bprd.Model.Config
import Bprd.Lib.Fallible
import Bprd.Model.Node

namespace Bprd

open CText (inetPton4 inetPton6)
open Fallible (bind_eq_ok_iff)

/-! ### Addresses -/

section

variable {text : List Char} {type : UInt8} {maxPrefix : Nat} {bytes : List UInt8} {addr : Netaddr}

/-- What each branch on the punctuation yields. -/
theorem hostFromString_cases (read : hostFromString text = some (type, maxPrefix, bytes)) :
    (type = afInet ∧ maxPrefix = 32 ∧ inetPton4 text = some bytes) ∨
      (type = afInet6 ∧ maxPrefix = 128 ∧ inetPton6 text = some bytes) ∨
      type = afMac48 ∨ type = afEui64 := by
  unfold hostFromString at read
  dsimp only at read
  split at read
  · obtain ⟨_, _, same⟩ := Option.map_eq_some_iff.mp read
    exact .inr (.inr (.inl (congrArg Prod.fst same).symm))
  · split at read
    · obtain ⟨_, _, same⟩ := Option.map_eq_some_iff.mp read
      exact .inr (.inr (.inr (congrArg Prod.fst same).symm))
    · split at read
      · obtain ⟨_, parsed, same⟩ := Option.map_eq_some_iff.mp read
        cases same
        exact .inl ⟨rfl, rfl, parsed⟩
      · split at read
        · obtain ⟨_, parsed, same⟩ := Option.map_eq_some_iff.mp read
          cases same
          exact .inr (.inl ⟨rfl, rfl, parsed⟩)
        · cases read

/-- The prefix length that an accepted text gives. -/
def prefixOf (type : UInt8) (maxPrefix : Nat) : Option (List Char) → Int
  | none => maxPrefix
  | some text => prefixFromString type text

/-- An accepted address text: the parts it splits into, and the address they give. -/
theorem netaddrFromString_ok {src : List Char} (read : netaddrFromString src = some addr) :
    (splitPrefix (strTrim (strscpy src sizeofNetaddrStr))).2 ≠ some [] ∧ ∃ type maxPrefix bytes,
      hostFromString (splitPrefix (strTrim (strscpy src sizeofNetaddrStr))).1 =
          some (type, maxPrefix, bytes) ∧
        0 ≤ prefixOf type maxPrefix (splitPrefix (strTrim (strscpy src sizeofNetaddrStr))).2 ∧
        prefixOf type maxPrefix (splitPrefix (strTrim (strscpy src sizeofNetaddrStr))).2 ≤ maxPrefix ∧
        addr = ⟨padAddr bytes, type, UInt8.ofNat
          (prefixOf type maxPrefix (splitPrefix (strTrim (strscpy src sizeofNetaddrStr))).2).toNat⟩ := by
  unfold netaddrFromString at read
  generalize splitPrefix (strTrim (strscpy src sizeofNetaddrStr)) = parts at read ⊢
  obtain ⟨host, prefixText⟩ := parts
  dsimp only at read ⊢
  split at read
  · cases read
  · rename_i present
    cases parsed : hostFromString host with
    | none =>
        rw [parsed] at read
        cases read
    | some result =>
        obtain ⟨type, maxPrefix, bytes⟩ := result
        rw [parsed] at read
        refine ⟨present, type, maxPrefix, bytes, rfl, ?_⟩
        cases prefixText with
        | none =>
            cases read
            refine ⟨Int.natCast_nonneg _, Int.le_refl _, ?_⟩
            rw [prefixOf, Int.toNat_natCast]
        | some text =>
            dsimp only at read
            split at read
            · cases read
            · rename_i within
              cases read
              rw [prefixOf]
              refine ⟨?_, ?_, rfl⟩
              · omega
              · omega

end

/-! ### Commodities -/

section

variable {buf : List Char} {c : Commodity} {ipver : UInt8}

/-- The text that `create_commodity` takes for the address. -/
def addressText (buf : List Char) : List Char := buf.takeWhile fun c => c != ','

/-- The text that it takes for the queue number and what follows it. -/
def numberText (buf : List Char) : List Char := (buf.dropWhile fun c => c != ',').tail

theorem scanCommodity_ok {addrstr : List Char} {nfqId : UInt32} :
    scanCommodity buf = .ok (addrstr, nfqId) ↔
      (addressText buf).length < 256 ∧ addressText buf ≠ [] ∧ addrstr = addressText buf ∧
        ∃ number rest, CText.strtoul (numberText buf) = some (number, rest) ∧
          nfqId = number.toUInt32 := by
  unfold scanCommodity
  dsimp only
  rw [← addressText, ← numberText]
  split
  · rename_i long
    simp [Nat.not_lt.mpr long]
  · rename_i short
    split
    · rename_i empty
      simp [empty]
    · rename_i nonempty
      cases CText.strtoul (numberText buf) with
      | none => simp
      | some result =>
          simp [Nat.lt_of_not_le short, nonempty, eq_comm, Prod.ext_iff]

/-- An accepted commodity string. -/
theorem commodityOf_ok (read : commodityOf buf = .ok c) :
    (addressText buf).length < 256 ∧ addressText buf ≠ [] ∧
      ∃ number rest addr, CText.strtoul (numberText buf) = some (number, rest) ∧
        netaddrFromString (addressText buf) = some addr ∧
        c = newCommodity (addr, number.toUInt32.toUInt16) := by
  obtain ⟨⟨addrstr, nfqId⟩, scanned, filled⟩ := bind_eq_ok_iff.mp read
  obtain ⟨short, nonempty, rfl, number, rest, isNumber, rfl⟩ := scanCommodity_ok.mp scanned
  dsimp only at filled
  cases parsed : netaddrFromString (addressText buf) with
  | none =>
      rw [parsed] at filled
      cases filled
  | some addr =>
      rw [parsed] at filled
      cases filled
      exact ⟨short, nonempty, number, rest, addr, isNumber, rfl, rfl⟩

/-- A string is refused with a message, unless its address does not fit the buffer of the scan. -/
theorem commodityOf_error {fault : Fault} (failed : commodityOf buf = .error fault) :
    (∃ message, fault = .logErr message) ∨ 256 ≤ (addressText buf).length := by
  unfold commodityOf scanCommodity at failed
  dsimp only at failed
  rw [← addressText, ← numberText] at failed
  split at failed
  · rename_i long
    exact .inr long
  · refine .inl ?_
    split at failed
    · cases failed
      exact ⟨_, rfl⟩
    · cases number : CText.strtoul (numberText buf) with
      | none =>
          rw [number] at failed
          cases failed
          exact ⟨_, rfl⟩
      | some result =>
          rw [number, Fallible.ok_bind] at failed
          dsimp only at failed
          cases parsed : netaddrFromString (addressText buf) with
          | none =>
              rw [parsed] at failed
              cases failed
              exact ⟨_, rfl⟩
          | some addr =>
              rw [parsed] at failed
              cases failed

variable {clist clist' : List Commodity}

theorem createCommodity_ok : createCommodity clist buf = .ok clist' ↔
    ∃ c, commodityOf buf = .ok c ∧ (∀ d ∈ clist, d.cdata.addr ≠ c.cdata.addr) ∧
      clist' = c :: clist := by
  unfold createCommodity
  rw [bind_eq_ok_iff]
  constructor
  · rintro ⟨c, read, inserted⟩
    refine ⟨c, read, ?_⟩
    cases found : clistFind clist c with
    | some i =>
        rw [found] at inserted
        cases inserted
    | none =>
        rw [found] at inserted
        cases inserted
        rw [clistFind_eq, List.findIdx?_eq_none_iff] at found
        exact ⟨fun d member same => absurd (found d member) (by simp [same]), rfl⟩
  · rintro ⟨c, read, fresh, rfl⟩
    refine ⟨c, read, ?_⟩
    have absent : clistFind clist c = none := by
      rw [clistFind_eq, List.findIdx?_eq_none_iff]
      intro d member
      exact decide_eq_false (fresh d member)
    rw [absent]
    rfl

theorem createCommodity_error {fault : Fault} (failed : createCommodity clist buf = .error fault) :
    (∃ message, fault = .logErr message) ∨ 256 ≤ (addressText buf).length := by
  unfold createCommodity at failed
  cases read : commodityOf buf with
  | error fault' =>
      rw [read] at failed
      cases failed
      exact commodityOf_error read
  | ok c =>
      rw [read, Fallible.ok_bind] at failed
      cases found : clistFind clist c with
      | some i =>
          rw [found] at failed
          cases failed
          exact .inl ⟨_, rfl⟩
      | none =>
          rw [found] at failed
          cases failed

/-- Strings taken one after the other: one commodity for each, newest first, with new destinations. -/
theorem createAll_ok : ∀ {strings : List (List Char)} {clist : List Commodity},
    strings.foldlM createCommodity clist = .ok clist' →
      (clist.map fun c => c.cdata.addr).Nodup →
        ∃ cs, List.Forall₂ (fun s c => commodityOf s = .ok c) strings cs ∧
          clist' = cs.reverse ++ clist ∧ (clist'.map fun c => c.cdata.addr).Nodup
  | [], clist, ran, distinct => by
      cases ran
      exact ⟨[], .nil, rfl, distinct⟩
  | s :: strings, clist, ran, distinct => by
      rw [List.foldlM_cons] at ran
      obtain ⟨clist₁, created, later⟩ := bind_eq_ok_iff.mp ran
      obtain ⟨c, read, fresh, rfl⟩ := createCommodity_ok.mp created
      have distinct₁ : ((c :: clist).map fun c => c.cdata.addr).Nodup := by
        rw [List.map_cons, List.nodup_cons]
        refine ⟨?_, distinct⟩
        intro present
        obtain ⟨d, member, same⟩ := List.mem_map.mp present
        exact fresh d member same
      obtain ⟨cs, all, rfl, distinct'⟩ := createAll_ok later distinct₁
      refine ⟨c :: cs, .cons read all, ?_, distinct'⟩
      rw [List.reverse_cons, List.append_assoc, List.singleton_append]

theorem createAll_error {fault : Fault} : ∀ {strings : List (List Char)} {clist : List Commodity},
    strings.foldlM createCommodity clist = .error fault →
      (∃ message, fault = .logErr message) ∨ ∃ s ∈ strings, 256 ≤ (addressText s).length
  | [], clist, failed => by cases failed
  | s :: strings, clist, failed => by
      rw [List.foldlM_cons] at failed
      cases created : createCommodity clist s with
      | error fault' =>
          rw [created] at failed
          cases failed
          exact (createCommodity_error created).imp_right fun long => ⟨s, List.mem_cons_self .., long⟩
      | ok clist₁ =>
          rw [created, Fallible.ok_bind] at failed
          exact (createAll_error failed).imp_right fun ⟨t, member, long⟩ =>
            ⟨t, List.mem_cons_of_mem _ member, long⟩

theorem checkFamilies_ok : ∀ {clist : List Commodity}, checkFamilies ipver clist = .ok () →
    ∀ c ∈ clist, c.cdata.addr.type = ipver
  | [], _, c, member => absurd member List.not_mem_nil
  | d :: clist, passed, c, member => by
      rw [checkFamilies] at passed
      split at passed
      · cases passed
      · rename_i same
        rcases List.mem_cons.mp member with rfl | later
        · exact not_not.mp same
        · exact checkFamilies_ok passed c later

theorem checkFamilies_error {fault : Fault} : ∀ {clist : List Commodity},
    checkFamilies ipver clist = .error fault → ∃ message, fault = .logErr message
  | [], failed => by cases failed
  | d :: clist, failed => by
      rw [checkFamilies] at failed
      split at failed
      · cases failed
        exact ⟨_, rfl⟩
      · exact checkFamilies_error failed

/-- The accepted commodity strings of a daemon. -/
theorem initCommodities_ok {strings : List (List Char)}
    (accepted : initCommodities ipver strings = .ok clist) :
    ∃ cs, List.Forall₂ (fun s c => commodityOf s = .ok c) strings cs ∧ clist = cs.reverse ∧
      (cs.map fun c => c.cdata.addr).Nodup ∧ ∀ c ∈ cs, c.cdata.addr.type = ipver := by
  obtain ⟨clist₁, created, rest⟩ := bind_eq_ok_iff.mp accepted
  obtain ⟨_, _, families⟩ := bind_eq_ok_iff.mp rest
  obtain ⟨_, passed, same⟩ := bind_eq_ok_iff.mp families
  cases same
  obtain ⟨cs, all, rfl, distinct⟩ := createAll_ok created List.nodup_nil
  rw [List.append_nil] at distinct passed ⊢
  rw [List.map_reverse, List.nodup_reverse] at distinct
  refine ⟨cs, all, rfl, distinct, ?_⟩
  intro c member
  exact checkFamilies_ok passed c (List.mem_reverse.mpr member)

theorem initCommodities_ipver {strings : List (List Char)}
    (accepted : initCommodities ipver strings = .ok clist) : ipver = afInet ∨ ipver = afInet6 := by
  obtain ⟨_, _, rest⟩ := bind_eq_ok_iff.mp accepted
  obtain ⟨_, version, _⟩ := bind_eq_ok_iff.mp rest
  unfold checkIpver at version
  split at version
  · cases version
  · rename_i known
    by_contra neither
    exact known (not_or.mp neither)

/-- They are refused with a message, unless one of the addresses does not fit the buffer of the scan. -/
theorem initCommodities_error {strings : List (List Char)} {fault : Fault}
    (failed : initCommodities ipver strings = .error fault) :
    (∃ message, fault = .logErr message) ∨ ∃ s ∈ strings, 256 ≤ (addressText s).length := by
  unfold initCommodities at failed
  cases created : strings.foldlM createCommodity [] with
  | error fault' =>
      rw [created] at failed
      cases failed
      exact createAll_error created
  | ok clist =>
      rw [created, Fallible.ok_bind] at failed
      cases version : checkIpver ipver with
      | error fault' =>
          rw [version] at failed
          cases failed
          unfold checkIpver at version
          split at version
          · cases version
            exact .inl ⟨_, rfl⟩
          · cases version
      | ok _ =>
          rw [version, Fallible.ok_bind] at failed
          cases passed : checkFamilies ipver clist with
          | error fault' =>
              rw [passed] at failed
              cases failed
              exact .inl (checkFamilies_error passed)
          | ok _ =>
              rw [passed] at failed
              cases failed

/-! ### Refusals -/

/-- The destination that a string names: the address before its comma, if it has one and if a number
    follows the comma. -/
def namedAddress (s : List Char) : Option Netaddr :=
  if addressText s = [] ∨ CText.strtoul (numberText s) = none then none
  else netaddrFromString (addressText s)

/-- The string names no destination, or one of those that are named. -/
def Unwelcome (named : List (Option Netaddr)) (s : List Char) : Prop :=
  namedAddress s = none ∨ namedAddress s ∈ named

/-- Behind the destinations that are named, some string is unwelcome; up to there all addresses fit the
    buffer of the scan. -/
def RefusedAfter (named : List (Option Netaddr)) (strings : List (List Char)) : Prop :=
  ∃ before s after, strings = before ++ s :: after ∧ (∀ t ∈ s :: before, (addressText t).length < 256) ∧
    Unwelcome (before.map namedAddress ++ named) s

/-- The strings of a start that is refused with a message: one of them names no destination or one that a
    string before it names, or the IP version is unknown, or a destination has the other one. -/
def Refused (ipver : UInt8) (strings : List (List Char)) : Prop :=
  RefusedAfter [] strings ∨
  (∀ s ∈ strings, (addressText s).length < 256) ∧
    ((ipver ≠ afInet ∧ ipver ≠ afInet6) ∨
      ∃ s ∈ strings, ∃ addr, namedAddress s = some addr ∧ addr.type ≠ ipver)

theorem namedAddress_of_ok (read : commodityOf buf = .ok c) :
    (addressText buf).length < 256 ∧ namedAddress buf = some c.cdata.addr := by
  obtain ⟨short, nonempty, number, rest, addr, isNumber, parsed, rfl⟩ := commodityOf_ok read
  refine ⟨short, ?_⟩
  rw [namedAddress, isNumber, if_neg (by simp [nonempty]), parsed]
  rfl

theorem commodityOf_named {addr : Netaddr} (short : (addressText buf).length < 256)
    (named : namedAddress buf = some addr) : ∃ c, commodityOf buf = .ok c ∧ c.cdata.addr = addr := by
  rw [namedAddress] at named
  split at named
  · cases named
  · rename_i complete
    obtain ⟨nonempty, isNumber⟩ := not_or.mp complete
    obtain ⟨⟨number, rest⟩, isNumber⟩ := Option.ne_none_iff_exists'.mp isNumber
    have scanned : scanCommodity buf = .ok (addressText buf, number.toUInt32) :=
      scanCommodity_ok.mpr ⟨short, nonempty, rfl, number, rest, isNumber, rfl⟩
    refine ⟨newCommodity (addr, number.toUInt32.toUInt16), ?_, rfl⟩
    rw [commodityOf, scanned, Fallible.ok_bind]
    dsimp only
    rw [named]
    rfl

/-- A string whose address fits is refused exactly when it is unwelcome behind the list. -/
theorem createCommodity_refused_iff (short : (addressText buf).length < 256) :
    (∃ message, createCommodity clist buf = .error (.logErr message)) ↔
      Unwelcome (clist.map fun c => some c.cdata.addr) buf := by
  cases named : namedAddress buf with
  | none =>
      refine iff_of_true ?_ (.inl named)
      cases created : createCommodity clist buf with
      | ok clist' =>
          obtain ⟨c, read, _⟩ := createCommodity_ok.mp created
          rw [(namedAddress_of_ok read).2] at named
          cases named
      | error fault =>
          obtain ⟨message, rfl⟩ := (createCommodity_error created).resolve_right (Nat.not_le_of_lt short)
          exact ⟨message, rfl⟩
  | some addr =>
      obtain ⟨c, read, rfl⟩ := commodityOf_named short named
      have known : Unwelcome (clist.map fun c => some c.cdata.addr) buf ↔
          ∃ d ∈ clist, d.cdata.addr = c.cdata.addr := by
        rw [Unwelcome, named, List.mem_map]
        simp
      rw [known]
      constructor
      · rintro ⟨message, failed⟩
        by_contra fresh
        have created : createCommodity clist buf = .ok (c :: clist) :=
          createCommodity_ok.mpr ⟨c, read, fun d member same => fresh ⟨d, member, same⟩, rfl⟩
        rw [created] at failed
        cases failed
      · rintro ⟨d, member, same⟩
        cases created : createCommodity clist buf with
        | ok clist' =>
            obtain ⟨c', read', fresh, _⟩ := createCommodity_ok.mp created
            rw [read] at read'
            cases read'
            exact absurd same (fresh d member)
        | error fault =>
            obtain ⟨message, rfl⟩ := (createCommodity_error created).resolve_right (Nat.not_le_of_lt short)
            exact ⟨message, rfl⟩

/-- The first string is unwelcome, or it is taken and the others are refused behind it. -/
theorem refusedAfter_cons {named : List (Option Netaddr)} {s : List Char} {strings : List (List Char)} :
    RefusedAfter named (s :: strings) ↔ (addressText s).length < 256 ∧
      (Unwelcome named s ∨ RefusedAfter (namedAddress s :: named) strings) := by
  constructor
  · rintro ⟨before, t, after, split, short, unwelcome⟩
    cases before with
    | nil =>
        cases split
        exact ⟨short s (List.mem_cons_self ..), .inl unwelcome⟩
    | cons s' before =>
        cases split
        refine ⟨short s (List.mem_cons_of_mem _ (List.mem_cons_self ..)), .inr ⟨before, t, after, rfl, ?_, ?_⟩⟩
        · intro u member
          refine short u ?_
          simp only [List.mem_cons] at member ⊢
          exact member.imp_right .inr
        · refine unwelcome.imp_right fun member => ?_
          simp only [List.map_cons, List.cons_append, List.mem_cons, List.mem_append] at member ⊢
          tauto
  · rintro ⟨short, unwelcome | ⟨before, t, after, rfl, shorts, unwelcome⟩⟩
    · exact ⟨[], s, strings, rfl, List.forall_mem_singleton.mpr short, unwelcome⟩
    · refine ⟨s :: before, t, after, rfl, ?_, ?_⟩
      · intro u member
        simp only [List.mem_cons] at member
        rcases member with rfl | rfl | member
        · exact shorts u (List.mem_cons_self ..)
        · exact short
        · exact shorts u (List.mem_cons_of_mem _ member)
      · refine unwelcome.imp_right fun member => ?_
        simp only [List.map_cons, List.cons_append, List.mem_cons, List.mem_append] at member ⊢
        tauto

theorem createAll_refused_iff : ∀ {strings : List (List Char)} {clist : List Commodity},
    (∃ message, strings.foldlM createCommodity clist = .error (.logErr message)) ↔
      RefusedAfter (clist.map fun c => some c.cdata.addr) strings
  | [], clist => by
      refine iff_of_false ?_ ?_
      · rintro ⟨_, failed⟩
        cases failed
      · rintro ⟨before, s, after, split, _⟩
        exact List.cons_ne_nil _ _ (List.append_eq_nil_iff.mp split.symm).2
  | s :: strings, clist => by
      rw [List.foldlM_cons, refusedAfter_cons]
      by_cases short : (addressText s).length < 256
      · rw [and_iff_right short, ← createCommodity_refused_iff short]
        cases created : createCommodity clist s with
        | error fault =>
            obtain ⟨message, rfl⟩ := (createCommodity_error created).resolve_right (Nat.not_le_of_lt short)
            exact iff_of_true ⟨message, rfl⟩ (.inl ⟨message, rfl⟩)
        | ok clist₁ =>
            obtain ⟨c, read, _, rfl⟩ := createCommodity_ok.mp created
            rw [Fallible.ok_bind, createAll_refused_iff, List.map_cons, ← (namedAddress_of_ok read).2]
            refine ⟨.inr, fun either => either.resolve_left ?_⟩
            rintro ⟨_, failed⟩
            cases failed
      · refine iff_of_false ?_ fun both => short both.1
        rintro ⟨message, failed⟩
        have long : createCommodity clist s = .error .outOfBounds := by
          unfold createCommodity commodityOf scanCommodity
          dsimp only
          rw [← addressText, if_pos (Nat.le_of_not_lt short)]
          rfl
        rw [long] at failed
        cases failed

theorem checkFamilies_refused_iff : ∀ {clist : List Commodity},
    (∃ message, checkFamilies ipver clist = .error (.logErr message)) ↔
      ∃ c ∈ clist, c.cdata.addr.type ≠ ipver
  | [] => by
      refine iff_of_false ?_ ?_
      · rintro ⟨_, failed⟩
        cases failed
      · rintro ⟨c, member, _⟩
        exact List.not_mem_nil member
  | d :: clist => by
      rw [checkFamilies, List.exists_mem_cons_iff]
      split
      · rename_i other
        exact iff_of_true ⟨_, rfl⟩ (.inl other)
      · rename_i same
        rw [checkFamilies_refused_iff, or_iff_right same]

/-- Commodities that have been created are refused for the families only. -/
theorem initCommodities_created {strings : List (List Char)}
    (created : strings.foldlM createCommodity [] = .ok clist) :
    (∃ message, initCommodities ipver strings = .error (.logErr message)) ↔
      (ipver ≠ afInet ∧ ipver ≠ afInet6) ∨ ∃ c ∈ clist, c.cdata.addr.type ≠ ipver := by
  rw [initCommodities, created, Fallible.ok_bind, ← checkFamilies_refused_iff, checkIpver]
  split
  · rename_i unknown
    exact iff_of_true ⟨_, rfl⟩ (.inl unknown)
  · rename_i known
    rw [Fallible.ok_bind, or_iff_right known]
    cases checkFamilies ipver clist with
    | error fault =>
        refine exists_congr fun message => ?_
        constructor <;>
        · intro failed
          cases failed
          rfl
    | ok _ =>
        refine iff_of_false ?_ ?_ <;>
        · rintro ⟨_, failed⟩
          cases failed

/-- The strings of a start are refused with a message exactly when one of them is unwelcome or the families
    differ. -/
theorem initCommodities_refused_iff {strings : List (List Char)} :
    (∃ message, initCommodities ipver strings = .error (.logErr message)) ↔ Refused ipver strings := by
  have refused := @createAll_refused_iff strings []
  rw [List.map_nil] at refused
  unfold Refused
  rw [← refused]
  cases created : strings.foldlM createCommodity [] with
  | error fault =>
      have failed : initCommodities ipver strings = .error fault := by
        rw [initCommodities, created]
        rfl
      rw [failed]
      refine ⟨.inl, ?_⟩
      rintro (refused | ⟨short, _⟩)
      · exact refused
      · rcases createAll_error created with ⟨message, rfl⟩ | ⟨s, member, long⟩
        · exact ⟨message, rfl⟩
        · exact absurd (short s member) (Nat.not_lt.mpr long)
  | ok clist =>
      obtain ⟨cs, all, rfl, _⟩ := createAll_ok created List.nodup_nil
      have short : ∀ s ∈ strings, (addressText s).length < 256 := by
        intro s member
        obtain ⟨c, _, read⟩ := Fallible.related_mem_left all member
        exact (namedAddress_of_ok read).1
      have families : (∃ s ∈ strings, ∃ addr, namedAddress s = some addr ∧ addr.type ≠ ipver) ↔
          ∃ c ∈ cs, c.cdata.addr.type ≠ ipver := by
        constructor
        · rintro ⟨s, member, addr, named, other⟩
          obtain ⟨c, present, read⟩ := Fallible.related_mem_left all member
          rw [(namedAddress_of_ok read).2] at named
          cases named
          exact ⟨c, present, other⟩
        · rintro ⟨c, member, other⟩
          obtain ⟨s, present, read⟩ := Fallible.related_mem all member
          exact ⟨s, present, _, (namedAddress_of_ok read).2, other⟩
      rw [and_iff_right short, families, initCommodities_created created, List.append_nil]
      simp only [List.mem_reverse]
      refine ⟨.inr, fun either => either.resolve_left ?_⟩
      rintro ⟨_, failed⟩
      cases failed

end

end Bprd
