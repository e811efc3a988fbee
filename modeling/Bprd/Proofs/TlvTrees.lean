/-
Module: Bprd.Proofs.TlvTrees
Layer: Proofs
Purpose: A TLV block in memory. Whatever the allocations do, `_parse_tlvblock` either gives up for lack of
  memory or does what Bprd.Model.PbbReader says: the tree runs through the TLVs of its sorted list. An
  error leaves no entry of the block behind.
Imports: Bprd.Lib.Refinement, Bprd.Model.PbbHeap, Bprd.Proofs.AvlRuns, Bprd.Proofs.ParserTraps
Trusted boundary: none
Main exports: Owes, Grows, ShowsTlvs, ShowsTlvs.store, ShowsTlvs.freed, parseTlvblockHeap_refines
-/
import Bprd.Lib.Refinement
import Bprd.Model.PbbHeap
import Bprd.Proofs.AvlRuns
import Bprd.Proofs.ParserTraps

namespace Bprd

open ConsumeLoop (consumeLoop)
open Refinement (Conforms conforms_consumeLoop)

/-! ### Blocks -/

/-- Every allocated block has been freed once, or is live. -/
def Owes (heap : PbbHeap) (live : List Nat) : Prop :=
  (heap.freed ++ live).Perm (List.range heap.allocated)

/-- What a block holds that was allocated before is still there. -/
structure Grows (before after : PbbHeap) : Prop where
  allocated : before.allocated ≤ after.allocated
  entries : ∀ r < before.allocated, after.entries r = before.entries r

variable {heap heap' : PbbHeap} {live nodes : List Nat} {supply : Nat → Bool}

theorem Grows.refl : Grows heap heap := ⟨Nat.le_refl _, fun _ _ => rfl⟩

theorem Grows.trans {later : PbbHeap} (first : Grows heap heap') (second : Grows heap' later) :
    Grows heap later where
  allocated := first.allocated.trans second.allocated
  entries := fun r old =>
    (second.entries r (Nat.lt_of_lt_of_le old first.allocated)).trans (first.entries r old)

theorem grows_free {blocks : List Nat} : Grows heap (heap.free blocks) := ⟨Nat.le_refl _, fun _ _ => rfl⟩

theorem Owes.lt_allocated (owes : Owes heap live) {r : Nat} (member : r ∈ live) : r < heap.allocated :=
  List.mem_range.mp (owes.subset (List.mem_append_right _ member))

theorem Owes.perm {live' : List Nat} (owes : Owes heap live) (perm : live'.Perm live) : Owes heap live' :=
  (perm.append_left _).trans owes

/-- Blocks that are live can be freed. -/
theorem Owes.free (owes : Owes heap (live ++ nodes)) : Owes (heap.free nodes) live := by
  refine List.Perm.trans ?_ owes
  show ((heap.freed ++ nodes) ++ live).Perm _
  rw [List.append_assoc]
  exact List.perm_append_comm.append_left _

/-- An allocation is refused, or grants the next block. -/
theorem malloc_cases (supply : Nat → Bool) (heap : PbbHeap) :
    (heap.malloc supply = none ∧ supply heap.allocated = false) ∨
      heap.malloc supply = some (heap.allocated, { heap with allocated := heap.allocated + 1 }) := by
  rw [PbbHeap.malloc]
  split
  · exact .inr rfl
  · rename_i refused
    exact .inl ⟨rfl, Bool.eq_false_iff.mpr refused⟩

theorem Owes.malloc (owes : Owes heap live) :
    Owes { heap with allocated := heap.allocated + 1 } (live ++ [heap.allocated]) := by
  show (heap.freed ++ (live ++ [heap.allocated])).Perm (List.range (heap.allocated + 1))
  rw [← List.append_assoc, List.range_succ]
  exact List.Perm.append_right _ owes

/-! ### Trees -/

/-- The tree runs through these nodes, and through these TLVs. -/
structure ShowsTlvs (entries : Nat → TlvblockEntry) (tree : TlvTree) (nodes : List Nat)
    (tlvs : List TlvblockEntry) : Prop where
  holds : ∃ groups, Holds UInt32.toNat tree groups ∧ flat groups = nodes
  dups : tree.allowDups = true
  keys : ∀ r ∈ nodes, tree.key r = (entries r).intOrder.toUInt32
  contents : nodes.map entries = tlvs

variable {tree : TlvTree} {tlvs : List TlvblockEntry} {entries entries' : Nat → TlvblockEntry}

theorem showsTlvs_init {memory : TlvTree} : ShowsTlvs entries (avlInit memory true) [] [] where
  holds := ⟨[], holds_init, rfl⟩
  dups := rfl
  keys := fun _ member => absurd member List.not_mem_nil
  contents := rfl

/-- What a tree shows depends on the entries of its nodes only. -/
theorem ShowsTlvs.congr (shows_ : ShowsTlvs entries tree nodes tlvs)
    (same : ∀ r ∈ nodes, entries' r = entries r) : ShowsTlvs entries' tree nodes tlvs where
  holds := shows_.holds
  dups := shows_.dups
  keys := fun r member => by
    rw [same r member]
    exact shows_.keys r member
  contents := (List.map_congr_left same).trans shows_.contents

theorem ShowsTlvs.grows (shows_ : ShowsTlvs heap.entries tree nodes tlvs) (owes : Owes heap live)
    (part : nodes ⊆ live) (grows : Grows heap heap') : ShowsTlvs heap'.entries tree nodes tlvs :=
  shows_.congr fun r member => grows.entries r (owes.lt_allocated (part member))

/-- The place of a new entry in the sorted list is that of its key among the keys. -/
theorem map_orderedInsert {r : Nat} {xs : List (Entry UInt32 Nat)}
    (keys : ∀ e ∈ xs, e.2 = (entries e.1).intOrder.toUInt32) :
    (xs.orderedInsert (fun a b => a.2.toNat < b.2.toNat) (r, (entries r).intOrder.toUInt32)).map
        (fun e => entries e.1) = insertTlv (entries r) (xs.map fun e => entries e.1) := by
  induction xs with
  | nil => rfl
  | cons e xs ih =>
      have isKey : (entries r).intOrder.toUInt32.toNat < e.2.toNat ↔
          (entries r).intOrder < (entries e.1).intOrder := by
        rw [keys e (List.mem_cons_self ..), UInt16.lt_iff_toNat_lt, UInt16.toNat_toUInt32,
          UInt16.toNat_toUInt32]
      rw [List.orderedInsert_cons, List.map_cons, insertTlv]
      by_cases less : (entries r).intOrder < (entries e.1).intOrder
      · rw [if_pos (isKey.mpr less), if_pos less]
        rfl
      · rw [if_neg (mt isKey.mp less), if_neg less, List.map_cons,
          ih fun f member => keys f (List.mem_cons_of_mem _ member)]

/-- A new entry goes to its place in the sorted list. -/
theorem ShowsTlvs.store (shows_ : ShowsTlvs heap.entries tree nodes tlvs) {block : Nat}
    (fresh : block ∉ nodes) (few : nodes.length + 1 < tlvFuel) (entry : TlvblockEntry) :
    ∃ tree' nodes', storeTlv entry block tree heap =
        some (tree', { heap with entries := Function.update heap.entries block entry }) ∧
      ShowsTlvs (Function.update heap.entries block entry) tree' nodes' (insertTlv entry tlvs) ∧
      nodes'.Perm (nodes ++ [block]) := by
  set stored := Function.update heap.entries block entry with isStored
  have kept : ∀ r ∈ nodes, stored r = heap.entries r := fun r member =>
    Function.update_of_ne (fun same : r = block => fresh (same ▸ member)) ..
  obtain ⟨⟨groups, held, rfl⟩, dups, keys, contents⟩ := shows_.congr kept
  have atBlock : stored block = entry := Function.update_self ..
  obtain ⟨code, tree', groups', runs, held', dups', step⟩ := held.call compares_uint32
    (.insert block entry.intOrder.toUInt32) (n := tlvFuel) (by rwa [LegalCall, map_fst_entriesOf]) few
  have notRefused :
      ¬ (true = false ∧ Present UInt32.toNat entry.intOrder.toUInt32 (entriesOf tree groups)) :=
    fun refused => Bool.noConfusion refused.1
  rw [contentsStep, putEntry, dups, if_neg notRefused] at step
  have inserted := (Prod.mk.inj step).2
  have isKey : ∀ e ∈ entriesOf tree groups, e.2 = (stored e.1).intOrder.toUInt32 := by
    intro e member
    obtain ⟨r, inside, rfl⟩ := List.mem_map.mp member
    exact keys r inside
  refine ⟨tree', flat groups', ?_, ⟨⟨groups', held', rfl⟩, dups'.trans dups, ?_, ?_⟩, ?_⟩
  · rw [storeTlv, runs]
    rfl
  · intro r member
    have inside : (r, tree'.key r) ∈ entriesOf tree' groups' := List.mem_map_of_mem member
    rw [← inserted, List.mem_orderedInsert] at inside
    rcases inside with new | old
    · obtain ⟨rfl, isNew⟩ := Prod.mk.inj new
      rw [isNew, atBlock]
    · exact isKey _ old
  · have readOut : (flat groups').map stored = (entriesOf tree' groups').map fun e => stored e.1 := by
      rw [entriesOf, List.map_map]
      rfl
    have readBefore : (entriesOf tree groups).map (fun e => stored e.1) = tlvs := by
      rw [← contents, entriesOf, List.map_map]
      rfl
    have placed := @map_orderedInsert stored block (entriesOf tree groups) isKey
    rw [atBlock] at placed
    rw [readOut, ← inserted, placed, readBefore]
  · have perm := (List.perm_orderedInsert (fun a b : Entry UInt32 Nat => a.2.toNat < b.2.toNat)
      (block, entry.intOrder.toUInt32) (entriesOf tree groups)).map Prod.fst
    rw [inserted, List.map_cons, map_fst_entriesOf, map_fst_entriesOf] at perm
    exact perm.trans (List.perm_append_singleton _ _).symm

/-- `_free_tlvblock` frees the entries of a tree, and leaves an empty one. -/
theorem ShowsTlvs.freed (shows_ : ShowsTlvs entries tree nodes tlvs) (few : nodes.length < tlvFuel)
    (heap : PbbHeap) : ∃ tree', freeTlvblock tree heap = some (tree', heap.free nodes) ∧
      ∀ entries', ShowsTlvs entries' tree' [] [] := by
  obtain ⟨⟨groups, held, rfl⟩, dups, _, _⟩ := shows_
  have size : tlvFuel = 65538 := rfl
  obtain ⟨tree', runs, held', dups'⟩ := held.removeAll (by omega)
  refine ⟨tree', ?_, fun _ => ⟨⟨[], held', rfl⟩, dups'.trans dups, ?_, rfl⟩⟩
  · rw [freeTlvblock, runs]
    rfl
  · exact fun _ member => absurd member List.not_mem_nil

/-- The callbacks see the sorted list. -/
theorem ShowsTlvs.read (shows_ : ShowsTlvs heap.entries tree nodes tlvs) (few : nodes.length < tlvFuel) :
    readTlvs heap tree = some tlvs := by
  obtain ⟨⟨groups, held, rfl⟩, _, _, contents⟩ := shows_
  rw [readTlvs, held.forEach (Nat.le_of_lt few), Option.map_some, contents]

/-! ### Blocks of TLVs -/

/-- How an error of the parser with its memory is one of the plain parser. -/
inductive ParseStops {σ : Type} (fine : σ → Prop) : HeapStop σ → ParseStop → Prop where
  | fault (fault : Fault) : ParseStops fine (.fault fault) (.fault fault)
  | result {code : PbbResult} {state : σ} (isFine : fine state) :
      ParseStops fine (.result (.parse code) state) (.result code)

/-- An allocation was refused. -/
inductive OutOfMemory {σ : Type} (fine : σ → Prop) : HeapStop σ → Prop where
  | result {state : σ} (isFine : fine state) : OutOfMemory fine (.result .outOfMemory state)

/-- A tree shows TLVs that were put into it since a heap was as it was. -/
def Parsed (before : PbbHeap) (live : List Nat) (s : TlvTree × PbbHeap) (tlvs : List TlvblockEntry) : Prop :=
  Grows before s.2 ∧ ∃ nodes, ShowsTlvs s.2.entries s.1 nodes tlvs ∧ Owes s.2 (live ++ nodes) ∧
    nodes.length < tlvFuel

/-- Nothing that was put into a tree is left. -/
def Cleaned (before : PbbHeap) (live : List Nat) (s : TlvTree × PbbHeap) : Prop :=
  Grows before s.2 ∧ Owes s.2 live ∧ ∀ entries, ShowsTlvs entries s.1 [] []

variable {before : PbbHeap} {s : TlvTree × PbbHeap}

theorem Parsed.cleanup (parsed : Parsed before live s tlvs) (code : HeapResult) :
    ∃ s', cleanupTlvblock code s = .result code s' ∧ Cleaned before live s' ∧
      s'.2.allocated = s.2.allocated := by
  obtain ⟨grows, nodes, shown, owes, few⟩ := parsed
  obtain ⟨tree', runs, empty⟩ := shown.freed few s.2
  refine ⟨(tree', s.2.free nodes), ?_, ⟨grows.trans grows_free, owes.free, empty⟩, rfl⟩
  rw [cleanupTlvblock, runs]

/-- What holds between the rounds of the loops over a TLV block, with `left` bytes to go. -/
def TlvLoop (before : PbbHeap) (live : List Nat) (stop left : Nat) (s : TlvblockEntry × TlvTree × PbbHeap)
    (t : TlvblockEntry × List TlvblockEntry) : Prop :=
  s.1 = t.1 ∧ Grows before s.2.2 ∧ ∃ nodes, ShowsTlvs s.2.2.entries s.2.1 nodes t.2 ∧
    Owes s.2.2 (live ++ nodes) ∧ nodes.length + (left - stop) + 1 < tlvFuel

theorem TlvLoop.parsed {stop left : Nat} {s : TlvblockEntry × TlvTree × PbbHeap}
    {t : TlvblockEntry × List TlvblockEntry} (loop : TlvLoop before live stop left s t) :
    Parsed before live s.2 t.2 := by
  obtain ⟨_, grows, nodes, shown, owes, few⟩ := loop
  exact ⟨grows, nodes, shown, owes, by omega⟩

/-- One round. -/
theorem parseTlvHeapStep_refines {stop : Nat} {s : TlvblockEntry × TlvTree × PbbHeap}
    {t : TlvblockEntry × List TlvblockEntry} {input : List UInt8} (long : stop < input.length)
    (loop : TlvLoop before live stop input.length s t) :
    Conforms (fun a b => a.2 = b.2 ∧ TlvLoop before live stop b.2.length a.1 b.1)
      (ParseStops fun s => ∃ tlvs, Parsed before live s tlvs)
      (OutOfMemory fun s => (∃ tlvs, Parsed before live s tlvs) ∧ supply s.2.allocated = false)
      (parseTlvHeapStep supply s input) (parseTlvStep t input) := by
  have parsed := loop.parsed
  obtain ⟨same, grows, nodes, shown, owes, few⟩ := loop
  obtain ⟨buffer, tree, heap⟩ := s
  obtain ⟨buffer', tlvs⟩ := t
  cases same
  cases ran : parseTlv buffer input with
  | error stopped =>
      cases stopped with
      | fault fault =>
          simp only [parseTlvHeapStep, parseTlvStep, ran]
          exact .error (.fault fault)
      | result code =>
          simp only [parseTlvHeapStep, parseTlvStep, ran]
          exact .error (.result ⟨_, parsed⟩)
  | ok next =>
      obtain ⟨entry, rest⟩ := next
      have plain : parseTlvStep (buffer, tlvs) input = .ok ((entry, insertTlv entry tlvs), rest) := by
        simp only [parseTlvStep, ran]
      have shrunk : rest.length < input.length := parseTlvStep_progress plain
      rcases malloc_cases supply heap with ⟨refused, isLast⟩ | granted
      · simp only [parseTlvHeapStep, ran, refused]
        exact .quit (.result ⟨⟨_, parsed⟩, isLast⟩)
      · have fresh : heap.allocated ∉ nodes := fun member =>
          Nat.lt_irrefl _ (owes.lt_allocated (List.mem_append_right _ member))
        obtain ⟨tree', nodes', stored, shown', perm⟩ :=
          @ShowsTlvs.store { heap with allocated := heap.allocated + 1 } nodes tree tlvs shown
            heap.allocated fresh (by omega) entry
        simp only [parseTlvHeapStep, ran, granted, stored, plain]
        refine .ok ⟨rfl, rfl, ?_, nodes', shown', ?_, ?_⟩
        · refine grows.trans ⟨Nat.le_succ _, fun r old => ?_⟩
          exact Function.update_of_ne (Nat.ne_of_lt old) ..
        · have grown : Owes { heap with allocated := heap.allocated + 1 }
              (live ++ (nodes ++ [heap.allocated])) := by
            rw [← List.append_assoc]
            exact owes.malloc
          exact grown.perm (perm.append_left _)
        · have length := perm.length_eq
          rw [List.length_append, List.length_singleton] at length
          show nodes'.length + (rest.length - stop) + 1 < tlvFuel
          omega

/-- All rounds. -/
theorem parseTlvs_refines {spent : HeapStop (TlvTree × PbbHeap)} {spent' : ParseStop} {stop : Nat}
    {s : TlvblockEntry × TlvTree × PbbHeap} {t : TlvblockEntry × List TlvblockEntry} {input : List UInt8}
    (start : TlvLoop before live stop input.length s t) :
    Conforms (fun a b => a.2 = b.2 ∧ TlvLoop before live stop b.2.length a.1 b.1)
      (ParseStops fun s => ∃ tlvs, Parsed before live s tlvs)
      (OutOfMemory fun s => (∃ tlvs, Parsed before live s tlvs) ∧ supply s.2.allocated = false)
      (consumeLoop (parseTlvHeapStep supply) spent stop input.length s input)
      (consumeLoop parseTlvStep spent' stop input.length t input) :=
  conforms_consumeLoop (fun input => TlvLoop before live stop input.length) parseTlvStep_progress
    (fun _ _ _ long loop => parseTlvHeapStep_refines long loop) (Nat.le_refl _) start

/-- `_parse_tlvblock` with its memory. -/
theorem parseTlvblockHeap_refines (shown : ShowsTlvs heap.entries tree [] []) (owes : Owes heap live)
    (input : List UInt8) :
    Conforms (fun a b => a.2 = b.2 ∧ Parsed heap live a.1 b.1) (ParseStops (Cleaned heap live))
      (OutOfMemory fun s => Cleaned heap live s ∧ supply s.2.allocated = false)
      (parseTlvblockHeap supply (tree, heap) input) (parseTlvblock input) := by
  have start : Parsed heap live (tree, heap) [] :=
    ⟨.refl, [], shown, by rwa [List.append_nil], by decide⟩
  obtain ⟨length, c, isHeader⟩ : ∃ length c, pbbGetU16 ⟨input, .okay⟩ = (length, c) := ⟨_, _, rfl⟩
  simp only [parseTlvblockHeap, parseTlvblock, isHeader]
  by_cases short : c.rest.length < length.toNat
  · rw [if_pos short, if_pos short]
    obtain ⟨s', cleanup, cleaned, _⟩ := start.cleanup (.parse .endOfBuffer)
    rw [cleanup]
    exact .error (.result cleaned)
  · rw [if_neg short, if_neg short]
    by_cases bad : c.result ≠ .okay
    · rw [if_pos bad, if_pos bad]
      obtain ⟨s', cleanup, cleaned, _⟩ := start.cleanup (.parse c.result)
      rw [cleanup]
      exact .error (.result cleaned)
    · rw [if_neg bad, if_neg bad]
      have size : length.toNat < 2 ^ 16 := length.toNat_lt
      have fuel : tlvFuel = 65538 := rfl
      have before : TlvLoop heap live (c.rest.length - length.toNat) c.rest.length
          (clearedEntry, tree, heap) (clearedEntry, []) := by
        refine ⟨rfl, .refl, [], shown, by rwa [List.append_nil], ?_⟩
        rw [List.length_nil]
        omega
      have loop := @parseTlvs_refines live supply heap (.fault .nullPointer) (.result .endOfBuffer) _ _ _ _
        before
      revert loop
      generalize consumeLoop (parseTlvHeapStep supply) _ _ _ _ _ = run
      generalize consumeLoop parseTlvStep _ _ _ _ _ = plain
      intro loop
      cases loop with
      | ok isFine => exact .ok ⟨isFine.1, isFine.2.parsed⟩
      | error isStop =>
          cases isStop with
          | fault fault => exact .error (.fault fault)
          | result isFine =>
              obtain ⟨_, parsed⟩ := isFine
              obtain ⟨s', cleanup, cleaned, _⟩ := parsed.cleanup (.parse _)
              dsimp only
              rw [cleanup]
              exact .error (.result cleaned)
      | quit isQuit =>
          obtain ⟨⟨_, parsed⟩, isLast⟩ := isQuit
          obtain ⟨s', cleanup, cleaned, same⟩ := parsed.cleanup .outOfMemory
          dsimp only
          rw [cleanup]
          exact .quit (.result ⟨cleaned, by rwa [same]⟩)

end Bprd
