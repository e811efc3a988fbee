/-
Module: Bprd.Proofs.ParserMemory
Layer: Proofs
Purpose: The packet parser with its memory does what Bprd.Model.PbbReader says, for any packet and any
  callbacks, unless an allocation is refused. When it returns, with whatever result, every block that it has
  allocated has been freed exactly once.
Imports: Bprd.Proofs.TlvTrees, Bprd.Proofs.MessageSafety
Trusted boundary: none
Main exports: ShowsAddrs, parseAddrHeapStep_refines, handleMessageHeap_refines, parser_frees_memory
-/
import Bprd.Proofs.TlvTrees
import Bprd.Proofs.MessageSafety

namespace Bprd

open ConsumeLoop (consumeLoop Progress)
open Refinement (Conforms conforms_consumeLoop)

variable {heap heap' before : PbbHeap} {live nodes blocks : List Nat} {supply : Nat → Bool}
  {tree memory : TlvTree} {tlvs : List TlvblockEntry} {entries entries' : Nat → TlvblockEntry}

theorem free_free (heap : PbbHeap) (as bs : List Nat) : (heap.free as).free bs = heap.free (as ++ bs) := by
  rw [PbbHeap.free, PbbHeap.free, PbbHeap.free, List.append_assoc]

/-! ### Address blocks -/

/-- The elements of an address list show these address blocks; all their blocks of memory are listed. -/
inductive ShowsAddrs (entries : Nat → TlvblockEntry) :
    List AddrNode → List AddrblockEntry → List Nat → Prop where
  | nil : ShowsAddrs entries [] [] []
  | cons {node : AddrNode} {nodes : List Nat} {tlvs : List TlvblockEntry} {list : List AddrNode}
      {addrs : List AddrblockEntry} {blocks : List Nat} (shown : ShowsTlvs entries node.tree nodes tlvs)
      (few : nodes.length < tlvFuel) (rest : ShowsAddrs entries list addrs blocks) :
      ShowsAddrs entries (node :: list) ({ node.addr with tlvblock := tlvs } :: addrs)
        (nodes ++ node.block :: blocks)

variable {list : List AddrNode} {addrs : List AddrblockEntry}

theorem ShowsAddrs.congr (shown : ShowsAddrs entries list addrs blocks)
    (same : ∀ r ∈ blocks, entries' r = entries r) : ShowsAddrs entries' list addrs blocks := by
  induction shown with
  | nil => exact .nil
  | cons shown few rest ih =>
      refine .cons (shown.congr fun r member => ?_) few (ih fun r member => ?_)
      · exact same r (List.mem_append_left _ member)
      · exact same r (List.mem_append_right _ (List.mem_cons_of_mem _ member))

theorem ShowsAddrs.grows (shown : ShowsAddrs heap.entries list addrs blocks) (owes : Owes heap live)
    (part : blocks ⊆ live) (grows : Grows heap heap') : ShowsAddrs heap'.entries list addrs blocks :=
  shown.congr fun r member => grows.entries r (owes.lt_allocated (part member))

/-- An element at the end of the list. -/
theorem ShowsAddrs.append (shown : ShowsAddrs entries list addrs blocks) {node : AddrNode}
    (atEnd : ShowsTlvs entries node.tree nodes tlvs) (few : nodes.length < tlvFuel) :
    ShowsAddrs entries (list ++ [node]) (addrs ++ [{ node.addr with tlvblock := tlvs }])
      (blocks ++ (nodes ++ [node.block])) := by
  induction shown with
  | nil => exact .cons atEnd few .nil
  | cons here few' _ ih =>
      rw [List.append_assoc, List.cons_append]
      exact .cons here few' ih

theorem ShowsAddrs.read (shown : ShowsAddrs heap.entries list addrs blocks) :
    readAddrs heap list = some addrs := by
  induction shown with
  | nil => rfl
  | cons shown few _ ih => simp only [readAddrs, shown.read few, ih, Option.bind_eq_bind, Option.bind_some]

theorem ShowsAddrs.freed (shown : ShowsAddrs entries list addrs blocks) (heap : PbbHeap) :
    freeAddrs list heap = some (heap.free blocks) := by
  induction shown generalizing heap with
  | nil => rw [freeAddrs, PbbHeap.free, List.append_nil]
  | cons shown few _ ih =>
      obtain ⟨_, runs, _⟩ := shown.freed few heap
      simp only [freeAddrs, runs, ih, free_free, Option.bind_eq_bind, Option.bind_some,
        List.singleton_append]

/-- What holds between the rounds of the loops over the address blocks. -/
def AddrLoop (before : PbbHeap) (live : List Nat) (s : List AddrNode × PbbHeap)
    (addrs : List AddrblockEntry) : Prop :=
  Grows before s.2 ∧ ∃ blocks, ShowsAddrs s.2.entries s.1 addrs blocks ∧ Owes s.2 (live ++ blocks)

/-- One round. -/
theorem parseAddrHeapStep_refines {addrLen : UInt8} {s : List AddrNode × PbbHeap} {input : List UInt8}
    (loop : AddrLoop before live s addrs) :
    Conforms (fun a b => a.2 = b.2 ∧ AddrLoop before live a.1 b.1)
      (ParseStops fun s => ∃ addrs, AddrLoop before live s addrs)
      (OutOfMemory fun s => (∃ addrs, AddrLoop before live s addrs) ∧ supply s.2.allocated = false)
      (parseAddrHeapStep supply memory addrLen s input) (parseAddrStep addrLen addrs input) := by
  have unchanged := loop
  obtain ⟨list, heap⟩ := s
  obtain ⟨grows, blocks, shown, owes⟩ := loop
  rcases malloc_cases supply heap with ⟨refused, isLast⟩ | granted
  · simp only [parseAddrHeapStep, refused]
    exact .quit (.result ⟨⟨_, unchanged⟩, isLast⟩)
  · -- The block of the new element is live until the round ends in an error.
    set next : PbbHeap := { heap with allocated := heap.allocated + 1 } with isNext
    have owesNext : Owes next ((live ++ blocks) ++ [heap.allocated]) := owes.malloc
    have grown : Grows heap next := ⟨Nat.le_succ _, fun _ _ => rfl⟩
    have released : ∀ later, Grows next later → Owes later ((live ++ blocks) ++ [heap.allocated]) →
        AddrLoop before live (list, later.free [heap.allocated]) addrs := by
      intro later growsLater owesLater
      have onward := (grown.trans growsLater).trans (@grows_free later [heap.allocated])
      refine ⟨grows.trans onward, blocks, ?_, owesLater.free⟩
      exact shown.grows owes (List.subset_append_right _ _) onward
    cases block : parseAddrblock addrLen input with
    | error stopped =>
        cases stopped with
        | fault fault =>
            simp only [parseAddrHeapStep, parseAddrStep, granted, block]
            exact .error (.fault fault)
        | result code =>
            simp only [parseAddrHeapStep, parseAddrStep, granted, block]
            exact .error (.result ⟨_, released next .refl owesNext⟩)
    | ok parsed =>
        obtain ⟨addr, rest⟩ := parsed
        have inner := @parseTlvblockHeap_refines next _ supply (avlInit memory true) showsTlvs_init owesNext
          rest
        simp only [parseAddrHeapStep, parseAddrStep, granted, block, Fallible.ok_bind]
        revert inner
        generalize parseTlvblockHeap supply (avlInit memory true, next) rest = run
        generalize parseTlvblock rest = plain
        intro inner
        cases inner with
        | ok isFine =>
            rename_i a b
            obtain ⟨⟨tree, last⟩, afterTlvs⟩ := a
            obtain ⟨tlvs, _⟩ := b
            obtain ⟨rfl, growsLast, nodes, shownTlvs, owesLast, few⟩ := isFine
            have onward := grown.trans growsLast
            have shownAddrs := shown.grows owes (List.subset_append_right _ _) onward
            refine .ok ⟨rfl, grows.trans onward, _, shownAddrs.append shownTlvs few, owesLast.perm ?_⟩
            show (live ++ (blocks ++ (nodes ++ [heap.allocated]))).Perm
              (live ++ blocks ++ [heap.allocated] ++ nodes)
            rw [List.append_assoc, List.append_assoc]
            exact (List.perm_append_comm.append_left _).append_left _
        | error isStop =>
            cases isStop with
            | fault fault => exact .error (.fault fault)
            | result isFine =>
                obtain ⟨growsLater, owesLater, _⟩ := isFine
                exact .error (.result ⟨_, released _ growsLater owesLater⟩)
        | quit isQuit =>
            obtain ⟨⟨growsLater, owesLater, _⟩, isLast⟩ := isQuit
            exact .quit (.result ⟨⟨_, released _ growsLater owesLater⟩, isLast⟩)

/-- All rounds. -/
theorem parseAddrs_refines {addrLen : UInt8} {spent : HeapStop (List AddrNode × PbbHeap)}
    {spent' : ParseStop} {s : List AddrNode × PbbHeap} {input : List UInt8} (start : AddrLoop before live s addrs) :
    Conforms (fun a b => a.2 = b.2 ∧ AddrLoop before live a.1 b.1)
      (ParseStops fun s => ∃ addrs, AddrLoop before live s addrs)
      (OutOfMemory fun s => (∃ addrs, AddrLoop before live s addrs) ∧ supply s.2.allocated = false)
      (consumeLoop (parseAddrHeapStep supply memory addrLen) spent 0 input.length s input)
      (consumeLoop (parseAddrStep addrLen) spent' 0 input.length addrs input) :=
  conforms_consumeLoop (fun _ => AddrLoop before live) (parseAddrStep_progress addrLen)
    (fun _ _ _ _ loop => parseAddrHeapStep_refines loop) (Nat.le_refl _) start

/-! ### Messages -/

/-- The plain parser reads a message in three parts. -/
theorem parseMessage_eq (start : List UInt8) : parseMessage start = do
    let (header, body, next) ← readMessageHeader start
    let (tlvs, rest) ← parseTlvblock body
    let (addrs, _) ← consumeLoop (parseAddrStep header.addrLen) (.result .endOfBuffer) 0 rest.length [] rest
    return ({ header with tlvs := tlvs, addrs := addrs }, next) := by
  unfold parseMessage readMessageHeader
  dsimp only
  cases readOrigAddr _ _ _ with
  | error stopped => rfl
  | ok read =>
      simp only [Fallible.ok_bind]
      split
      · rfl
      · split <;> rfl

section Callbacks

variable {σ : Type} {s : σ}

/-- The plain parser from the address blocks of a message on. -/
def plainAddrs (consumers : Consumers σ) (header : Message) (tlvs : List TlvblockEntry) (s : σ)
    (input : List UInt8) : Except (PacketStop σ) σ :=
  match consumeLoop (parseAddrStep header.addrLen) (.result .endOfBuffer) 0 input.length [] input with
  | .error (.result code) => .error (.result code s)
  | .error (.fault fault) => .error (.fault fault)
  | .ok (addrs, _) =>
      match scheduleMessage consumers { header with tlvs := tlvs, addrs := addrs } s with
      | .error fault => .error (.fault fault)
      | .ok s' => .ok s'

/-- The plain parser handles a message in the same parts. -/
theorem handleMessage_eq (consumers : Consumers σ) (s : σ) (input : List UInt8) :
    handleMessage consumers s input =
      match readMessageHeader input with
      | .error (.result code) => .error (.result code s)
      | .error (.fault fault) => .error (.fault fault)
      | .ok (header, body, next) =>
          match parseTlvblock body with
          | .error (.result code) => .error (.result code s)
          | .error (.fault fault) => .error (.fault fault)
          | .ok (tlvs, rest) =>
              match plainAddrs consumers header tlvs s rest with
              | .error stop => .error stop
              | .ok s' => .ok (s', next) := by
  rw [handleMessage, parseMessage_eq]
  rcases readMessageHeader input with (stopped | ⟨header, body, next⟩)
  · cases stopped <;> rfl
  · simp only [Fallible.ok_bind]
    rcases parseTlvblock body with (stopped | ⟨tlvs, rest⟩)
    · cases stopped <;> rfl
    · simp only [Fallible.ok_bind, plainAddrs]
      rcases consumeLoop (parseAddrStep header.addrLen) _ _ _ _ _ with (stopped | ⟨addrs, _⟩)
      · cases stopped <;> rfl
      · simp only [Fallible.ok_bind, pure, Except.pure]
        cases scheduleMessage consumers _ s <;> rfl

/-- What holds before and after a message: the blocks that were live before it still are, and no others. -/
def Kept (before : PbbHeap) (live : List Nat) (heap : PbbHeap) : Prop := Grows before heap ∧ Owes heap live

/-- `cleanup_parse_message` frees what the message has allocated. -/
theorem cleanupMessage_kept (shownTlvs : ShowsTlvs entries tree nodes tlvs) (few : nodes.length < tlvFuel)
    (shownAddrs : ShowsAddrs entries list addrs blocks) (grows : Grows before heap)
    (owes : Owes heap (live ++ nodes ++ blocks)) :
    ∃ heap', cleanupMessage tree list heap = some heap' ∧ Kept before live heap' ∧
      heap'.allocated = heap.allocated := by
  obtain ⟨_, runs, _⟩ := shownTlvs.freed few (heap.free blocks)
  refine ⟨(heap.free blocks).free nodes, ?_, ⟨?_, owes.free.free⟩, rfl⟩
  · simp only [cleanupMessage, shownAddrs.freed heap, runs, Option.bind_eq_bind, Option.bind_some]
  · exact (grows.trans grows_free).trans grows_free

theorem stopMessage_kept (shownTlvs : ShowsTlvs entries tree nodes tlvs) (few : nodes.length < tlvFuel)
    (shownAddrs : ShowsAddrs entries list addrs blocks) (grows : Grows before heap)
    (owes : Owes heap (live ++ nodes ++ blocks)) (code : HeapResult) (s : σ) :
    ∃ heap', stopMessage code s tree list heap = .result code (s, heap') ∧ Kept before live heap' ∧
      heap'.allocated = heap.allocated := by
  obtain ⟨heap', runs, kept⟩ := cleanupMessage_kept shownTlvs few shownAddrs grows owes
  exact ⟨heap', by rw [stopMessage, runs], kept⟩

/-- How an early end of a message with its memory is one of the plain parser. -/
inductive MessageStops (fine : PbbHeap → Prop) : HeapStop (σ × PbbHeap) → PacketStop σ → Prop where
  | fault (fault : Fault) : MessageStops fine (.fault fault) (.fault fault)
  | result {code : PbbResult} {s : σ} {heap : PbbHeap} (isFine : fine heap) :
      MessageStops fine (.result (.parse code) (s, heap)) (.result code s)

/-- `_handle_message` from the address blocks on, with its memory. -/
theorem handleAddrsHeap_refines (consumers : Consumers σ) (header : Message) (grows : Grows before heap)
    (owes : Owes heap (live ++ nodes)) (shownTlvs : ShowsTlvs heap.entries tree nodes tlvs)
    (few : nodes.length < tlvFuel) (input : List UInt8) :
    Conforms (fun a b => a.1 = b ∧ Kept before live a.2) (MessageStops (Kept before live))
      (OutOfMemory fun a => a.1 = s ∧ Kept before live a.2 ∧ supply a.2.allocated = false)
      (handleAddrsHeap supply memory consumers header tree (s, heap) input)
      (plainAddrs consumers header tlvs s input) := by
  have start : AddrLoop heap (live ++ nodes) ([], heap) [] := ⟨.refl, [], .nil, by rwa [List.append_nil]⟩
  have loop := @parseAddrs_refines heap (live ++ nodes) supply memory [] header.addrLen
    (.fault .nullPointer) (.result .endOfBuffer) _ input start
  simp only [handleAddrsHeap, plainAddrs]
  revert loop
  generalize consumeLoop (parseAddrHeapStep supply memory header.addrLen) _ _ _ _ _ = run
  generalize consumeLoop (parseAddrStep header.addrLen) _ _ _ _ _ = plain
  intro loop
  have ended : ∀ code s' addrs, AddrLoop heap (live ++ nodes) s' addrs →
      ∃ heap', stopMessage code s tree s'.1 s'.2 = .result code (s, heap') ∧ Kept before live heap' ∧
        heap'.allocated = s'.2.allocated := by
    intro code s' addrs inner
    obtain ⟨growsAddrs, blocks, shownAddrs, owesAddrs⟩ := inner
    have stillTlvs := shownTlvs.grows owes (List.subset_append_right _ _) growsAddrs
    exact stopMessage_kept stillTlvs few shownAddrs (grows.trans growsAddrs) owesAddrs code s
  cases loop with
  | error isStop =>
      cases isStop with
      | fault fault => exact .error (.fault fault)
      | result inner =>
          obtain ⟨addrs, inner⟩ := inner
          obtain ⟨heap', stops, kept, _⟩ := ended (.parse _) _ addrs inner
          dsimp only
          rw [stops]
          exact .error (.result kept)
  | quit isQuit =>
      obtain ⟨⟨addrs, inner⟩, isLast⟩ := isQuit
      obtain ⟨heap', stops, kept, same⟩ := ended .outOfMemory _ addrs inner
      dsimp only
      rw [stops]
      exact .quit (.result ⟨rfl, kept, by rwa [same]⟩)
  | ok inner =>
      rename_i a b
      obtain ⟨⟨list, heapAddrs⟩, _⟩ := a
      obtain ⟨addrs, _⟩ := b
      obtain ⟨_, growsAddrs, blocks, shownAddrs, owesAddrs⟩ := inner
      have stillTlvs := shownTlvs.grows owes (List.subset_append_right _ _) growsAddrs
      have seen : readMessage header tree list heapAddrs =
          some { header with tlvs := tlvs, addrs := addrs } := by
        simp only [readMessage, stillTlvs.read few, shownAddrs.read, Option.bind_eq_bind, Option.bind_some]
      obtain ⟨heap', cleans, kept, _⟩ := cleanupMessage_kept stillTlvs few shownAddrs
        (grows.trans growsAddrs) owesAddrs
      simp only [seen, cleans]
      cases scheduleMessage consumers { header with tlvs := tlvs, addrs := addrs } s with
      | error fault => exact .error (.fault fault)
      | ok s' => exact .ok ⟨rfl, kept⟩

/-- `_handle_message` with its memory. -/
theorem handleMessageHeap_refines (consumers : Consumers σ) (grows : Grows before heap)
    (owes : Owes heap live) (input : List UInt8) :
    Conforms (fun a b => a.2 = b.2 ∧ a.1.1 = b.1 ∧ Kept before live a.1.2) (MessageStops (Kept before live))
      (OutOfMemory fun a => a.1 = s ∧ Kept before live a.2 ∧ supply a.2.allocated = false)
      (handleMessageHeap supply memory consumers (s, heap) input) (handleMessage consumers s input) := by
  have noTlvs : ShowsTlvs heap.entries (avlInit memory true) [] [] := showsTlvs_init
  -- Whatever the tree of a failed block holds, the message frees it again.
  have failed : ∀ code s', Cleaned heap live s' → ∃ heap', stopMessage code s s'.1 [] s'.2 =
      .result code (s, heap') ∧ Kept before live heap' ∧ heap'.allocated = s'.2.allocated := by
    intro code s' cleaned
    obtain ⟨growsTlvs, owesTlvs, empty⟩ := cleaned
    exact stopMessage_kept (empty s'.2.entries) (by decide) .nil (grows.trans growsTlvs)
      (by rwa [List.append_nil, List.append_nil]) code s
  simp only [handleMessageHeap, handleMessage_eq]
  cases readMessageHeader input with
  | error stopped =>
      cases stopped with
      | fault fault => exact .error (.fault fault)
      | result code =>
          have untouched : Cleaned heap live (avlInit memory true, heap) :=
            ⟨.refl, owes, fun _ => showsTlvs_init⟩
          obtain ⟨heap', stops, kept, _⟩ := failed (.parse code) _ untouched
          dsimp only
          rw [stops]
          exact .error (.result kept)
  | ok parts =>
      obtain ⟨header, body, next⟩ := parts
      have block := @parseTlvblockHeap_refines heap live supply _ noTlvs owes body
      dsimp only
      revert block
      generalize parseTlvblockHeap supply (avlInit memory true, heap) body = run
      generalize parseTlvblock body = plain
      intro block
      cases block with
      | error isStop =>
          cases isStop with
          | fault fault => exact .error (.fault fault)
          | result cleaned =>
              obtain ⟨heap', stops, kept, _⟩ := failed (.parse _) _ cleaned
              dsimp only
              rw [stops]
              exact .error (.result kept)
      | quit isQuit =>
          obtain ⟨cleaned, isLast⟩ := isQuit
          obtain ⟨heap', stops, kept, same⟩ := failed .outOfMemory _ cleaned
          dsimp only
          rw [stops]
          exact .quit (.result ⟨rfl, kept, by rwa [same]⟩)
      | ok isFine =>
          rename_i a b
          obtain ⟨⟨tree, heapTlvs⟩, rest⟩ := a
          obtain ⟨tlvs, _⟩ := b
          obtain ⟨rfl, growsTlvs, nodes, shownTlvs, owesTlvs, few⟩ := isFine
          have behind := @handleAddrsHeap_refines heapTlvs before live nodes supply tree memory tlvs σ s
            consumers header (grows.trans growsTlvs) owesTlvs shownTlvs few rest
          dsimp only
          revert behind
          generalize handleAddrsHeap supply memory consumers header tree (s, heapTlvs) rest = run
          generalize plainAddrs consumers header tlvs s rest = plain
          intro behind
          cases behind with
          | ok isFine => exact .ok ⟨rfl, isFine⟩
          | error isStop => exact .error isStop
          | quit isQuit => exact .quit isQuit

/-! ### Packets -/

/-- The callbacks of some first messages have led to a state. -/
def Handled (consumers : Consumers σ) (scanned : List Message) (s s' : σ) : Prop :=
  ∃ done, done <+: scanned ∧ forEach (scheduleMessage consumers) done s = .ok s'

/-- What holds between the messages of a packet: those behind are handled, and those ahead are still to be
    scanned. -/
def MessageLoop (consumers : Consumers σ) (scanned : List Message) (s : σ) (before : PbbHeap)
    (live : List Nat) (input : List UInt8) (a : σ × PbbHeap) (b : σ) : Prop :=
  a.1 = b ∧ Kept before live a.2 ∧ ∃ done k, scanned = done ++ (scanMessages k input).1 ∧ input.length ≤ k ∧
    forEach (scheduleMessage consumers) done s = .ok b

theorem MessageLoop.handled {consumers : Consumers σ} {scanned : List Message} {input : List UInt8}
    {a : σ × PbbHeap} {b : σ} (loop : MessageLoop consumers scanned s before live input a b) :
    Handled consumers scanned s b := by
  obtain ⟨_, _, done, k, parts, _, ran⟩ := loop
  exact ⟨done, ⟨_, parts.symm⟩, ran⟩

/-- A message that is handled is the next one that is scanned. -/
theorem MessageLoop.next {consumers : Consumers σ} {scanned : List Message} {input rest : List UInt8}
    {a a' : σ × PbbHeap} {b b' : σ} (loop : MessageLoop consumers scanned s before live input a b)
    (ran : handleMessage consumers b input = .ok (b', rest)) (same : a'.1 = b')
    (kept : Kept before live a'.2) :
    MessageLoop consumers scanned s before live rest a' b' := by
  obtain ⟨_, _, done, k, parts, enough, handled⟩ := loop
  have shrunk : rest.length < input.length := handleMessage_progress consumers ran
  obtain ⟨k, rfl⟩ := Nat.exists_eq_succ_of_ne_zero (Nat.ne_of_gt (by omega : 0 < k))
  rw [handleMessage] at ran
  cases parsed : parseMessage input with
  | error stopped =>
      rw [parsed] at ran
      cases stopped <;> cases ran
  | ok next =>
      obtain ⟨m, rest'⟩ := next
      rw [parsed] at ran
      dsimp only at ran
      cases scheduled : scheduleMessage consumers m b with
      | error fault =>
          rw [scheduled] at ran
          cases ran
      | ok s' =>
          rw [scheduled] at ran
          cases ran
          refine ⟨same, kept, done ++ [m], k, ?_, by omega, ?_⟩
          · rw [scanMessages, if_neg (by omega), parsed] at parts
            rw [parts, List.append_assoc, List.singleton_append]
          · rw [forEach_append, handled]
            show forEach (scheduleMessage consumers) [m] b = _
            simp only [forEach, scheduled]

/-- All messages of a packet. -/
theorem handleMessages_refines (consumers : Consumers σ) (owes : Owes heap live)
    {spent : HeapStop (σ × PbbHeap)} {spent' : PacketStop σ} (input : List UInt8) :
    Conforms (fun a b => a.2 = b.2 ∧
        MessageLoop consumers (scanMessages input.length input).1 s heap live b.2 a.1 b.1)
      (MessageStops (Kept heap live))
      (OutOfMemory fun a => Handled consumers (scanMessages input.length input).1 s a.1 ∧
        Kept heap live a.2 ∧ supply a.2.allocated = false)
      (consumeLoop (handleMessageHeap supply memory consumers) spent 0 input.length (s, heap) input)
      (consumeLoop (handleMessage consumers) spent' 0 input.length s input) := by
  have start : MessageLoop consumers (scanMessages input.length input).1 s heap live input (s, heap) s :=
    ⟨rfl, ⟨.refl, owes⟩, [], input.length, rfl, Nat.le_refl _, rfl⟩
  refine conforms_consumeLoop (MessageLoop consumers (scanMessages input.length input).1 s heap live)
    (handleMessage_progress consumers) ?_ (Nat.le_refl _) start
  rintro ⟨s₁, between⟩ s₂ rest _ loop
  have handled := loop.handled
  obtain ⟨same, ⟨grows, owes'⟩, _⟩ := id loop
  obtain rfl : s₁ = s₂ := same
  refine (handleMessageHeap_refines consumers grows owes' rest).weaken ?_ (fun _ _ isStop => isStop) ?_
  · intro a b ran isFine
    obtain ⟨ends, same, kept⟩ := isFine
    exact ⟨ends, loop.next ran same kept⟩
  · intro e isQuit
    obtain ⟨rfl, kept, isLast⟩ := isQuit
    exact .result ⟨handled, kept, isLast⟩

/-- How a packet handled with its memory is one handled by the plain parser, or ends at a refused
    allocation. Nothing else than before is live in the end. -/
def PacketRefines (supply : Nat → Bool) (live : List Nat) (consumers : Consumers σ) (scanned : List Message)
    (s : σ) (run : Except Fault (HeapResult × σ × PbbHeap)) (plain : Except Fault (PbbResult × σ)) : Prop :=
  (∃ fault, run = .error fault ∧ plain = .error fault) ∨
    ∃ code s' heap, run = .ok (code, s', heap) ∧ Owes heap live ∧
      ((∃ c, code = .parse c ∧ plain = .ok (c, s')) ∨
        (code = .outOfMemory ∧ supply heap.allocated = false ∧ Handled consumers scanned s s'))

/-- The message loop and the end of the packet TLV block. -/
theorem handleMessagesHeap_refines (consumers : Consumers σ) (owes : Owes heap (live ++ nodes))
    (shown : ShowsTlvs heap.entries tree nodes tlvs) (few : nodes.length < tlvFuel) {spent' : PacketStop σ}
    (input : List UInt8) :
    PacketRefines supply live consumers (scanMessages input.length input).1 s
      (handleMessagesHeap supply memory consumers tree (s, heap) input)
      (packetResult (consumeLoop (handleMessage consumers) spent' 0 input.length s input)) := by
  have loop := @handleMessages_refines heap (live ++ nodes) supply memory σ s consumers owes
    (.fault .nullPointer) spent' input
  rw [handleMessagesHeap]
  revert loop
  generalize consumeLoop (handleMessageHeap supply memory consumers) _ _ _ _ _ = run
  generalize consumeLoop (handleMessage consumers) _ _ _ _ _ = plain
  intro loop
  have ended : ∀ later, Kept heap (live ++ nodes) later → ∃ tree',
      freeTlvblock tree later = some (tree', later.free nodes) ∧ Owes (later.free nodes) live := by
    intro later kept
    obtain ⟨tree', runs, _⟩ := shown.freed few later
    exact ⟨tree', runs, kept.2.free⟩
  cases loop with
  | ok isFine =>
      rename_i a b
      obtain ⟨⟨s', later⟩, _⟩ := a
      obtain ⟨_, rfl, kept, _⟩ := isFine
      obtain ⟨tree', runs, owes'⟩ := ended _ kept
      simp only [packetHeapResult, packetResult, runs]
      exact .inr ⟨_, _, _, rfl, owes', .inl ⟨_, rfl, rfl⟩⟩
  | error isStop =>
      cases isStop with
      | fault fault => exact .inl ⟨fault, rfl, rfl⟩
      | result kept =>
          obtain ⟨tree', runs, owes'⟩ := ended _ kept
          simp only [packetHeapResult, packetResult, runs]
          exact .inr ⟨_, _, _, rfl, owes', .inl ⟨_, rfl, rfl⟩⟩
  | quit isQuit =>
      obtain ⟨handled, kept, isLast⟩ := isQuit
      obtain ⟨tree', runs, owes'⟩ := ended _ kept
      simp only [packetHeapResult, runs]
      exact .inr ⟨_, _, _, rfl, owes', .inr ⟨rfl, isLast, handled⟩⟩

/-- A packet. -/
theorem pbbReaderHandlePacketHeap_refines (consumers : Consumers σ) (owes : Owes heap live)
    (buffer : List UInt8) :
    PacketRefines supply live consumers (scanPacket buffer).1 s
      (pbbReaderHandlePacketHeap supply memory consumers buffer (s, heap))
      (pbbReaderHandlePacket consumers buffer s) := by
  have noTlvs : ShowsTlvs heap.entries (avlInit memory true) [] [] := showsTlvs_init
  have refused : ∀ code scanned,
      PacketRefines supply live consumers scanned s (.ok (.parse code, s, heap)) (.ok (code, s)) :=
    fun code _ => .inr ⟨_, _, _, rfl, owes, .inl ⟨_, rfl, rfl⟩⟩
  obtain ⟨firstByte, c, isFirst⟩ : ∃ firstByte c, pbbGetU8 ⟨buffer, .okay⟩ = (firstByte, c) := ⟨_, _, rfl⟩
  simp only [pbbReaderHandlePacketHeap, pbbReaderHandlePacket, scanPacket, packetMessages, isFirst]
  by_cases version : firstByte >>> 4 ≠ 0
  · simp only [if_pos version]
    exact refused _ _
  · simp only [if_neg version]
    generalize (if hasFlag firstByte 0x08 then (pbbGetU16 c).2 else c) = c
    by_cases bad : c.result ≠ .okay
    · simp only [if_pos bad]
      exact refused _ _
    · simp only [if_neg bad]
      cases hasFlag firstByte 0x04 with
      | false => exact handleMessagesHeap_refines consumers (by rwa [List.append_nil]) noTlvs (by decide) _
      | true =>
          have block := @parseTlvblockHeap_refines heap live supply _ noTlvs owes c.rest
          simp only [if_true]
          revert block
          generalize parseTlvblockHeap supply (avlInit memory true, heap) c.rest = run
          generalize parseTlvblock c.rest = plain
          intro block
          cases block with
          | ok isFine =>
              rename_i a b
              obtain ⟨⟨tree, heapTlvs⟩, rest⟩ := a
              obtain ⟨tlvs, _⟩ := b
              obtain ⟨rfl, _, nodes, shownTlvs, owesTlvs, few⟩ := isFine
              exact handleMessagesHeap_refines consumers owesTlvs shownTlvs few _
          | error isStop =>
              cases isStop with
              | fault fault => exact .inl ⟨fault, rfl, rfl⟩
              | result cleaned => exact .inr ⟨_, _, _, rfl, cleaned.2.1, .inl ⟨_, rfl, rfl⟩⟩
          | quit isQuit =>
              obtain ⟨cleaned, isLast⟩ := isQuit
              refine .inr ⟨_, _, _, rfl, cleaned.2.1, .inr ⟨rfl, isLast, [], List.nil_prefix, rfl⟩⟩

end Callbacks

end Bprd
