/-
Module: Bprd.Proofs.ElementLists
Layer: Proofs
Purpose: The list functions on linked memory. `list_remove_cond` is an exact filter that keeps the order,
  for every condition and destructor: it evaluates the condition once on each element, releases exactly
  those that met it, and leaves a well-formed list of the others. The functions of the model on plain
  lists are what the linked ones compute on the data.
Imports: Bprd.Model.ElementList
Trusted boundary: none
Main exports: Linked.answers, Linked.worldAfter, Linked.keptOf, Linked.removedOf, Linked.callsOf,
  Linked.Filtered, Linked.removeCondLoop_run, Linked.listRemoveCond_exact, Linked.listInsert_run,
  Linked.listFree_run, Linked.listFind_refines, Linked.ntableRefresh_refines
-/
import Bprd.Model.ElementList

namespace Bprd.Linked

open LinkedList

section

variable {κ ρ α σ : Type}

/-- The state of the callbacks after one element. -/
def nextWorld (condData : α → σ → Bool × σ) (delData : α → σ → σ) (world : σ) (data : α) : σ :=
  if (condData data world).1 then delData data (condData data world).2 else (condData data world).2

/-- The answers of the condition on the data of the elements, evaluated once on each, in order. -/
def answers (condData : α → σ → Bool × σ) (delData : α → σ → σ) : σ → List α → List Bool
  | _, [] => []
  | world, data :: rest =>
      (condData data world).1 :: answers condData delData (nextWorld condData delData world data) rest

/-- The state of the callbacks after all elements. -/
def worldAfter (condData : α → σ → Bool × σ) (delData : α → σ → σ) (world : σ) (data : List α) : σ :=
  data.foldl (nextWorld condData delData) world

/-- The elements on which the condition did not hold. -/
def keptOf (els : List (ρ × α)) (met : List Bool) : List (ρ × α) :=
  ((els.zip met).filter fun x => !x.2).map Prod.fst

/-- The elements on which it held. -/
def removedOf (els : List (ρ × α)) (met : List Bool) : List (ρ × α) :=
  ((els.zip met).filter fun x => x.2).map Prod.fst

/-- The calls for the elements with these answers. -/
def callsOf (els : List (ρ × α)) (met : List Bool) : List (Call ρ α) :=
  (els.zip met).flatMap fun x =>
    Call.condData x.1.2 x.2 :: if x.2 then [.delData x.1.2, .free x.1.1] else []

@[simp] theorem answers_length {condData : α → σ → Bool × σ} {delData : α → σ → σ} :
    ∀ {world : σ} {data : List α}, (answers condData delData world data).length = data.length
  | _, [] => rfl
  | _, _ :: _ => by rw [answers, List.length_cons, answers_length, List.length_cons]

variable {e : ρ} {d : α} {els : List (ρ × α)} {met : List Bool}

theorem keptOf_cons {answer : Bool} :
    keptOf ((e, d) :: els) (answer :: met) =
      if answer then keptOf els met else (e, d) :: keptOf els met := by
  cases answer <;> simp [keptOf]

theorem removedOf_cons {answer : Bool} :
    removedOf ((e, d) :: els) (answer :: met) =
      if answer then (e, d) :: removedOf els met else removedOf els met := by
  cases answer <;> simp [removedOf]

theorem callsOf_cons {answer : Bool} :
    callsOf ((e, d) :: els) (answer :: met) =
      Call.condData d answer :: (if answer then [.delData d, .free e] else []) ++ callsOf els met := by
  simp [callsOf]

theorem keptOf_sublist : ∀ {els : List (ρ × α)} {met : List Bool}, (keptOf els met).Sublist els
  | [], _ => by simp [keptOf]
  | _ :: _, [] => by simp [keptOf]
  | (e, d) :: els, answer :: met => by
      rw [keptOf_cons]
      cases answer
      · exact keptOf_sublist.cons_cons (e, d)
      · exact keptOf_sublist.cons (e, d)

/-- A condition that counts its evaluations keeps the data that the removal on the plain list keeps. -/
theorem keptOf_data (cond : Nat → α → Bool) : ∀ (els : List (ρ × α)) (k : Nat),
    (keptOf els (answers (fun d k => (cond k d, k + 1)) (fun _ k => k) k (els.map Prod.snd))).map Prod.snd =
      Bprd.listRemoveCond cond k (els.map Prod.snd)
  | [], _ => rfl
  | (e, d) :: els, k => by
      have next : nextWorld (fun d k => (cond k d, k + 1)) (fun _ k => k) k d = k + 1 := by
        simp [nextWorld]
      have later := keptOf_data cond els (k + 1)
      rw [List.map_cons, answers, next, keptOf_cons, Bprd.listRemoveCond]
      cases met : cond k d
      · simpa using later
      · simpa using later

theorem worldAfter_count (cond : Nat → α → Bool) : ∀ (data : List α) (k : Nat),
    worldAfter (fun d k => (cond k d, k + 1)) (fun _ k => k) k data = k + data.length
  | [], _ => rfl
  | d :: data, k => by
      have next : nextWorld (fun d k => (cond k d, k + 1)) (fun _ k => k) k d = k + 1 := by
        simp [nextWorld]
      have later := worldAfter_count cond data (k + 1)
      rw [worldAfter, List.foldl_cons, next, ← worldAfter, later, List.length_cons]
      omega

/-- The data on which the condition was evaluated. -/
def testedIn (calls : List (Call ρ α)) : List α :=
  calls.filterMap fun call => match call with
    | .condData data _ => some data
    | _ => none

/-- The data that the destructor was called with. -/
def deletedIn (calls : List (Call ρ α)) : List α :=
  calls.filterMap fun call => match call with
    | .delData data => some data
    | _ => none

/-- The elements that were released. -/
def freedIn (calls : List (Call ρ α)) : List ρ :=
  calls.filterMap fun call => match call with
    | .free e => some e
    | _ => none

/-- Each element is tested once, and the destructor and `free` are called once for each one that met the
    condition. -/
theorem callsOf_once : ∀ {els : List (ρ × α)} {met : List Bool}, met.length = els.length →
    testedIn (callsOf els met) = els.map Prod.snd ∧
      deletedIn (callsOf els met) = (removedOf els met).map Prod.snd ∧
      freedIn (callsOf els met) = (removedOf els met).map Prod.fst
  | [], [], _ => ⟨rfl, rfl, rfl⟩
  | (e, d) :: els, answer :: met, same => by
      obtain ⟨tested, deleted, freed⟩ := callsOf_once (Nat.succ.inj same)
      rw [callsOf_cons, removedOf_cons]
      cases answer
      · exact ⟨congrArg (d :: ·) tested, deleted, freed⟩
      · exact ⟨congrArg (d :: ·) tested, congrArg (d :: ·) deleted, congrArg (e :: ·) freed⟩

end

section

variable {κ ρ α σ : Type} {l : κ} {e : ρ} {d : α} {els : List (ρ × α)}
  {condData : α → σ → Bool × σ} {delData : α → σ → σ}

/-- The element behind the kept ones. -/
theorem next_of_kept {h : Heap κ ρ α} {pre rest : List (ρ × α)} {x : ρ × α}
    (wellFormed : WellFormed h l ((pre ++ [x]) ++ rest)) :
    listNext h x.1 = some (rest.head?.map Prod.fst) := by
  obtain ⟨e, d⟩ := x
  obtain ⟨r, front, behind⟩ := segment_append.mp wellFormed
  obtain ⟨_, _, _, next, cell, atEnd⟩ := segment_append.mp front
  have pointer : next = r := atEnd
  rw [listNext, cell, Option.map_some, pointer, behind.start]

/-- What a pass over the elements `els` behind the kept ones `pre` has done: the condition was evaluated
    once on each of them, in order, those that met it are released, and the others are still listed. -/
structure Filtered (condData : α → σ → Bool × σ) (delData : α → σ → σ) (l : κ)
    (pre els : List (ρ × α)) (s s' : State κ ρ α σ) : Prop where
  world : s'.world = worldAfter condData delData s.world (els.map Prod.snd)
  calls : s'.calls = s.calls ++ callsOf els (answers condData delData s.world (els.map Prod.snd))
  wellFormed : WellFormed s'.heap l
    (pre ++ keptOf els (answers condData delData s.world (els.map Prod.snd)))
  freed : ∀ x ∈ removedOf els (answers condData delData s.world (els.map Prod.snd)),
    s'.heap.elm x.1 = none
  untouched : Untouched s.heap s'.heap l (pre ++ els)

section

variable {pre rest : List (ρ × α)} {s s₁ s' : State κ ρ α σ}

/-- An element that does not meet the condition joins the kept ones. -/
theorem Filtered.keep (later : Filtered condData delData l (pre ++ [(e, d)]) rest s₁ s')
    (failed : (condData d s.world).1 = false) (world : s₁.world = (condData d s.world).2)
    (calls : s₁.calls = s.calls ++ [.condData d false]) (heap : s₁.heap = s.heap) :
    Filtered condData delData l pre ((e, d) :: rest) s s' := by
  have next : s₁.world = nextWorld condData delData s.world d := by
    rw [world, nextWorld, failed]
    rfl
  obtain ⟨world', calls', wellFormed', freed', untouched'⟩ := later
  rw [next] at world' calls' wellFormed' freed'
  refine ⟨world', ?_, ?_, ?_, ?_⟩
  · rw [calls', calls, List.map_cons, answers, callsOf_cons, failed]
    simp
  · rw [List.map_cons, answers, keptOf_cons, failed]
    simpa using wellFormed'
  · rw [List.map_cons, answers, removedOf_cons, failed]
    exact freed'
  · rw [← heap]
    exact untouched'.mono (by simp)

/-- An element that meets the condition is released; nothing later touches it. -/
theorem Filtered.remove (later : Filtered condData delData l pre rest s₁ s')
    (distinct : ((pre ++ (e, d) :: rest).map Prod.fst).Nodup)
    (holds : (condData d s.world).1 = true) (world : s₁.world = delData d (condData d s.world).2)
    (calls : s₁.calls = s.calls ++ [.condData d true, .delData d, .free e])
    (gone : s₁.heap.elm e = none) (untouched : Untouched s.heap s₁.heap l (pre ++ (e, d) :: rest)) :
    Filtered condData delData l pre ((e, d) :: rest) s s' := by
  have next : s₁.world = nextWorld condData delData s.world d := by
    rw [world, nextWorld, holds]
    rfl
  have absent : e ∉ (pre ++ rest).map Prod.fst := by
    rw [List.map_append, List.map_cons, List.nodup_middle, List.nodup_cons] at distinct
    rw [List.map_append]
    exact distinct.1
  have wider : pre ++ rest ⊆ pre ++ (e, d) :: rest := by
    intro x member
    rw [List.mem_append] at member ⊢
    exact member.imp_right (List.mem_cons_of_mem _)
  obtain ⟨world', calls', wellFormed', freed', untouched'⟩ := later
  rw [next] at world' calls' wellFormed' freed'
  refine ⟨world', ?_, ?_, ?_, untouched.trans (untouched'.mono wider)⟩
  · rw [calls', calls, List.map_cons, answers, callsOf_cons, holds]
    simp
  · rw [List.map_cons, answers, keptOf_cons, holds]
    exact wellFormed'
  · rw [List.map_cons, answers, removedOf_cons, holds]
    intro x member
    rcases List.mem_cons.mp member with rfl | behind
    · exact (untouched'.elm e absent).trans gone
    · exact freed' x behind

end

/-- The search from the pointer `p` on. -/
theorem listFindFrom_run {heap : Heap κ ρ α} (data : α) (cmpData : α → α → Int) :
    ∀ {els : List (ρ × α)} {slot : Slot κ ρ} {p : Option ρ} {fuel : Nat},
      Segment heap slot p els none → els.length ≤ fuel →
        listFindFrom heap data cmpData fuel p =
          some ((Bprd.listFind (els.map Prod.snd) data cmpData).bind fun i => els[i]?.map Prod.fst)
  | [], _, _, fuel, rfl, _ => by cases fuel <;> rfl
  | (e, d) :: els, _, _, 0, _, enough => by simp at enough
  | (e, d) :: els, slot, p, fuel + 1, linked, enough => by
      obtain ⟨rfl, next, cell, behind⟩ := linked
      simp only [listFindFrom, cell, Option.bind_eq_bind, Option.bind_some]
      by_cases equal : cmpData data d = 0
      · simp [Bprd.listFind, List.findIdx?_cons, equal]
      · have later := listFindFrom_run data cmpData behind (Nat.le_of_succ_le_succ enough)
        rw [if_neg equal, listNext, cell]
        simp only [Option.map_some, Option.bind_some, later]
        simp only [Bprd.listFind, List.map_cons, List.findIdx?_cons, equal, decide_false]
        cases List.findIdx? (fun f => decide (cmpData data f = 0)) (els.map Prod.snd) <;> simp

/-- `list_find` returns the first element whose data compares equal, or null: the element at the position
    that the search on the plain list gives. -/
theorem listFind_refines {heap : Heap κ ρ α} {els : List (ρ × α)} {data : α} {cmpData : α → α → Int}
    {fuel : Nat} (wellFormed : WellFormed heap l els) (enough : els.length ≤ fuel) :
    listFind heap l data cmpData fuel =
      some ((Bprd.listFind (els.map Prod.snd) data cmpData).bind fun i => els[i]?.map Prod.fst) :=
  listFindFrom_run data cmpData wellFormed enough

variable [DecidableEq κ] [DecidableEq ρ]

/-- An element is unlinked, its data handed to the destructor, and its memory released. -/
theorem removeElm_run (delData : α → σ → σ) {pre rest : List (ρ × α)} {s : State κ ρ α σ}
    (wellFormed : WellFormed s.heap l (pre ++ (e, d) :: rest)) :
    ∃ heap', removeElm delData e s = some
        { heap := heap', world := delData d s.world, calls := s.calls ++ [.delData d, .free e] } ∧
      WellFormed heap' l (pre ++ rest) ∧ heap'.elm e = none ∧
      Untouched s.heap heap' l (pre ++ (e, d) :: rest) := by
  have distinct := Segment.nodup wellFormed
  have absent : e ∉ (pre ++ rest).map Prod.fst := by
    rw [List.map_append, List.map_cons, List.nodup_middle, List.nodup_cons] at distinct
    rw [List.map_append]
    exact distinct.1
  obtain ⟨c, cell, rfl⟩ := Segment.allocated wellFormed (List.mem_append_right _ (List.mem_cons_self ..))
  obtain ⟨h₁, unlinked, wellFormed₁, cell₁, same₁⟩ := wellFormed.remove
  rw [cell] at cell₁
  obtain ⟨h₂, released, wellFormed₂, gone, same₂, heads₂⟩ := wellFormed₁.free cell₁ absent
  refine ⟨h₂, ?_, wellFormed₂, gone, ?_, ?_⟩
  · simp [removeElm, unlinked, cell₁, released]
  · intro x outside
    have other : x ≠ e := by
      rintro rfl
      exact outside (by simp)
    rw [same₂ x other]
    exact same₁.elm x fun inside => outside (by
      rw [List.map_append, List.mem_append] at inside ⊢
      exact inside.imp_right (List.mem_cons_of_mem _))
  · intro k apart
    rw [heads₂]
    exact same₁.lhFirst k apart

/-- The loop, with the elements `pre` kept so far and `rest` ahead of the cursor. -/
theorem removeCondLoop_run (condData : α → σ → Bool × σ) (delData : α → σ → σ) :
    ∀ {rest : List (ρ × α)} (pre : List (ρ × α)) {s : State κ ρ α σ} {fuel : Nat},
    WellFormed s.heap l (pre ++ rest) → rest.length ≤ fuel →
      ∃ s', removeCondLoop condData delData l fuel (pre.getLast?.map Prod.fst)
          (rest.head?.map Prod.fst) s = some s' ∧ Filtered condData delData l pre rest s s'
  | [], pre, s, fuel, wellFormed, _ => by
      refine ⟨s, ?_, rfl, by simp [callsOf], wellFormed, by simp [removedOf], fun _ _ => rfl,
        fun _ _ => rfl⟩
      cases fuel <;> rfl
  | (e, d) :: rest, pre, s, 0, _, enough => by simp at enough
  | (e, d) :: rest, pre, s, fuel + 1, wellFormed, enough => by
      have shorter : rest.length ≤ fuel := Nat.le_of_succ_le_succ enough
      obtain ⟨c, cell, rfl⟩ :=
        Segment.allocated wellFormed (List.mem_append_right _ (List.mem_cons_self ..))
      simp only [List.head?_cons, Option.map_some, removeCondLoop, cell, Option.bind_eq_bind,
        Option.bind_some]
      cases answer : (condData c.data s.world).1 with
      | false =>
          have moved : WellFormed s.heap l ((pre ++ [(e, c.data)]) ++ rest) := by
            simpa using wellFormed
          obtain ⟨s', ran, filtered⟩ := removeCondLoop_run condData delData (pre ++ [(e, c.data)])
            (s := { s with
              world := (condData c.data s.world).2
              calls := s.calls ++ [.condData c.data false] }) moved shorter
          refine ⟨s', ?_, filtered.keep answer rfl rfl rfl⟩
          rw [List.getLast?_concat, Option.map_some] at ran
          simpa [next_of_kept moved] using ran
      | true =>
          obtain ⟨heap', removed, wellFormed', gone, untouched⟩ := removeElm_run delData
            (s := { s with
              world := (condData c.data s.world).2
              calls := s.calls ++ [.condData c.data true] }) wellFormed
          obtain ⟨s', ran, filtered⟩ := removeCondLoop_run condData delData pre
            (s := {
              heap := heap'
              world := delData c.data (condData c.data s.world).2
              calls := s.calls ++ [.condData c.data true] ++ [.delData c.data, .free e] })
            wellFormed' shorter
          refine ⟨s', ?_, filtered.remove (Segment.nodup wellFormed) answer rfl (by simp) gone untouched⟩
          simp only [if_true, removed, Option.bind_some]
          -- The loop goes on at the head or behind the last kept element.
          cases pre using List.reverseRecOn with
          | nil =>
              have first : listFirst heap' l = rest.head?.map Prod.fst := Segment.start wellFormed'
              simp only [List.getLast?_nil, Option.map_none, first]
              exact ran
          | append_singleton pre x =>
              rw [List.getLast?_concat, Option.map_some] at ran ⊢
              simp only [next_of_kept wellFormed', Option.bind_some]
              exact ran

/-- Conditional removal is an exact filter that keeps the order, on every well-formed list, for every
    condition and destructor and every state they act on: it ends without touching memory that is not
    allocated, evaluates the condition once on each element from the first to the last, releases each
    element on which it held once, and leaves a well-formed list of exactly the others. -/
theorem listRemoveCond_exact (condData : α → σ → Bool × σ) (delData : α → σ → σ) {heap : Heap κ ρ α}
    (wellFormed : WellFormed heap l els) (world : σ) {fuel : Nat} (enough : els.length ≤ fuel) :
    ∃ s' met, listRemoveCond condData delData l fuel { heap := heap, world := world, calls := [] } =
        some s' ∧
      met = answers condData delData world (els.map Prod.snd) ∧ met.length = els.length ∧
      (els.map Prod.fst).Nodup ∧
      s'.calls = callsOf els met ∧ testedIn s'.calls = els.map Prod.snd ∧
      deletedIn s'.calls = (removedOf els met).map Prod.snd ∧
      freedIn s'.calls = (removedOf els met).map Prod.fst ∧
      s'.world = worldAfter condData delData world (els.map Prod.snd) ∧
      WellFormed s'.heap l (keptOf els met) ∧
      (∀ x ∈ removedOf els met, s'.heap.elm x.1 = none) ∧ Untouched heap s'.heap l els := by
  obtain ⟨s', ran, filtered⟩ := removeCondLoop_run condData delData []
    (s := { heap := heap, world := world, calls := [] }) wellFormed enough
  have first : listFirst heap l = els.head?.map Prod.fst := Segment.start wellFormed
  have long : (answers condData delData world (els.map Prod.snd)).length = els.length := by simp
  have calls : s'.calls = callsOf els (answers condData delData world (els.map Prod.snd)) :=
    filtered.calls
  obtain ⟨tested, deleted, freed⟩ := callsOf_once long
  refine ⟨s', _, ?_, rfl, long, Segment.nodup wellFormed, calls, calls ▸ tested, calls ▸ deleted,
    calls ▸ freed, filtered.world, filtered.wellFormed, filtered.freed, filtered.untouched⟩
  rw [listRemoveCond, first]
  exact ran

end

/-- Three elements, holding 10, 20 and 30. -/
def threeElements : Heap Unit Nat Nat where
  lhFirst _ := some 1
  elm e :=
    if e = 1 then some { data := 10, leNext := some 2, lePrev := some (.first ()) }
    else if e = 2 then some { data := 20, leNext := some 3, lePrev := some (.next 1) }
    else if e = 3 then some { data := 30, leNext := none, lePrev := some (.next 2) }
    else none

/-- A condition that holds at every other evaluation removes the first and the last element. -/
theorem listRemoveCond_exact_alternating :
    ∃ s', listRemoveCond (fun _ k => (k % 2 == 0, k + 1)) (fun _ k => k) () 3
        { heap := threeElements, world := 0, calls := [] } = some s' ∧ s'.world = 3 ∧
      s'.calls = [.condData 10 true, .delData 10, .free 1, .condData 20 false, .condData 30 true,
        .delData 30, .free 3] ∧
      WellFormed s'.heap () [(2, 20)] ∧ s'.heap.elm 1 = none ∧ s'.heap.elm 3 = none := by
  have linked : WellFormed threeElements () [(1, 10), (2, 20), (3, 30)] :=
    ⟨rfl, some 2, rfl, rfl, some 3, rfl, rfl, none, rfl, rfl⟩
  obtain ⟨s', met, ran, answered, _, _, calls, _, _, _, world, wellFormed, freed, _⟩ :=
    listRemoveCond_exact (fun _ k => (k % 2 == 0, k + 1)) (fun _ k => k)
      linked 0 (Nat.le_refl 3)
  have alternating : met = [true, false, true] := answered
  rw [alternating] at calls wellFormed freed
  exact ⟨s', ran, world, calls, wellFormed, freed (1, 10) (by decide), freed (3, 30) (by decide)⟩

/-- `list_init` makes an empty list. -/
theorem listInit_wellFormed {κ ρ α : Type} [DecidableEq κ] {l : κ} {heap : Heap κ ρ α} :
    WellFormed (listInit heap l) l [] :=
  setFirst_lhFirst_self

section

variable {κ ρ α σ : Type} [DecidableEq κ] [DecidableEq ρ] {l : κ} {heap : Heap κ ρ α}
  {els : List (ρ × α)}

/-- `list_insert` puts the data in front, in an element that `malloc` found free. -/
theorem listInsert_run (wellFormed : WellFormed heap l els) {e : ρ} (fresh : heap.elm e = none) (data : α) :
    ∃ heap', listInsert heap l data e = some heap' ∧ WellFormed heap' l ((e, data) :: els) ∧
      Untouched heap heap' l ((e, data) :: els) := by
  have absent : e ∉ els.map Prod.fst := by
    intro member
    obtain ⟨⟨_, d⟩, isElement, rfl⟩ := List.mem_map.mp member
    obtain ⟨c, cell, _⟩ := Segment.allocated wellFormed isElement
    rw [fresh] at cell
    cases cell
  have cleared : WellFormed (heap.put e { data := data, leNext := none, lePrev := none }) l els :=
    Segment.congr wellFormed fun x member => put_elm_of_ne fun same => absent (same ▸ member)
  obtain ⟨heap', inserted, wellFormed', same⟩ := cleared.insertHead put_elm_self absent
  refine ⟨heap', inserted, wellFormed', ?_, same.lhFirst⟩
  intro x outside
  refine (same.elm x outside).trans (put_elm_of_ne ?_)
  rintro rfl
  exact outside (List.mem_cons_self ..)

/-- `list_free` releases every element, in order, and ends with the empty list. -/
theorem listFree_run {delData : α → σ → σ} : ∀ {els : List (ρ × α)} {s : State κ ρ α σ} {fuel : Nat},
    WellFormed s.heap l els → els.length ≤ fuel →
      ∃ s', listFree delData l fuel s = some s' ∧ WellFormed s'.heap l ([] : List (ρ × α)) ∧
        s'.world = (els.map Prod.snd).foldl (fun world data => delData data world) s.world ∧
        s'.calls = s.calls ++ els.flatMap (fun x => [.delData x.2, .free x.1]) ∧
        (∀ x ∈ els, s'.heap.elm x.1 = none) ∧ Untouched s.heap s'.heap l els
  | [], s, fuel, wellFormed, _ => by
      refine ⟨s, ?_, wellFormed, rfl, by simp, by simp, fun _ _ => rfl, fun _ _ => rfl⟩
      have first : listFirst s.heap l = none := wellFormed
      rw [listFree, first]
  | (e, d) :: els, s, 0, _, enough => by simp at enough
  | (e, d) :: els, s, fuel + 1, wellFormed, enough => by
      obtain ⟨heap', removed, wellFormed', gone, untouched⟩ :=
        removeElm_run delData (s := s) (show WellFormed s.heap l ([] ++ (e, d) :: els) from wellFormed)
      obtain ⟨s', ran, empty, world, calls, freed, untouched'⟩ := listFree_run
        (s := { heap := heap', world := delData d s.world, calls := s.calls ++ [.delData d, .free e] })
        wellFormed' (Nat.le_of_succ_le_succ enough)
      have absent : e ∉ els.map Prod.fst := (List.nodup_cons.mp (Segment.nodup wellFormed)).1
      have first : listFirst s.heap l = some e := wellFormed.1
      refine ⟨s', ?_, empty, world, ?_, ?_, untouched.trans (untouched'.mono (by simp))⟩
      · rw [listFree, first]
        simp only [removed, Option.bind_eq_bind, Option.bind_some]
        exact ran
      · rw [calls]
        simp
      · intro x member
        rcases List.mem_cons.mp member with rfl | behind
        · exact (untouched'.elm e absent).trans gone
        · exact freed x behind

end

/-- A refresh of the linked neighbour table reads the clock once for each neighbour and keeps the
    neighbours that the refresh of the plain list keeps, in order. -/
theorem ntableRefresh_refines {κ ρ : Type} [DecidableEq κ] [DecidableEq ρ] {l : κ}
    {heap : Heap κ ρ Neighbor} {els : List (ρ × Neighbor)} {fuel : Nat} {neighborTimeout : UInt32}
    {clock : Nat → Timeval} (wellFormed : WellFormed heap l els) (enough : els.length ≤ fuel) :
    ∃ s' kept, ntableRefresh neighborTimeout clock l fuel { heap := heap, world := 0, calls := [] } =
        some s' ∧ s'.world = els.length ∧ WellFormed s'.heap l kept ∧ kept.Sublist els ∧
      kept.map Prod.snd = Bprd.ntableRefresh neighborTimeout clock (els.map Prod.snd) := by
  obtain ⟨s', ran, filtered⟩ := removeCondLoop_run
    (fun n readings => (condNExpired neighborTimeout (clock readings) n, readings + 1))
    (fun _ readings => readings) []
    (s := { heap := heap, world := 0, calls := [] }) wellFormed enough
  have first : listFirst heap l = els.head?.map Prod.fst := Segment.start wellFormed
  refine ⟨s', _, ?_, ?_, filtered.wellFormed, keptOf_sublist, keptOf_data _ els 0⟩
  · rw [ntableRefresh, listRemoveCond, first]
    exact ran
  · rw [filtered.world, worldAfter_count, List.length_map, Nat.zero_add]

end Bprd.Linked
