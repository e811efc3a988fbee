/-
Module: Bprd.Lib.LinkedList
Layer: Lib
Purpose: Doubly linked lists in the LIST layout of <sys/queue.h>: an element holds the next element and the
  address of the link that points at it, which is the head's link or the `le_next` of its predecessor.
  Memory is explicit: an access to an element that is not allocated, and a second `free`, have no result.
  A list is well formed when every forward link and back-pointer agree; insertion at the head, removal of
  an element and the release of a removed one keep it so and leave the rest of the memory alone.
Imports: Mathlib.Data.List.Induction, Mathlib.Logic.Function.Basic
Trusted boundary: human-reviewed spec
Main exports: LinkedList.Slot, LinkedList.Elm, LinkedList.Heap, LinkedList.listRemove,
  LinkedList.listInsertHead, LinkedList.Segment, LinkedList.WellFormed, LinkedList.Untouched,
  LinkedList.WellFormed.remove, LinkedList.WellFormed.insertHead, LinkedList.WellFormed.free
-/
import Mathlib.Data.List.Induction
import Mathlib.Logic.Function.Basic

namespace LinkedList

/-- A link that can point at an element: the first link of a head, or the next link of an element. -/
inductive Slot (κ ρ : Type) where
  | first (l : κ)
  | next (e : ρ)
deriving DecidableEq

/-- `elm_t` with its `LIST_ENTRY`; `lePrev` is null in memory that has just been cleared. -/
structure Elm (κ ρ α : Type) where
  data : α
  leNext : Option ρ
  lePrev : Option (Slot κ ρ)

/-- The heads `κ` and the allocated elements at the addresses `ρ`. -/
structure Heap (κ ρ α : Type) where
  lhFirst : κ → Option ρ
  elm : ρ → Option (Elm κ ρ α)

variable {κ ρ α : Type}

section Memory

/-- The memory with the first link of the head `l` written. -/
def Heap.setFirst [DecidableEq κ] (h : Heap κ ρ α) (l : κ) (p : Option ρ) : Heap κ ρ α :=
  { h with lhFirst := Function.update h.lhFirst l p }

@[simp] theorem setFirst_lhFirst_self [DecidableEq κ] {h : Heap κ ρ α} {l : κ} {p : Option ρ} :
    (h.setFirst l p).lhFirst l = p := by
  simp [Heap.setFirst]

variable [DecidableEq ρ]

/-- The memory with the element at `e` written. -/
def Heap.put (h : Heap κ ρ α) (e : ρ) (c : Elm κ ρ α) : Heap κ ρ α :=
  { h with elm := Function.update h.elm e (some c) }

/-- `free(e)`. -/
def Heap.free (h : Heap κ ρ α) (e : ρ) : Option (Heap κ ρ α) :=
  match h.elm e with
  | none => none
  | some _ => some { h with elm := Function.update h.elm e none }

/-- `*slot = p`. -/
def Heap.assign [DecidableEq κ] (h : Heap κ ρ α) (slot : Slot κ ρ) (p : Option ρ) : Option (Heap κ ρ α) :=
  match slot with
  | .first l => some (h.setFirst l p)
  | .next e => (h.elm e).map fun c => h.put e { c with leNext := p }

/-- `if (p != NULL) p->le_prev = slot`. -/
def Heap.setPrev (h : Heap κ ρ α) (p : Option ρ) (slot : Option (Slot κ ρ)) : Option (Heap κ ρ α) :=
  match p with
  | none => some h
  | some f => (h.elm f).map fun c => h.put f { c with lePrev := slot }

/-- `LIST_FIRST`. -/
def listFirst (h : Heap κ ρ α) (l : κ) : Option ρ := h.lhFirst l

/-- `LIST_NEXT`. -/
def listNext (h : Heap κ ρ α) (e : ρ) : Option (Option ρ) := (h.elm e).map Elm.leNext

/-- `LIST_REMOVE`. -/
def listRemove [DecidableEq κ] (h : Heap κ ρ α) (e : ρ) : Option (Heap κ ρ α) := do
  let c ← h.elm e
  let h ← h.setPrev c.leNext c.lePrev
  let c ← h.elm e
  let slot ← c.lePrev
  h.assign slot c.leNext

/-- `LIST_INSERT_HEAD`. -/
def listInsertHead [DecidableEq κ] (h : Heap κ ρ α) (l : κ) (e : ρ) : Option (Heap κ ρ α) := do
  let c ← h.elm e
  let h := h.put e { c with leNext := h.lhFirst l }
  let h ← h.setPrev (h.lhFirst l) (some (.next e))
  (h.setFirst l (some e)).setPrev (some e) (some (.first l))

@[simp] theorem put_elm_self {h : Heap κ ρ α} {e : ρ} {c : Elm κ ρ α} : (h.put e c).elm e = some c := by
  simp [Heap.put]

theorem put_elm_of_ne {h : Heap κ ρ α} {e x : ρ} {c : Elm κ ρ α} (other : x ≠ e) :
    (h.put e c).elm x = h.elm x := by
  simp [Heap.put, other]

end Memory

section Segments

/-- From the pointer `p`, which is stored in `slot`, the links lead through the elements to `q`. -/
def Segment (h : Heap κ ρ α) : Slot κ ρ → Option ρ → List (ρ × α) → Option ρ → Prop
  | _, p, [], q => p = q
  | slot, p, (e, d) :: els, q =>
      p = some e ∧ ∃ next, h.elm e = some { data := d, leNext := next, lePrev := some slot } ∧
        Segment h (.next e) next els q

/-- A well-formed list with its elements, each given by its address and its data. -/
def WellFormed (h : Heap κ ρ α) (l : κ) (els : List (ρ × α)) : Prop :=
  Segment h (.first l) (h.lhFirst l) els none

/-- The slot behind a part of a list. -/
def endSlot (slot : Slot κ ρ) (els : List (ρ × α)) : Slot κ ρ :=
  match els.getLast? with
  | none => slot
  | some x => .next x.1

@[simp] theorem endSlot_nil {slot : Slot κ ρ} : endSlot slot ([] : List (ρ × α)) = slot := rfl

@[simp] theorem endSlot_concat {slot : Slot κ ρ} {els : List (ρ × α)} {x : ρ × α} :
    endSlot slot (els ++ [x]) = .next x.1 := by
  simp [endSlot]

theorem endSlot_cons {slot : Slot κ ρ} {els : List (ρ × α)} {x : ρ × α} :
    endSlot slot (x :: els) = endSlot (.next x.1) els := by
  cases els using List.reverseRecOn with
  | nil => rfl
  | append_singleton els y => rw [← List.cons_append, endSlot_concat, endSlot_concat]

variable {h h' : Heap κ ρ α} {slot slot' : Slot κ ρ} {p q : Option ρ} {l : κ} {els els' : List (ρ × α)}

theorem segment_append : ∀ {slot : Slot κ ρ} {p : Option ρ} {els : List (ρ × α)},
    Segment h slot p (els ++ els') q ↔
      ∃ r, Segment h slot p els r ∧ Segment h (endSlot slot els) r els' q
  | slot, p, [] => by simp [Segment]
  | slot, p, (e, d) :: els => by
      have behind : ∀ next, Segment h (.next e) next (els ++ els') q ↔
          ∃ r, Segment h (.next e) next els r ∧ Segment h (endSlot (.next e) els) r els' q :=
        fun next => segment_append
      rw [List.cons_append, Segment, endSlot_cons]
      simp only [behind]
      constructor
      · rintro ⟨here, next, cell, r, front, back⟩
        exact ⟨r, ⟨here, next, cell, front⟩, back⟩
      · rintro ⟨r, ⟨here, next, cell, front⟩, back⟩
        exact ⟨here, next, cell, r, front, back⟩

/-- The elements are read from the memory: two lists from one pointer are the same. -/
theorem Segment.unique : ∀ {els els' : List (ρ × α)} {slot slot' : Slot κ ρ} {p : Option ρ},
    Segment h slot p els none → Segment h slot' p els' none → els = els'
  | [], [], _, _, _, _, _ => rfl
  | [], (e, d) :: els', _, _, _, atEnd, more => by
      obtain ⟨here, _⟩ := more
      cases atEnd.symm.trans here
  | (e, d) :: els, [], _, _, _, more, atEnd => by
      obtain ⟨here, _⟩ := more
      cases atEnd.symm.trans here
  | (e, d) :: els, (e', d') :: els', _, _, _, one, other => by
      obtain ⟨here, next, cell, rest⟩ := one
      obtain ⟨here', next', cell', rest'⟩ := other
      cases here.symm.trans here'
      cases cell.symm.trans cell'
      rw [rest.unique rest']

/-- No element occurs twice: the list would be longer than itself. -/
theorem Segment.nodup : ∀ {els : List (ρ × α)} {slot : Slot κ ρ} {p : Option ρ},
    Segment h slot p els none → (els.map Prod.fst).Nodup
  | [], _, _, _ => List.nodup_nil
  | (e, d) :: els, slot, p, linked => by
      obtain ⟨here, next, cell, rest⟩ := linked
      rw [List.map_cons, List.nodup_cons]
      refine ⟨?_, rest.nodup⟩
      intro again
      obtain ⟨⟨e', d'⟩, member, same⟩ := List.mem_map.mp again
      cases same
      obtain ⟨front, back, rfl⟩ := List.append_of_mem member
      obtain ⟨r, _, there, next', cell', rest'⟩ := segment_append.mp rest
      cases cell.symm.trans cell'
      have longer := congrArg List.length (rest.unique rest')
      rw [List.length_append, List.length_cons] at longer
      omega

/-- A segment reads only its own elements. -/
theorem Segment.congr : ∀ {els : List (ρ × α)} {slot : Slot κ ρ} {p : Option ρ},
    Segment h slot p els q → (∀ e ∈ els.map Prod.fst, h'.elm e = h.elm e) → Segment h' slot p els q
  | [], _, _, atEnd, _ => atEnd
  | (e, d) :: els, _, _, linked, same => by
      obtain ⟨here, next, cell, rest⟩ := linked
      refine ⟨here, next, (same e (by simp)).trans cell, rest.congr fun x member => ?_⟩
      exact same x (List.mem_cons_of_mem _ member)

/-- The pointer at the start of a list. -/
theorem Segment.start (linked : Segment h slot p els none) : p = els.head?.map Prod.fst := by
  cases els with
  | nil => exact linked
  | cons x els => exact linked.1

/-- Every element is allocated and holds its data. -/
theorem Segment.allocated : ∀ {els : List (ρ × α)} {slot : Slot κ ρ} {p : Option ρ} {e : ρ} {d : α},
    Segment h slot p els q → (e, d) ∈ els → ∃ c, h.elm e = some c ∧ c.data = d
  | (e', d') :: els, _, _, e, d, linked, member => by
      obtain ⟨here, next, cell, rest⟩ := linked
      rcases List.mem_cons.mp member with same | later
      · cases same
        exact ⟨_, cell, rfl⟩
      · exact rest.allocated later

/-- Nothing but the list of `l` and the elements `els` has changed. -/
structure Untouched (h h' : Heap κ ρ α) (l : κ) (els : List (ρ × α)) : Prop where
  elm : ∀ x ∉ els.map Prod.fst, h'.elm x = h.elm x
  lhFirst : ∀ k, k ≠ l → h'.lhFirst k = h.lhFirst k

theorem Untouched.trans {h h' h'' : Heap κ ρ α} {l : κ} {els : List (ρ × α)}
    (one : Untouched h h' l els) (other : Untouched h' h'' l els) : Untouched h h'' l els :=
  ⟨fun x outside => (other.elm x outside).trans (one.elm x outside),
    fun k apart => (other.lhFirst k apart).trans (one.lhFirst k apart)⟩

theorem Untouched.mono {h h' : Heap κ ρ α} {l : κ} {els els' : List (ρ × α)}
    (same : Untouched h h' l els) (subset : els ⊆ els') : Untouched h h' l els' :=
  ⟨fun x outside => same.elm x fun inside => outside (List.map_subset _ subset inside), same.lhFirst⟩

/-- A list of another head that shares no element stays well formed. -/
theorem Untouched.wellFormed {h h' : Heap κ ρ α} {l k : κ} {els others : List (ρ × α)}
    (same : Untouched h h' l els) (apart : k ≠ l)
    (disjoint : ∀ e ∈ others.map Prod.fst, e ∉ els.map Prod.fst) (wellFormed : WellFormed h k others) :
    WellFormed h' k others := by
  rw [WellFormed, same.lhFirst k apart]
  exact Segment.congr wellFormed fun e member => same.elm e (disjoint e member)

end Segments

section Changes

variable [DecidableEq ρ]
variable {h : Heap κ ρ α} {l : κ} {e : ρ} {d : α} {pre rest els : List (ρ × α)}

/-- The element that a segment starts with, if any, is made to point back elsewhere. -/
theorem Segment.setPrev {slot : Slot κ ρ} {p : Option ρ} (linked : Segment h slot p els none)
    (back : Slot κ ρ) :
    ∃ h', h.setPrev p (some back) = some h' ∧ Segment h' back p els none ∧
      (∀ x ∉ els.map Prod.fst, h'.elm x = h.elm x) ∧ h'.lhFirst = h.lhFirst := by
  have distinct := linked.nodup
  cases els with
  | nil =>
      cases linked
      exact ⟨h, rfl, rfl, fun _ _ => rfl, rfl⟩
  | cons y els =>
      obtain ⟨f, d⟩ := y
      obtain ⟨rfl, next, cell, behind⟩ := linked
      rw [List.map_cons, List.nodup_cons] at distinct
      refine ⟨h.put f { data := d, leNext := next, lePrev := some back }, ?_,
        ⟨rfl, next, put_elm_self, ?_⟩, ?_, rfl⟩
      · rw [Heap.setPrev, cell]
        rfl
      · refine behind.congr fun x member => put_elm_of_ne ?_
        rintro rfl
        exact distinct.1 member
      · intro x outside
        refine put_elm_of_ne ?_
        rintro rfl
        exact outside (List.mem_cons_self ..)

/-- The memory of an element that is in no list is released. -/
theorem WellFormed.free {c : Elm κ ρ α} (wellFormed : WellFormed h l els) (allocated : h.elm e = some c)
    (absent : e ∉ els.map Prod.fst) :
    ∃ h', h.free e = some h' ∧ WellFormed h' l els ∧ h'.elm e = none ∧
      (∀ x, x ≠ e → h'.elm x = h.elm x) ∧ h'.lhFirst = h.lhFirst := by
  refine ⟨{ h with elm := Function.update h.elm e none }, by rw [Heap.free, allocated], ?_, ?_, ?_, rfl⟩
  · refine Segment.congr wellFormed fun x member => ?_
    have other : x ≠ e := by
      rintro rfl
      exact absent member
    simp [other]
  · simp
  · intro x other
    simp [other]

variable [DecidableEq κ]

/-- The link behind the front part of a list is redirected. -/
theorem Segment.assign {q : Option ρ} (front : Segment h (.first l) (h.lhFirst l) pre q)
    (distinct : (pre.map Prod.fst).Nodup) (target : Option ρ) :
    ∃ h', h.assign (endSlot (.first l) pre) target = some h' ∧
      Segment h' (.first l) (h'.lhFirst l) pre target ∧ Untouched h h' l pre := by
  cases pre using List.reverseRecOn with
  | nil =>
      refine ⟨h.setFirst l target, rfl, by simp [Segment, Heap.setFirst], fun _ _ => rfl, ?_⟩
      intro k apart
      simp [Heap.setFirst, apart]
  | append_singleton pre x =>
      obtain ⟨e, d⟩ := x
      obtain ⟨r, before, here, next, cell, atEnd⟩ := segment_append.mp front
      rw [List.map_append, List.nodup_append] at distinct
      have absent : e ∉ pre.map Prod.fst := fun member =>
        distinct.2.2 e member e (List.mem_singleton_self _) rfl
      refine ⟨h.put e { data := d, leNext := target, lePrev := some (endSlot (.first l) pre) },
        ?_, ?_, ?_, fun _ _ => rfl⟩
      · rw [endSlot_concat, Heap.assign, cell]
        rfl
      · refine segment_append.mpr ⟨r, before.congr fun x member => put_elm_of_ne ?_, here, target,
          put_elm_self, rfl⟩
        rintro rfl
        exact absent member
      · intro x outside
        refine put_elm_of_ne ?_
        rintro rfl
        exact outside (by simp)

/-- `LIST_REMOVE` takes an element out of a well-formed list and leaves the element itself as it was. -/
theorem WellFormed.remove (wellFormed : WellFormed h l (pre ++ (e, d) :: rest)) :
    ∃ h', listRemove h e = some h' ∧ WellFormed h' l (pre ++ rest) ∧ h'.elm e = h.elm e ∧
      Untouched h h' l (pre ++ rest) := by
  have distinct := Segment.nodup wellFormed
  rw [List.map_append, List.map_cons, List.nodup_append, List.nodup_cons] at distinct
  obtain ⟨distinctPre, ⟨absentRest, _⟩, apart⟩ := distinct
  have absentPre : e ∉ pre.map Prod.fst := fun member => apart e member e (List.mem_cons_self ..) rfl
  obtain ⟨r, front, here, next, cell, behind⟩ := segment_append.mp wellFormed
  -- The back-pointer of the next element.
  obtain ⟨h₁, repointed, behind₁, same₁, heads₁⟩ := behind.setPrev (endSlot (.first l) pre)
  have front₁ : Segment h₁ (.first l) (h₁.lhFirst l) pre r := by
    rw [heads₁]
    refine front.congr fun x member => same₁ x fun inRest => ?_
    exact apart x member x (List.mem_cons_of_mem _ inRest) rfl
  -- The link that pointed at the element.
  obtain ⟨h₂, redirected, front₂, same₂⟩ := front₁.assign distinctPre next
  have behind₂ : Segment h₂ (endSlot (.first l) pre) next rest none :=
    behind₁.congr fun x member => same₂.elm x fun inPre =>
      apart x inPre x (List.mem_cons_of_mem _ member) rfl
  have cell₁ : h₁.elm e = h.elm e := same₁ e absentRest
  refine ⟨h₂, ?_, segment_append.mpr ⟨next, front₂, behind₂⟩, ?_, ?_, ?_⟩
  · simp only [listRemove, cell, Option.bind_eq_bind, Option.bind_some, repointed, cell₁, redirected]
  · exact (same₂.elm e absentPre).trans cell₁
  · intro x outside
    rw [List.map_append, List.mem_append, not_or] at outside
    exact (same₂.elm x outside.1).trans (same₁ x outside.2)
  · intro k other
    rw [same₂.lhFirst k other, heads₁]

/-- `LIST_INSERT_HEAD` puts an element that is in no list in front of a well-formed list. -/
theorem WellFormed.insertHead {c : Elm κ ρ α} (wellFormed : WellFormed h l els)
    (allocated : h.elm e = some c) (absent : e ∉ els.map Prod.fst) :
    ∃ h', listInsertHead h l e = some h' ∧ WellFormed h' l ((e, c.data) :: els) ∧
      Untouched h h' l ((e, c.data) :: els) := by
  have linked : Segment (h.put e { c with leNext := h.lhFirst l }) (.first l) (h.lhFirst l) els none :=
    Segment.congr wellFormed fun x member => put_elm_of_ne fun same => absent (same ▸ member)
  obtain ⟨h₁, repointed, behind₁, same₁, heads₁⟩ := linked.setPrev (.next e)
  have cell₁ : h₁.elm e = some { c with leNext := h.lhFirst l } := (same₁ e absent).trans put_elm_self
  refine ⟨(h₁.setFirst l (some e)).put e
    { c with leNext := h.lhFirst l, lePrev := some (.first l) }, ?_, ?_, ?_, ?_⟩
  · have heads : (h.put e { c with leNext := h.lhFirst l }).lhFirst l = h.lhFirst l := rfl
    simp only [listInsertHead, allocated, Option.bind_eq_bind, Option.bind_some, heads, repointed]
    simp [Heap.setPrev, Heap.setFirst, cell₁]
  · refine ⟨by simp [Heap.put, Heap.setFirst], h.lhFirst l, put_elm_self, behind₁.congr ?_⟩
    intro x member
    exact put_elm_of_ne fun same => absent (same ▸ member)
  · intro x outside
    rw [List.map_cons, List.mem_cons, not_or] at outside
    rw [put_elm_of_ne outside.1]
    exact (same₁ x outside.2).trans (put_elm_of_ne outside.1)
  · intro k other
    simp only [Heap.put, Heap.setFirst, Function.update_of_ne other, heads₁]

end Changes

end LinkedList
