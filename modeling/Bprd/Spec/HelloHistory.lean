/-
Module: Bprd.Spec.HelloHistory
Layer: Spec
Purpose: What a neighbour table is for. A table is seen as a partial function from addresses to what is
  known about a neighbour, and a history is a sequence of hellos heard and of expiries. What the table
  knows about an address is a summary of the hellos heard from it since its entry was created.
Imports: Bprd.Model.Commodity, Mathlib.Data.List.Induction, Mathlib.Logic.Function.Basic
Trusted boundary: human-reviewed spec
Main exports: Hello, NeighborView, TableView, TableView.hear, TableEvent, TableView.after, sinceCreation,
  lastBacklog, summary, after_eq_summary
-/
import Bprd.Model.Commodity
import Mathlib.Data.List.Induction
import Mathlib.Logic.Function.Basic

namespace Bprd

/-- A hello: who sent it, the backlogs it carries in processing order, and the addresses it lists. -/
structure Hello where
  sender : Netaddr
  commodities : List CommodityShort
  listed : List Netaddr
deriving DecidableEq

/-- What is known about a neighbour. -/
structure NeighborView where
  bidir : UInt8
  updateTime : Timeval
  backlog : Netaddr → Option UInt32

/-- A neighbour heard for the first time. -/
def NeighborView.fresh (time : Timeval) : NeighborView :=
  { bidir := 0, updateTime := time, backlog := fun _ => none }

/-- The last backlog for a destination. -/
def lastBacklog (d : Netaddr) (commodities : List CommodityShort) : Option UInt32 :=
  (commodities.reverse.find? fun c => decide (c.addr = d)).map CommodityShort.backlog

theorem lastBacklog_append (d : Netaddr) (cs ds : List CommodityShort) :
    lastBacklog d (cs ++ ds) = (lastBacklog d ds).or (lastBacklog d cs) := by
  rw [lastBacklog, List.reverse_append, List.find?_append, Option.map_or]
  rfl

theorem lastBacklog_singleton (d : Netaddr) (c : CommodityShort) :
    lastBacklog d [c] = if c.addr = d then some c.backlog else none := by
  by_cases here : c.addr = d
  · simp [lastBacklog, here]
  · simp [lastBacklog, here]

/-- A hello heard by the node with address `own`. -/
def NeighborView.absorb (own : Netaddr) (time : Timeval) (hello : Hello) (v : NeighborView) :
    NeighborView :=
  { bidir := if own ∈ hello.listed then 1 else v.bidir
    updateTime := time
    backlog := fun d => (lastBacklog d hello.commodities).or (v.backlog d) }

/-- A table, by address. -/
abbrev TableView := Netaddr → Option NeighborView

/-- The table of a daemon that has just started. -/
def TableView.empty : TableView := fun _ => none

/-- A hello enters the table. -/
def TableView.hear (own : Netaddr) (time : Timeval) (hello : Hello) (table : TableView) : TableView :=
  Function.update table hello.sender
    (some (((table hello.sender).getD (.fresh time)).absorb own time hello))

/-- The entries of some addresses expire. -/
def TableView.expire (gone : Netaddr → Bool) (table : TableView) : TableView :=
  fun a => if gone a then none else table a

/-- What happens to a table. -/
inductive TableEvent where
  | heard (time : Timeval) (hello : Hello)
  | expired (gone : Netaddr → Bool)

/-- The table after one event. -/
def TableView.step (own : Netaddr) (table : TableView) : TableEvent → TableView
  | .heard time hello => table.hear own time hello
  | .expired gone => table.expire gone

/-- The table after some events. -/
def TableView.after (own : Netaddr) (table : TableView) (events : List TableEvent) : TableView :=
  events.foldl (TableView.step own) table

/-- One event, as far as the hellos from `a` since the creation of its entry are concerned. -/
def extendLog (a : Netaddr) (log : List (Timeval × Hello)) : TableEvent → List (Timeval × Hello)
  | .heard time hello => if hello.sender = a then log ++ [(time, hello)] else log
  | .expired gone => if gone a then [] else log

/-- The hellos heard from `a` since its entry was created, with their times. -/
def sinceCreation (a : Netaddr) (events : List TableEvent) : List (Timeval × Hello) :=
  events.foldl (extendLog a) []

theorem sinceCreation_append (a : Netaddr) (events : List TableEvent) (event : TableEvent) :
    sinceCreation a (events ++ [event]) = extendLog a (sinceCreation a events) event := by
  rw [sinceCreation, List.foldl_append]
  rfl

theorem after_append (own : Netaddr) (table : TableView) (events : List TableEvent)
    (event : TableEvent) :
    table.after own (events ++ [event]) = (table.after own events).step own event := by
  rw [TableView.after, List.foldl_append]
  rfl

/-- The backlogs carried by some hellos, in processing order. -/
def carried (log : List (Timeval × Hello)) : List CommodityShort :=
  log.flatMap fun entry => entry.2.commodities

/-- Some hello lists an address. -/
def Listed (own : Netaddr) (log : List (Timeval × Hello)) : Prop := ∃ entry ∈ log, own ∈ entry.2.listed

instance (own : Netaddr) (log : List (Timeval × Hello)) : Decidable (Listed own log) :=
  inferInstanceAs (Decidable (∃ entry ∈ log, own ∈ entry.2.listed))

/-- What is known from some hellos of one neighbour: nothing, if there are none. -/
def summary (own : Netaddr) (log : List (Timeval × Hello)) : Option NeighborView :=
  log.getLast?.map fun last =>
    { bidir := if Listed own log then 1 else 0
      updateTime := last.1
      backlog := fun d => lastBacklog d (carried log) }

theorem summary_eq_none_iff {own : Netaddr} {log : List (Timeval × Hello)} :
    summary own log = none ↔ log = [] := by
  rw [summary, Option.map_eq_none_iff, List.getLast?_eq_none_iff]

/-- One more hello updates the summary. -/
theorem summary_append (own : Netaddr) (log : List (Timeval × Hello)) (time : Timeval)
    (hello : Hello) :
    summary own (log ++ [(time, hello)]) =
      some (((summary own log).getD (.fresh time)).absorb own time hello) := by
  have bidir : (if Listed own (log ++ [(time, hello)]) then (1 : UInt8) else 0) =
      if own ∈ hello.listed then 1 else if Listed own log then 1 else 0 := by
    have split : Listed own (log ++ [(time, hello)]) ↔ own ∈ hello.listed ∨ Listed own log := by
      unfold Listed
      constructor
      · rintro ⟨entry, member, lists⟩
        rcases List.mem_append.mp member with earlier | here
        · exact .inr ⟨entry, earlier, lists⟩
        · rw [List.mem_singleton.mp here] at lists
          exact .inl lists
      · rintro (lists | ⟨entry, member, lists⟩)
        · exact ⟨(time, hello), List.mem_append_right _ (List.mem_singleton.mpr rfl), lists⟩
        · exact ⟨entry, List.mem_append_left _ member, lists⟩
    by_cases lists : own ∈ hello.listed
    · rw [if_pos (split.mpr (.inl lists)), if_pos lists]
    · rw [if_neg lists]
      exact if_congr (split.trans (or_iff_right lists)) rfl rfl
  have backlog : ∀ d, lastBacklog d (carried (log ++ [(time, hello)])) =
      (lastBacklog d hello.commodities).or (lastBacklog d (carried log)) := by
    intro d
    rw [carried, List.flatMap_append, lastBacklog_append, List.flatMap_singleton]
    rfl
  rw [summary, List.getLast?_append, List.getLast?_singleton, Option.some_or, Option.map_some]
  simp only [bidir, backlog]
  rcases List.eq_nil_or_concat' log with rfl | ⟨earlier, last, rfl⟩
  · rfl
  · rw [summary, List.getLast?_append]
    rfl

/-- What a table that started empty knows about an address is the summary of the hellos heard from it
    since its entry was created. -/
theorem after_eq_summary (own : Netaddr) (events : List TableEvent) (a : Netaddr) :
    TableView.empty.after own events a = summary own (sinceCreation a events) := by
  induction events using List.reverseRecOn with
  | nil => rfl
  | append_singleton events event ih =>
      rw [after_append, sinceCreation_append]
      cases event with
      | heard time hello =>
          show TableView.hear own time hello _ a = summary own (if hello.sender = a then _ else _)
          by_cases here : hello.sender = a
          · subst here
            rw [TableView.hear, Function.update_self, ih, if_pos rfl, summary_append]
          · rw [TableView.hear, Function.update_of_ne (Ne.symm here), ih, if_neg here]
      | expired gone =>
          show TableView.expire gone _ a = summary own (if gone a then _ else _)
          rw [TableView.expire, ih]
          split
          · rfl
          · rfl

end Bprd
