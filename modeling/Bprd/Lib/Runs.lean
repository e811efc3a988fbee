/-
Module: Bprd.Lib.Runs
Layer: Lib
Purpose: Runs of a step function that may fail and gives an output at every step. The trace of a run pairs
  each input with its output, so a property of a run can speak about its history; the induction rule
  `run_induction` extends the trace at its end.
Imports: Bprd.Lib.Fallible, Mathlib.Data.List.Induction
Trusted boundary: none
Main exports: Runs.run, Runs.run_cons, Runs.run_append, Runs.run_induction
-/
import Bprd.Lib.Fallible
import Mathlib.Data.List.Induction

namespace Runs

variable {σ ι ω ε : Type}

/-- Feed the inputs to the step function, first to last, and collect the trace. -/
def run (step : σ → ι → Except ε (σ × ω)) : σ → List ι → Except ε (σ × List (ι × ω))
  | s, [] => .ok (s, [])
  | s, input :: inputs =>
      match step s input with
      | .error e => .error e
      | .ok (s', out) =>
          match run step s' inputs with
          | .error e => .error e
          | .ok (s'', trace) => .ok (s'', (input, out) :: trace)

variable {step : σ → ι → Except ε (σ × ω)}

theorem run_cons {s s'' : σ} {input : ι} {inputs : List ι} {trace : List (ι × ω)} :
    run step s (input :: inputs) = .ok (s'', trace) ↔
      ∃ s' out rest, step s input = .ok (s', out) ∧ run step s' inputs = .ok (s'', rest) ∧
        trace = (input, out) :: rest := by
  rw [run]
  cases first : step s input with
  | error e => simp
  | ok next =>
      obtain ⟨s', out⟩ := next
      dsimp only
      cases later : run step s' inputs with
      | error e => simp [later]
      | ok last =>
          obtain ⟨t, rest⟩ := last
          simp [later, eq_comm]

theorem run_append {s s'' : σ} {inputs more : List ι} {trace : List (ι × ω)} :
    run step s (inputs ++ more) = .ok (s'', trace) ↔
      ∃ s' before after, run step s inputs = .ok (s', before) ∧
        run step s' more = .ok (s'', after) ∧ trace = before ++ after := by
  induction inputs generalizing s trace with
  | nil => simp [run, eq_comm]
  | cons input inputs ih =>
      rw [List.cons_append, run_cons]
      constructor
      · rintro ⟨s₁, out, rest, first, later, rfl⟩
        obtain ⟨s', before, after, ran, ranMore, rfl⟩ := ih.mp later
        exact ⟨s', (input, out) :: before, after, run_cons.mpr ⟨s₁, out, before, first, ran, rfl⟩,
          ranMore, rfl⟩
      · rintro ⟨s', before, after, ran, ranMore, rfl⟩
        obtain ⟨s₁, out, rest, first, later, rfl⟩ := run_cons.mp ran
        exact ⟨s₁, out, rest ++ after, first, ih.mpr ⟨s', rest, after, later, ranMore, rfl⟩, rfl⟩

/-- Induction over a run: what holds of the empty trace and survives every further step holds of the
    whole trace and the last state. -/
theorem run_induction {motive : List (ι × ω) → σ → Prop} {s : σ} (start : motive [] s)
    (extend : ∀ {trace s input s' out}, motive trace s → step s input = .ok (s', out) →
      motive (trace ++ [(input, out)]) s') :
    ∀ {inputs : List ι} {s' : σ} {trace : List (ι × ω)},
      run step s inputs = .ok (s', trace) → motive trace s' := by
  intro inputs
  induction inputs using List.reverseRecOn with
  | nil =>
      intro s' trace ran
      cases ran
      exact start
  | append_singleton inputs input ih =>
      intro s' trace ran
      obtain ⟨s₁, before, after, ranBefore, ranLast, rfl⟩ := run_append.mp ran
      obtain ⟨s₂, out, rest, stepped, ended, rfl⟩ := run_cons.mp ranLast
      cases ended
      exact extend (ih ranBefore) stepped

/-- The inputs of a trace are the inputs of its run. -/
theorem run_inputs {s s' : σ} {inputs : List ι} {trace : List (ι × ω)}
    (ran : run step s inputs = .ok (s', trace)) : trace.map Prod.fst = inputs := by
  induction inputs generalizing s trace with
  | nil =>
      cases ran
      rfl
  | cons input inputs ih =>
      obtain ⟨_, _, _, _, later, rfl⟩ := run_cons.mp ran
      rw [List.map_cons, ih later]

end Runs
