/-
Module: Bprd.Lib.Refinement
Layer: Lib
Purpose: A fallible function run next to a simpler one. Where both succeed the results correspond, where
  both fail the errors do, and the first may give up for reasons of its own. Sequences and loops of
  corresponding parts correspond.
Imports: Bprd.Lib.ConsumeLoop
Trusted boundary: none
Main exports: Refinement.Conforms, Refinement.Conforms.weaken, Refinement.conforms_consumeLoop
-/
import Bprd.Lib.ConsumeLoop

namespace Refinement

open ConsumeLoop (consumeLoop consumeLoop_done consumeLoop_step Progress)

variable {α β ε δ σ τ ι : Type}

/-- How a run corresponds to a plain one: the results are `fine`, the errors both `stops`, or the run
    alone `quits`. -/
inductive Conforms (fine : α → β → Prop) (stops : ε → δ → Prop) (quits : ε → Prop) :
    Except ε α → Except δ β → Prop where
  | ok {a : α} {b : β} (isFine : fine a b) : Conforms fine stops quits (.ok a) (.ok b)
  | error {e : ε} {d : δ} (isStop : stops e d) : Conforms fine stops quits (.error e) (.error d)
  | quit {e : ε} {plain : Except δ β} (isQuit : quits e) : Conforms fine stops quits (.error e) plain

variable {fine fine' : α → β → Prop} {stops stops' : ε → δ → Prop} {quits quits' : ε → Prop}

/-- A correspondence is one in a weaker sense; the plain result may be used for it. -/
theorem Conforms.weaken {run : Except ε α} {plain : Except δ β} (conforms : Conforms fine stops quits run plain)
    (onFine : ∀ a b, plain = .ok b → fine a b → fine' a b) (onStop : ∀ e d, stops e d → stops' e d)
    (onQuit : ∀ e, quits e → quits' e) : Conforms fine' stops' quits' run plain := by
  cases conforms with
  | ok isFine => exact .ok (onFine _ _ rfl isFine)
  | error isStop => exact .error (onStop _ _ isStop)
  | quit isQuit => exact .quit (onQuit _ isQuit)

section Loop

variable {body : σ → List ι → Except ε (σ × List ι)} {plain : τ → List ι → Except δ (τ × List ι)}
  {spent : ε} {spent' : δ} {stop : Nat}

/-- When the rounds of a loop correspond, and keep an invariant that may depend on the input that is left,
    then the loops do. The plain body has to make progress. -/
theorem conforms_consumeLoop (inv : List ι → σ → τ → Prop) (progress : Progress plain)
    (round : ∀ s t input, stop < input.length → inv input s t →
      Conforms (fun a b => a.2 = b.2 ∧ inv b.2 a.1 b.1) stops quits (body s input) (plain t input))
    {fuel : Nat} {s : σ} {t : τ} {input : List ι} (enough : input.length ≤ fuel)
    (start : inv input s t) :
    Conforms (fun a b => a.2 = b.2 ∧ inv b.2 a.1 b.1) stops quits
      (consumeLoop body spent stop fuel s input) (consumeLoop plain spent' stop fuel t input) := by
  induction fuel generalizing s t input with
  | zero =>
      have short : input.length ≤ stop := by omega
      rw [consumeLoop_done short, consumeLoop_done short]
      exact .ok ⟨rfl, start⟩
  | succ fuel ih =>
      by_cases short : input.length ≤ stop
      · rw [consumeLoop_done short, consumeLoop_done short]
        exact .ok ⟨rfl, start⟩
      · have long := Nat.not_le.mp short
        rw [consumeLoop_step long, consumeLoop_step long]
        have here := round s t input long start
        cases ran : body s input with
        | error e =>
            rw [ran] at here
            cases ranPlain : plain t input with
            | error d =>
                rw [ranPlain] at here
                cases here with
                | error isStop => exact .error isStop
                | quit isQuit => exact .quit isQuit
            | ok b =>
                rw [ranPlain] at here
                cases here with
                | quit isQuit => exact .quit isQuit
        | ok a =>
            rw [ran] at here
            cases ranPlain : plain t input with
            | error d =>
                rw [ranPlain] at here
                cases here
            | ok b =>
                rw [ranPlain] at here
                obtain ⟨s', rest⟩ := a
                obtain ⟨t', rest'⟩ := b
                cases here with
                | ok isFine =>
                    obtain ⟨same, next⟩ := isFine
                    cases same
                    have shrunk : rest.length < input.length := progress ranPlain
                    exact ih (by omega) next

end Loop

end Refinement
