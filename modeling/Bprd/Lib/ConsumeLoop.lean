/-
Module: Bprd.Lib.ConsumeLoop
Layer: Lib
Purpose: The loop of a length-delimited parser: run the body while more than `stop` elements of the input
  are left. The recursion is on a fuel argument; when every successful run of the body consumes
  something, the input length is enough fuel (`consumeLoop_enough`). The loop fails where its body does
  (`consumeLoop_bad_iff`). A body that inverts an encoding item by item makes the loop invert the
  concatenation (`consumeLoop_encoded`).
Imports: Mathlib.Data.List.Basic
Trusted boundary: none
Main exports: ConsumeLoop.consumeLoop, ConsumeLoop.Progress, ConsumeLoop.consumeLoop_enough,
  ConsumeLoop.visited, ConsumeLoop.consumeLoop_bad_iff, ConsumeLoop.consumeLoop_encoded
-/
import Mathlib.Data.List.Basic

namespace ConsumeLoop

variable {σ β ε ι : Type}

/-- Run `body` while more than `stop` elements are left; `spent` is returned when the fuel runs out. -/
def consumeLoop (body : σ → List β → Except ε (σ × List β)) (spent : ε) (stop : Nat) :
    Nat → σ → List β → Except ε (σ × List β)
  | 0, s, input => if input.length ≤ stop then .ok (s, input) else .error spent
  | fuel + 1, s, input =>
      if input.length ≤ stop then .ok (s, input)
      else
        match body s input with
        | .error e => .error e
        | .ok (s', rest) => consumeLoop body spent stop fuel s' rest

/-- Every successful run of the body consumes something. -/
def Progress (body : σ → List β → Except ε (σ × List β)) : Prop :=
  ∀ {s s' input rest}, body s input = .ok (s', rest) → rest.length < input.length

variable {body : σ → List β → Except ε (σ × List β)} {spent : ε} {stop : Nat}

theorem consumeLoop_done {fuel : Nat} {s : σ} {input : List β} (short : input.length ≤ stop) :
    consumeLoop body spent stop fuel s input = .ok (s, input) := by
  cases fuel <;> simp [consumeLoop, short]

theorem consumeLoop_step {fuel : Nat} {s : σ} {input : List β} (long : stop < input.length) :
    consumeLoop body spent stop (fuel + 1) s input =
      match body s input with
      | .error e => .error e
      | .ok (s', rest) => consumeLoop body spent stop fuel s' rest := by
  rw [consumeLoop, if_neg (Nat.not_le.mpr long)]

/-- When every run of the body consumes something, the input length is enough fuel: neither more fuel nor
    another value for spent fuel makes a difference. -/
theorem consumeLoop_enough (progress : Progress body) {spent' : ε} :
    ∀ {fuel fuel' : Nat} {s : σ} {input : List β}, input.length ≤ fuel → input.length ≤ fuel' →
      consumeLoop body spent stop fuel s input = consumeLoop body spent' stop fuel' s input
  | 0, fuel', s, input, enough, _ => by
      have short : input.length ≤ stop := by omega
      rw [consumeLoop_done short, consumeLoop_done short]
  | fuel + 1, 0, s, input, _, enough' => by
      have short : input.length ≤ stop := by omega
      rw [consumeLoop_done short, consumeLoop_done short]
  | fuel + 1, fuel' + 1, s, input, enough, enough' => by
      by_cases short : input.length ≤ stop
      · rw [consumeLoop_done short, consumeLoop_done short]
      · rw [consumeLoop_step (Nat.not_le.mp short), consumeLoop_step (Nat.not_le.mp short)]
        cases ran : body s input with
        | error e => rfl
        | ok next =>
            obtain ⟨s', rest⟩ := next
            have shrunk : rest.length < input.length := progress ran
            exact consumeLoop_enough progress (by omega) (by omega)

/-- Nothing the loop returns is longer than its input. -/
theorem consumeLoop_length_le (progress : Progress body) :
    ∀ {fuel : Nat} {s s' : σ} {input rest : List β},
      consumeLoop body spent stop fuel s input = .ok (s', rest) → rest.length ≤ input.length
  | 0, s, s', input, rest, ran => by
      rw [consumeLoop] at ran
      split at ran
      · cases ran
        exact Nat.le_refl _
      · cases ran
  | fuel + 1, s, s', input, rest, ran => by
      rw [consumeLoop] at ran
      split at ran
      · cases ran
        exact Nat.le_refl _
      · cases inner : body s input with
        | error e =>
            rw [inner] at ran
            cases ran
        | ok next =>
            rw [inner] at ran
            have tail := consumeLoop_length_le progress ran
            have shrunk := progress inner
            omega

/-- The inputs at which the loop runs its body, in order. -/
def visited (body : σ → List β → Except ε (σ × List β)) (stop : Nat) : Nat → σ → List β → List (List β)
  | 0, _, _ => []
  | fuel + 1, s, input =>
      if input.length ≤ stop then []
      else
        input ::
          match body s input with
          | .error _ => []
          | .ok (s', rest) => visited body stop fuel s' rest

/-- The loop fails in a `bad` way exactly when the body does at an input that the loop visits. -/
theorem consumeLoop_bad_iff {bad : ε → Prop} {traps : List β → Prop} (spentOk : ¬bad spent)
    (body_bad : ∀ s input, (∃ e, bad e ∧ body s input = .error e) ↔ traps input) :
    ∀ {fuel : Nat} {s : σ} {input : List β},
      (∃ e, bad e ∧ consumeLoop body spent stop fuel s input = .error e) ↔
        ∃ at_ ∈ visited body stop fuel s input, traps at_
  | 0, s, input => by
      constructor
      · rintro ⟨e, isBad, failed⟩
        rw [consumeLoop] at failed
        split at failed
        · cases failed
        · cases failed
          exact absurd isBad spentOk
      · rintro ⟨_, member, _⟩
        cases member
  | fuel + 1, s, input => by
      by_cases short : input.length ≤ stop
      · rw [consumeLoop_done short, visited, if_pos short]
        constructor
        · rintro ⟨_, _, failed⟩
          cases failed
        · rintro ⟨_, member, _⟩
          cases member
      · rw [consumeLoop_step (Nat.not_le.mp short), visited, if_neg short]
        have here := body_bad s input
        cases ran : body s input with
        | error e =>
            rw [ran] at here
            simpa using here
        | ok next =>
            obtain ⟨s', rest⟩ := next
            rw [ran] at here
            have fine : ¬traps input := fun isTrap => by
              obtain ⟨_, _, failed⟩ := here.mpr isTrap
              cases failed
            dsimp only
            rw [consumeLoop_bad_iff spentOk body_bad]
            constructor
            · rintro ⟨at_, member, isTrap⟩
              exact ⟨at_, List.mem_cons_of_mem _ member, isTrap⟩
            · rintro ⟨at_, member, isTrap⟩
              rcases List.mem_cons.mp member with rfl | later
              · exact absurd isTrap fine
              · exact ⟨at_, later, isTrap⟩

/-- A body that reads one encoded item makes the loop read a sequence of them, in order. `motive` relates
    the items read so far to the state. -/
theorem consumeLoop_encoded {encode : ι → List β} {valid : ι → Prop} {tail : List β}
    {motive : List ι → σ → Prop} (nonempty : ∀ x, valid x → encode x ≠ [])
    (reads : ∀ done s x rest, valid x → motive done s →
      ∃ s', body s (encode x ++ rest) = .ok (s', rest) ∧ motive (done ++ [x]) s') :
    ∀ {items done : List ι} {fuel : Nat} {s : σ}, (∀ x ∈ items, valid x) → items.length ≤ fuel →
      motive done s →
        ∃ s', consumeLoop body spent tail.length fuel s (items.flatMap encode ++ tail) =
            .ok (s', tail) ∧ motive (done ++ items) s'
  | [], done, fuel, s, _, _, start => by
      refine ⟨s, ?_, by rwa [List.append_nil]⟩
      rw [List.flatMap_nil, List.nil_append]
      exact consumeLoop_done (Nat.le_refl tail.length)
  | x :: items, done, 0, s, _, enough, _ => by
      simp at enough
  | x :: items, done, fuel + 1, s, allValid, enough, start => by
      have isValid := allValid x (List.mem_cons_self ..)
      have some_left : 0 < (encode x).length := List.length_pos_iff.mpr (nonempty x isValid)
      have long : tail.length < ((x :: items).flatMap encode ++ tail).length := by
        simp only [List.flatMap_cons, List.length_append]
        omega
      have shape : (x :: items).flatMap encode ++ tail =
          encode x ++ (items.flatMap encode ++ tail) := by
        simp
      obtain ⟨s₁, read, next⟩ := reads done s x (items.flatMap encode ++ tail) isValid start
      obtain ⟨s', ran, finish⟩ := consumeLoop_encoded nonempty reads
        (fun y member => allValid y (List.mem_cons_of_mem _ member)) (by simpa using enough) next
      refine ⟨s', ?_, ?_⟩
      · rw [consumeLoop_step long, shape, read]
        exact ran
      · rw [List.append_assoc] at finish
        exact finish

/-- Encodings of items are at least as long as their number. -/
theorem length_le_flatMap {encode : ι → List β} {items : List ι}
    (nonempty : ∀ x ∈ items, encode x ≠ []) : items.length ≤ (items.flatMap encode).length := by
  induction items with
  | nil => exact Nat.le_refl 0
  | cons x items ih =>
      have some_left : 0 < (encode x).length :=
        List.length_pos_iff.mpr (nonempty x (List.mem_cons_self ..))
      have rest := ih fun y member => nonempty y (List.mem_cons_of_mem _ member)
      rw [List.flatMap_cons, List.length_append, List.length_cons]
      omega

end ConsumeLoop
