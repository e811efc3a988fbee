/-
Module: Bprd.Proofs.ReleasePeriod
Layer: Proofs
Purpose: The releases between two router updates, taken together. Every call is bounded by the stored
  differential, but the bound is not used up by earlier calls of the same period. The period keeps the
  bound as a whole when its calls together ask for no more, or when the only packet a differential of 1
  stands for is released before another one arrives (`WithinBudget`).
Imports: Bprd.Proofs.Release
Trusted boundary: none
Main exports: backloggerRun, PeriodOp, accepted, requested, WithinBudget, period_accepted_le
-/
import Bprd.Proofs.Release

namespace Bprd

/-- Calls one after the other, with all their verdicts. -/
def backloggerRun : List Commodity → List BackloggerOp → List Commodity × List Verdict
  | clist, [] => (clist, [])
  | clist, op :: ops =>
      let first := backloggerStep clist op
      let rest := backloggerRun first.1 ops
      (rest.1, first.2 ++ rest.2)

/-- The calls of a period: packet arrivals and releases. -/
def PeriodOp : BackloggerOp → Prop
  | .add _ | .release _ => True
  | _ => False

/-- The packets accepted from the queue with a handle. -/
def accepted (qh : QueueHandle) (verdicts : List Verdict) : Nat :=
  verdicts.countP fun v => v.qh = some qh ∧ v.verdict = .accept

/-- What the releases of a period ask for, each capped by the bound of differential `d`. -/
def requested (d : UInt32) : List BackloggerOp → Nat
  | [] => 0
  | .release count :: ops => (releaseCount d count).toNat + requested d ops
  | _ :: ops => requested d ops

/-- The packets that arrive at position `i` in a period. -/
def arrivalsAt (i : Nat) : List BackloggerOp → Nat
  | [] => 0
  | .add j :: ops => (if i = j then 1 else 0) + arrivalsAt i ops
  | _ :: ops => arrivalsAt i ops

/-- The period asks for no more than the bound of the differential, or the differential is 1, the queue
    shows exactly one packet, and no other arrives before the last release that asks for one. -/
def WithinBudget (d : UInt32) (i : Nat) (held : Nat) (ops : List BackloggerOp) : Prop :=
  requested d ops ≤ (d.toNat + 1) / 2 ∨
    d = 1 ∧ held = 1 ∧ ∃ before after, ops = before ++ after ∧
      (∀ op ∈ before, op ≠ .add i) ∧ requested d after = 0

theorem accepted_append (qh : QueueHandle) (vs ws : List Verdict) :
    accepted qh (vs ++ ws) = accepted qh vs + accepted qh ws :=
  List.countP_append

section

variable {clist : List Commodity} {i : Nat} {qh : QueueHandle} {queue : Fifo}

theorem accepted_eq_length {vs : List Verdict}
    (all : ∀ v ∈ vs, v.qh = some qh ∧ v.verdict = .accept) : accepted qh vs = vs.length := by
  rw [accepted, List.countP_eq_length]
  intro v member
  exact decide_eq_true (all v member)

theorem accepted_eq_zero {vs : List Verdict} (none : ∀ v ∈ vs, v.qh ≠ some qh) :
    accepted qh vs = 0 := by
  rw [accepted, List.countP_eq_zero]
  intro v member isOurs
  exact none v member (of_decide_eq_true isOurs).1

/-- The queue at position `i` is the one with handle `qh`, and no other is. -/
structure Owns (clist : List Commodity) (i : Nat) (qh : QueueHandle) (queue : Fifo) : Prop where
  at_i : queueAt clist i = some queue
  handle : queue.qh = some qh
  only : ∀ {j queue'}, queueAt clist j = some queue' → queue'.qh = some qh → j = i

theorem Owns.moved (owns : Owns clist i qh queue) {act : Fifo → Fifo × List Verdict}
    (keeps : ∀ queue, (act queue).1.qh = queue.qh) (j : Nat) :
    Owns (onCommodity (onQueue act) j clist).1 i qh (if i = j then (act queue).1 else queue) := by
  refine ⟨?_, ?_, ?_⟩
  · rw [queueAt_onQueue]
    split
    · simp [owns.at_i]
    · exact owns.at_i
  · split
    · exact (keeps queue).trans owns.handle
    · exact owns.handle
  · intro k queue' found named
    rw [queueAt_onQueue] at found
    split at found
    · obtain ⟨queue₀, found₀, rfl⟩ := Option.map_eq_some_iff.mp found
      exact owns.only found₀ ((keeps queue₀).symm.trans named)
    · exact owns.only found named

/-- An arrival gives no verdict and keeps the differentials. -/
theorem Owns.arrival (owns : Owns clist i qh queue) (j : Nat) :
    (backloggerStep clist (.add j)).2 = [] ∧
      storedDiffs (backloggerStep clist (.add j)).1 = storedDiffs clist ∧
      Owns (backloggerStep clist (.add j)).1 i qh (if i = j then fifoAddPacket queue else queue) := by
  refine ⟨?_, storedDiffs_onQueue _ _ _, owns.moved (fun _ => rfl) j⟩
  show (onCommodity (onQueue fun queue => (fifoAddPacket queue, [])) j clist).2 = []
  rw [verdicts_onQueue]
  split <;> rfl

/-- A release sends from this queue when its position is the target, and leaves it alone otherwise. -/
theorem Owns.release (owns : Owns clist i qh queue) (count : UInt32) :
    storedDiffs (backloggerStep clist (.release count)).1 = storedDiffs clist ∧
      ((∃ d, IsTarget (storedDiffs clist) i d ∧
          accepted qh (backloggerStep clist (.release count)).2 =
            min (releaseCount d count).toNat (shown queue) ∧
          Owns (backloggerStep clist (.release count)).1 i qh
            (sendLoop (releaseCount d count).toNat queue).1) ∨
        (∀ d, ¬IsTarget (storedDiffs clist) i d) ∧
          accepted qh (backloggerStep clist (.release count)).2 = 0 ∧
          Owns (backloggerStep clist (.release count)).1 i qh queue) := by
  simp only [backloggerStep]
  rcases backloggerPacketRelease_target count clist with ⟨zero, nothing⟩ | ⟨j, d, target, sends⟩
  · rw [nothing]
    refine ⟨rfl, .inr ⟨?_, rfl, owns⟩⟩
    intro d target
    have positive := target.positive
    rw [zero d (List.mem_of_getElem? target.at_i)] at positive
    exact absurd positive (UInt32.lt_irrefl 0)
  · rw [sends]
    refine ⟨storedDiffs_onQueue _ _ _, ?_⟩
    have moved := owns.moved (fun queue => (sendLoop_qh (releaseCount d count).toNat queue).1) j
    rw [verdicts_onQueue]
    by_cases here : i = j
    · subst here
      rw [if_pos rfl] at moved
      refine .inl ⟨d, target, ?_, moved⟩
      rw [owns.at_i]
      dsimp only
      rw [accepted_eq_length, (sendLoop_shown _ _).1]
      intro v member
      have sent := sendLoop_accepts _ _ v member
      exact ⟨sent.1.trans owns.handle, sent.2⟩
    · rw [if_neg here] at moved
      refine .inr ⟨fun d' other => here (other.unique target).1, ?_, moved⟩
      cases found : queueAt clist j with
      | none => rfl
      | some queue' =>
          apply accepted_eq_zero
          intro v member named
          have sent := (sendLoop_accepts _ _ v member).1
          exact here (owns.only found (sent.symm.trans named)).symm

end

/-! ### Periods -/

theorem backloggerRun_append : ∀ (ops more : List BackloggerOp) (clist : List Commodity),
    backloggerRun clist (ops ++ more) =
      ((backloggerRun (backloggerRun clist ops).1 more).1,
        (backloggerRun clist ops).2 ++ (backloggerRun (backloggerRun clist ops).1 more).2)
  | [], _, _ => rfl
  | op :: ops, more, clist => by
      rw [List.cons_append, backloggerRun, backloggerRun_append ops more, backloggerRun]
      simp only [List.append_assoc]

theorem requested_append (d : UInt32) : ∀ ops more : List BackloggerOp,
    requested d (ops ++ more) = requested d ops + requested d more
  | [], more => (Nat.zero_add _).symm
  | op :: ops, more => by
      cases op with
      | release count =>
          rw [List.cons_append, requested, requested, requested_append d ops more, Nat.add_assoc]
      | add j => exact requested_append d ops more
      | send j => exact requested_append d ops more
      | drop j => exact requested_append d ops more
      | delete j => exact requested_append d ops more

/-- Induction over a period, for one queue: what holds at its end and is carried backwards over an
    arrival and over a release holds at its start. -/
theorem period_induction {i : Nat} {qh : QueueHandle} {diffs : List UInt32}
    {motive : List BackloggerOp → Fifo → List Commodity → Prop}
    (done : ∀ {clist queue}, Owns clist i qh queue → storedDiffs clist = diffs →
      motive [] queue clist)
    (arrival : ∀ {clist queue j ops}, Owns clist i qh queue → storedDiffs clist = diffs →
      (backloggerStep clist (.add j)).2 = [] →
      motive ops (if i = j then fifoAddPacket queue else queue) (backloggerStep clist (.add j)).1 →
        motive (.add j :: ops) queue clist)
    (target : ∀ {clist queue d count ops}, Owns clist i qh queue → storedDiffs clist = diffs →
      IsTarget diffs i d →
      accepted qh (backloggerStep clist (.release count)).2 =
        min (releaseCount d count).toNat (shown queue) →
      motive ops (sendLoop (releaseCount d count).toNat queue).1
        (backloggerStep clist (.release count)).1 → motive (.release count :: ops) queue clist)
    (other : ∀ {clist queue count ops}, Owns clist i qh queue → storedDiffs clist = diffs →
      (∀ d, ¬IsTarget diffs i d) →
      accepted qh (backloggerStep clist (.release count)).2 = 0 →
      motive ops queue (backloggerStep clist (.release count)).1 →
        motive (.release count :: ops) queue clist) :
    ∀ {ops : List BackloggerOp} {clist : List Commodity} {queue : Fifo}, (∀ op ∈ ops, PeriodOp op) →
      Owns clist i qh queue → storedDiffs clist = diffs → motive ops queue clist
  | [], _, _, _, owns, same => done owns same
  | .add j :: ops, clist, queue, period, owns, same => by
      obtain ⟨quiet, diffs', owns'⟩ := owns.arrival j
      exact arrival owns same quiet (period_induction done arrival target other
        (fun op member => period op (List.mem_cons_of_mem _ member)) owns' (diffs'.trans same))
  | .release count :: ops, clist, queue, period, owns, same => by
      have period' : ∀ op ∈ ops, PeriodOp op :=
        fun op member => period op (List.mem_cons_of_mem _ member)
      obtain ⟨diffs', ⟨d, isTarget, sent, owns'⟩ | ⟨isOther, none_, owns'⟩⟩ := owns.release count
      · exact target owns same (same ▸ isTarget) sent
          (period_induction done arrival target other period' owns' (diffs'.trans same))
      · exact other owns same (same ▸ isOther) none_
          (period_induction done arrival target other period' owns' (diffs'.trans same))
  | .send _ :: _, _, _, period, _, _ => absurd (period _ (List.mem_cons_self ..)) id
  | .drop _ :: _, _, _, period, _, _ => absurd (period _ (List.mem_cons_self ..)) id
  | .delete _ :: _, _, _, period, _, _ => absurd (period _ (List.mem_cons_self ..)) id

section

variable {ops : List BackloggerOp} {clist : List Commodity} {i : Nat} {qh : QueueHandle}
  {queue : Fifo} {d : UInt32}

theorem accepted_step (op : BackloggerOp) (ops : List BackloggerOp) (clist : List Commodity)
    (qh : QueueHandle) :
    accepted qh (backloggerRun clist (op :: ops)).2 =
      accepted qh (backloggerStep clist op).2 +
        accepted qh (backloggerRun (backloggerStep clist op).1 ops).2 := by
  rw [backloggerRun, accepted_append]

theorem accepted_quiet {op : BackloggerOp} (quiet : (backloggerStep clist op).2 = []) :
    accepted qh (backloggerRun clist (op :: ops)).2 =
      accepted qh (backloggerRun (backloggerStep clist op).1 ops).2 := by
  rw [accepted_step, quiet]
  exact Nat.zero_add _

/-- A commodity that is not the target loses no packet in a period. -/
theorem period_accepted_other (period : ∀ op ∈ ops, PeriodOp op) (owns : Owns clist i qh queue)
    (other : ∀ d, ¬IsTarget (storedDiffs clist) i d) :
    accepted qh (backloggerRun clist ops).2 = 0 := by
  refine period_induction (motive := fun ops _ clist => accepted qh (backloggerRun clist ops).2 = 0)
    ?_ ?_ ?_ ?_ period owns rfl
  · intros
    rfl
  · intro clist queue j ops _ _ quiet rest
    rw [accepted_quiet quiet, rest]
  · intro _ _ d _ _ _ _ target _ _
    exact absurd target (other d)
  · intro clist queue count ops _ _ _ none_ rest
    rw [accepted_step, none_, rest]

/-- The target loses at most what the period asks for. -/
theorem period_accepted_le (period : ∀ op ∈ ops, PeriodOp op) (owns : Owns clist i qh queue)
    (target : IsTarget (storedDiffs clist) i d) :
    accepted qh (backloggerRun clist ops).2 ≤ requested d ops := by
  refine period_induction
    (motive := fun ops _ clist => accepted qh (backloggerRun clist ops).2 ≤ requested d ops)
    ?_ ?_ ?_ ?_ period owns rfl
  · intros
    exact Nat.le_refl 0
  · intro clist queue j ops _ _ quiet rest
    rw [accepted_quiet quiet]
    exact rest
  · intro clist queue d' count ops _ _ target' sent rest
    obtain rfl := (target.unique target').2
    rw [accepted_step, sent, requested]
    exact Nat.add_le_add (Nat.min_le_left _ _) rest
  · intro _ _ _ _ _ _ other
    exact absurd target (other d)

/-- A period keeps the queue in its place and the stored differentials. -/
theorem period_owns (period : ∀ op ∈ ops, PeriodOp op) (owns : Owns clist i qh queue) :
    ∃ queue', Owns (backloggerRun clist ops).1 i qh queue' ∧
      storedDiffs (backloggerRun clist ops).1 = storedDiffs clist := by
  refine period_induction
    (motive := fun ops _ clist₁ => ∃ queue', Owns (backloggerRun clist₁ ops).1 i qh queue' ∧
      storedDiffs (backloggerRun clist₁ ops).1 = storedDiffs clist) ?_ ?_ ?_ ?_ period owns rfl
  · exact fun owns same => ⟨_, owns, same⟩
  · exact fun _ _ _ rest => rest
  · exact fun _ _ _ _ rest => rest
  · exact fun _ _ _ _ rest => rest

/-- Without an arrival a queue loses at most the packets it shows. -/
theorem period_accepted_le_shown (period : ∀ op ∈ ops, PeriodOp op) (owns : Owns clist i qh queue)
    (noArrival : ∀ op ∈ ops, op ≠ .add i) :
    accepted qh (backloggerRun clist ops).2 ≤ shown queue := by
  refine period_induction (motive := fun ops queue clist => (∀ op ∈ ops, op ≠ .add i) →
    accepted qh (backloggerRun clist ops).2 ≤ shown queue) ?_ ?_ ?_ ?_ period owns rfl noArrival
  · intro clist queue _ _ _
    exact Nat.zero_le _
  · intro clist queue j ops _ _ quiet rest noArrival
    have elsewhere : ¬i = j := fun here =>
      noArrival _ (List.mem_cons_self ..) (here ▸ rfl)
    rw [if_neg elsewhere] at rest
    rw [accepted_quiet quiet]
    exact rest fun op member => noArrival op (List.mem_cons_of_mem _ member)
  · intro clist queue d count ops _ _ _ sent rest noArrival
    have later := rest fun op member => noArrival op (List.mem_cons_of_mem _ member)
    rw [(sendLoop_shown _ _).2] at later
    rw [accepted_step, sent]
    omega
  · intro clist queue count ops _ _ _ none_ rest noArrival
    have later := rest fun op member => noArrival op (List.mem_cons_of_mem _ member)
    rw [accepted_step, none_]
    omega

/-- Counters that have not wrapped. -/
def Ordered (queue : Fifo) : Prop := queue.head.toNat ≤ queue.tail.toNat

theorem fifoAddPacket_shown (ordered : Ordered queue) (noWrap : queue.tail.toNat + 1 < 2 ^ 32) :
    (fifoAddPacket queue).tail.toNat = queue.tail.toNat + 1 ∧ Ordered (fifoAddPacket queue) ∧
      shown (fifoAddPacket queue) = shown queue + 1 := by
  have tail : (fifoAddPacket queue).tail.toNat = queue.tail.toNat + 1 := by
    show (queue.tail + 1).toNat = _
    rw [UInt32.toNat_add]
    exact Nat.mod_eq_of_lt noWrap
  have head : (fifoAddPacket queue).head = queue.head := rfl
  unfold Ordered at ordered
  unfold Ordered shown
  rw [tail, head]
  omega

theorem sendLoop_ordered : ∀ (count : Nat) {queue : Fifo}, Ordered queue →
    (sendLoop count queue).1.tail = queue.tail ∧ Ordered (sendLoop count queue).1
  | 0, queue, ordered => ⟨rfl, ordered⟩
  | count + 1, queue, ordered => by
      have sent : (fifoSendPacket queue).1.tail = queue.tail ∧ Ordered (fifoSendPacket queue).1 := by
        unfold fifoSendPacket fifoVerdict
        split
        · rename_i guard
          have below := UInt32.lt_iff_toNat_lt.mp guard
          refine ⟨rfl, ?_⟩
          show (queue.head + 1).toNat ≤ queue.tail.toNat
          rw [fifo_head_succ guard]
          exact below
        · exact ⟨rfl, ordered⟩
      obtain ⟨tail, later⟩ := sendLoop_ordered count sent.2
      exact ⟨tail.trans sent.1, later⟩

/-- While the tail does not wrap, a queue loses what the period asks for, as far as the packets reach
    that it showed at the start. -/
theorem period_accepted_ge (period : ∀ op ∈ ops, PeriodOp op) (owns : Owns clist i qh queue)
    (target : IsTarget (storedDiffs clist) i d) (ordered : Ordered queue)
    (noWrap : queue.tail.toNat + arrivalsAt i ops < 2 ^ 32) :
    min (requested d ops) (shown queue) ≤ accepted qh (backloggerRun clist ops).2 := by
  refine period_induction (motive := fun ops queue clist => Ordered queue →
    queue.tail.toNat + arrivalsAt i ops < 2 ^ 32 →
    min (requested d ops) (shown queue) ≤ accepted qh (backloggerRun clist ops).2)
    ?_ ?_ ?_ ?_ period owns rfl ordered noWrap
  · intro _ _ _ _ _ _
    exact Nat.min_le_left _ _
  · intro clist queue j ops _ _ quiet rest ordered noWrap
    rw [arrivalsAt] at noWrap
    rw [accepted_quiet quiet]
    show min (requested d ops) (shown queue) ≤ _
    by_cases here : i = j
    · subst here
      rw [if_pos rfl] at rest noWrap
      obtain ⟨tail, ordered', shown'⟩ := fifoAddPacket_shown ordered (by omega)
      have later := rest ordered' (by rw [tail]; omega)
      rw [shown'] at later
      omega
    · rw [if_neg here] at rest noWrap
      exact rest ordered (by omega)
  · intro clist queue d' count ops _ _ target' sent rest ordered noWrap
    obtain rfl := (target.unique target').2
    obtain ⟨tail, ordered'⟩ := sendLoop_ordered (releaseCount d count).toNat ordered
    have later := rest ordered' (by rw [tail]; exact noWrap)
    rw [(sendLoop_shown _ _).2] at later
    rw [accepted_step, sent, requested]
    omega
  · intro _ _ _ _ _ _ other
    exact absurd target (other d)

/-- While the tail does not wrap, every packet that arrived was accepted or is still shown. -/
theorem period_shown (period : ∀ op ∈ ops, PeriodOp op) (owns : Owns clist i qh queue)
    (ordered : Ordered queue) (noWrap : queue.tail.toNat + arrivalsAt i ops < 2 ^ 32)
    {queue' : Fifo} (after : queueAt (backloggerRun clist ops).1 i = some queue') :
    accepted qh (backloggerRun clist ops).2 + shown queue' = shown queue + arrivalsAt i ops := by
  refine period_induction
    (motive := fun ops queue clist => Ordered queue →
      queue.tail.toNat + arrivalsAt i ops < 2 ^ 32 →
      queueAt (backloggerRun clist ops).1 i = some queue' →
      accepted qh (backloggerRun clist ops).2 + shown queue' = shown queue + arrivalsAt i ops)
    ?_ ?_ ?_ ?_ period owns rfl ordered noWrap after
  · intro clist queue owns _ _ _ after
    obtain rfl := Option.some.inj (owns.at_i.symm.trans after)
    exact Nat.add_comm 0 _
  · intro clist queue j ops _ _ quiet rest ordered noWrap after
    rw [arrivalsAt] at noWrap
    rw [accepted_quiet quiet, arrivalsAt]
    by_cases here : i = j
    · subst here
      rw [if_pos rfl] at rest noWrap ⊢
      obtain ⟨tail, ordered', shown'⟩ := fifoAddPacket_shown ordered (by omega)
      rw [rest ordered' (by rw [tail]; omega) after, shown']
      omega
    · rw [if_neg here] at rest noWrap ⊢
      rw [Nat.zero_add] at noWrap ⊢
      exact rest ordered noWrap after
  · intro clist queue d count ops _ _ _ sent rest ordered noWrap after
    obtain ⟨tail, ordered'⟩ := sendLoop_ordered (releaseCount d count).toNat ordered
    have total := rest ordered' (by rw [tail]; exact noWrap) after
    rw [(sendLoop_shown _ _).2] at total
    rw [accepted_step, sent]
    show _ = shown queue + arrivalsAt i ops
    omega
  · intro clist queue count ops _ _ _ none_ rest ordered noWrap after
    rw [accepted_step, none_, Nat.zero_add]
    exact rest ordered noWrap after

end

end Bprd
