import Fibers.Proofs.Cancellation
import Fibers.Proofs.Linearity

/-!
# Environments and statuses are left as often as they are entered

Whoever enters an environment, or a region with an interrupt status of its own, leaves an entry on
the continuation stack that is to leave it again.  Values and failures get past these entries one by
one; nothing else takes an entry away, whether the fiber calls code of the program, panics, waits,
is stopped or has to queue.  So the entries and the two stacks never come apart.  What is at the
bottom of the two stacks is what the fiber was started with: something is in force at any time, and
what the fiber was started with is in force again when it ends.

## Main definitions

* `RunState.Balanced` — there is one entry for each environment and status that was entered.
* `RunState.InForce` — the environment and the status in force are the last ones entered.
* `Workshop.Balanced` — so it is in all states of a fiber in the course of a run.

## Main results

* `RunState.Above.balanced` — whoever is above a balanced state is balanced.
* `Workshop.Run.keeps_balance` — **in every run every fiber is balanced.**
-/

namespace Fibers

/-! ### Balanced states -/

/-- Whether the entry leaves an environment. -/
def Frame.leavesEnvironment : Frame → Bool
  | .popEnvironment => true
  | .chain _ | .fold _ _ _ | .mapError _ _ _ | .popStatus => false

/-- Whether the entry leaves an interrupt status. -/
def Frame.leavesStatus : Frame → Bool
  | .popStatus => true
  | .chain _ | .fold _ _ _ | .mapError _ _ _ | .popEnvironment => false

namespace RunState

/-- But for the ones that the fiber was started with, there is one entry on the continuation stack
for each environment and for each interrupt status. -/
structure Balanced (run : RunState) : Prop where
  environments : run.stack.countP Frame.leavesEnvironment + 1 = run.environments.length
  statuses : run.stack.countP Frame.leavesStatus + 1 = run.statuses.length

/-- The environment and the interrupt status in force are the last ones that were entered, and not
what stands in for them where there are none. -/
structure InForce (run : RunState) : Prop where
  environment : run.environments.head? = some run.environment
  status : run.statuses.head? = some run.interruptible

theorem balanced_start (environment : Value) (allowed : Bool) :
    (start environment allowed).Balanced := ⟨rfl, rfl⟩

namespace Balanced

variable {run : RunState}

theorem environments_ne_nil (h : run.Balanced) : run.environments ≠ [] := by
  intro hnil
  have hlength := h.environments
  rw [hnil] at hlength
  cases hlength

theorem statuses_ne_nil (h : run.Balanced) : run.statuses ≠ [] := by
  intro hnil
  have hlength := h.statuses
  rw [hnil] at hlength
  cases hlength

/-- Something is in force at any time. -/
theorem inForce (h : run.Balanced) : run.InForce where
  environment := by
    obtain ⟨v, rest, heq⟩ := List.exists_cons_of_ne_nil h.environments_ne_nil
    rw [RunState.environment, heq]
    rfl
  status := by
    obtain ⟨b, rest, heq⟩ := List.exists_cons_of_ne_nil h.statuses_ne_nil
    rw [interruptible, heq]
    rfl

/-- An entry that leaves nothing. -/
theorem push (h : run.Balanced) {frame : Frame} (henvironment : frame.leavesEnvironment = false)
    (hstatus : frame.leavesStatus = false) : (run.push frame).Balanced where
  environments := by simpa [RunState.push, henvironment] using h.environments
  statuses := by simpa [RunState.push, hstatus] using h.statuses

theorem enterEnvironment (h : run.Balanced) (v : Value) : (run.enterEnvironment v).Balanced where
  environments := by
    simpa [RunState.enterEnvironment, List.countP_cons, Frame.leavesEnvironment] using
      h.environments
  statuses := by simpa [RunState.enterEnvironment, Frame.leavesStatus] using h.statuses

theorem enterStatus (h : run.Balanced) (allowed : Bool) : (run.enterStatus allowed).Balanced where
  environments := by
    simpa [RunState.enterStatus, Frame.leavesEnvironment] using h.environments
  statuses := by
    simpa [RunState.enterStatus, List.countP_cons, Frame.leavesStatus] using h.statuses

end Balanced

/-- **Whoever is above a balanced state is balanced.** -/
theorem Above.balanced {p : Bool → Prop} {base run : RunState} (h : Above p base run)
    (hbase : base.Balanced) : run.Balanced := by
  induction h with
  | base => exact hbase
  | chain _ _ ih | fold _ _ _ _ ih | mapError _ _ _ _ ih => exact ih.push rfl rfl
  | environment v _ ih => exact ih.enterEnvironment v
  | status allowed _ _ ih => exact ih.enterStatus allowed

/-- A fiber that has nothing left to do has what it was started with. -/
theorem Above.eq_start {p : Bool → Prop} {environment : Value} {allowed : Bool} {run : RunState}
    (h : Above p (start environment allowed) run) (hstack : run.stack = []) :
    run = start environment allowed :=
  h.eq_of_length_le (by simp [hstack])

end RunState

/-! ### Runs -/

/-- The rest of the fiber that is held. -/
def Holder.run : Holder → RunState
  | .running slice => slice.run
  | .ready task => task.run
  | .parked _ run => run

namespace Workshop

/-- In the course of a run all states of a fiber are balanced, and what it was started with is what
it has when it ends. -/
structure Balanced (s : Workshop) (record : List (FiberId × Event)) (fiber : FiberId) : Prop where
  /-- Whoever holds the rest of the fiber: running, ready or parked. -/
  held : ∀ holder ∈ s.holders fiber, holder.run.Balanced ∧ holder.run.InForce
  /-- The fiber that does something. -/
  found : ∀ {w run step}, (fiber, Event.iterated w run step) ∈ record →
    run.Balanced ∧ run.InForce
  /-- What is left to do by what it does. -/
  left : ∀ {w run step rest}, (fiber, Event.iterated w run step) ∈ record →
    (step.plan (w.pending fiber) fiber run).rest? = some rest → rest.Balanced ∧ rest.InForce
  /-- Its end, in whichever history. -/
  ended : ∀ {w run step outcome}, (fiber, Event.iterated w run step) ∈ record →
    step.plan (w.pending fiber) fiber run = .finish outcome →
      ∀ {es a}, History s record fiber es a → ∃ environment allowed i,
        es.head? = some (.started environment allowed i) ∧ run = .start environment allowed

variable {budget minted : Nat} {s : Workshop} {record : List (FiberId × Event)} {fiber : FiberId}
  {es : List Event} {a : Standing}

/-- A fiber that does something has been started, and is above its start. -/
theorem History.above_start (h : History s record fiber es a) {w : World} {run : RunState}
    {step : Step} (hmem : (fiber, .iterated w run step) ∈ record) :
    ∃ environment allowed i, es.head? = some (.started environment allowed i) ∧
      RunState.Above (fun _ => True) (.start environment allowed) run := by
  have hdone := (h.mem_iff rfl).mpr hmem
  rcases Life.of_unborn h.life with ⟨rfl, -⟩ | ⟨environment, allowed, i, es', rfl, hcourse, -⟩
  · cases hdone
  · refine ⟨environment, allowed, i, rfl, ?_⟩
    rcases List.mem_cons.mp hdone with heq | hlater
    · cases heq
    · obtain ⟨c, d, hc, hgoes⟩ := hcourse.of_mem hlater
      cases hgoes with
      | iterated _ => exact hc

/-- Whoever holds the rest of a fiber holds it as the fiber stands, above its start. -/
theorem History.balanced_of_mem_holders (h : History s record fiber es a) {holder : Holder}
    (hmem : holder ∈ s.holders fiber) : holder.run.Balanced := by
  have hstanding : holder.standing ∈ a.tokens :=
    holders_of_stands h.stands ▸ List.mem_map_of_mem hmem
  rcases Life.of_unborn h.life with ⟨-, rfl⟩ | ⟨environment, allowed, -, -, -, -, hontop⟩
  · cases hstanding
  · have habove : RunState.Above (fun _ => True) (.start environment allowed) holder.run := by
      cases a with
      | unborn | ended _ => cases hstanding
      | active run step | waiting run =>
        have heq := List.mem_singleton.mp hstanding
        cases holder <;> cases heq <;> exact hontop
    exact habove.balanced (RunState.balanced_start environment allowed)

/-- **In every run every fiber is balanced**, under every schedule and whatever programs do: in every
state in which it runs, is ready or is parked there is one entry on its continuation stack for each
environment and for each interrupt status that it has entered.  So something is in force at any time;
and a fiber ends with the environment and the interrupt status that it was started with, and with
nothing else. -/
theorem Run.keeps_balance (h : Run budget (init minted) record s) (fiber : FiberId) :
    (∃ es a, History s record fiber es a) ∧ Workshop.Balanced s record fiber := by
  obtain ⟨es, a, hhistory⟩ := h.history fiber
  have hfound : ∀ {w run step}, (fiber, Event.iterated w run step) ∈ record → run.Balanced := by
    intro w run step hmem
    obtain ⟨environment, allowed, -, -, habove⟩ := hhistory.above_start hmem
    exact habove.balanced (RunState.balanced_start environment allowed)
  refine ⟨⟨es, a, hhistory⟩, ⟨fun holder hmem => ?_, fun hmem => ?_, fun hmem hrest => ?_,
    fun hmem hplan es' a' hhistory' => ?_⟩⟩
  · have hbalanced := hhistory.balanced_of_mem_holders hmem
    exact ⟨hbalanced, hbalanced.inForce⟩
  · exact ⟨hfound hmem, (hfound hmem).inForce⟩
  · obtain ⟨environment, allowed, -, -, habove⟩ := hhistory.above_start hmem
    -- what is planned stays above the start, or is the end
    rcases Step.plan_onTop rfl habove with ⟨outcome, hplan⟩ | ⟨rest', hrest', habove'⟩
    · rw [hplan] at hrest
      cases hrest
    · obtain rfl := Option.some.inj (hrest'.symm.trans hrest)
      have hbalanced := habove'.balanced (RunState.balanced_start environment allowed)
      exact ⟨hbalanced, hbalanced.inForce⟩
  · obtain ⟨environment, allowed, i, hhead, habove⟩ := hhistory'.above_start hmem
    exact ⟨environment, allowed, i, hhead, habove.eq_start (Step.of_plan_finish hplan).2⟩

/-- A wait in another environment, inside of a region in which interruption is not allowed. -/
def secludedWait : Instruction := .provide (.bool true) (.setInterruptible false patientWait)

/-- A fiber that is parked inside of an environment and a region has two entries to leave; when the
wait is over it leaves both, and ends as it was started. -/
theorem Run.keeps_balance_secludedWait :
    (∃ s record, Run 8 (init 0) record s ∧
      s.holders ⟨1⟩ = [.parked ⟨0⟩
        ⟨[.popStatus, .popEnvironment], [.bool true, .unit], [false, true]⟩] ∧
      Workshop.Balanced s record ⟨1⟩) ∧
    ∃ s record, Run 8 (init 0) record s ∧
      (∃ w run step, (⟨1⟩, .iterated w run step) ∈ record ∧
        step.plan (w.pending ⟨1⟩) ⟨1⟩ run = .finish (.done .unit) ∧ run = .start .unit true) ∧
      Workshop.Balanced s record ⟨1⟩ := by
  have hparked : Run 8 (init 0) _ _ :=
    .move (.start secludedWait .unit none) <|
    .move (.pick_first rfl) <|
    .move (.advance_one _ _ _) <|
    .move (.advance_one _ _ _) <|
    .move (.advance_one _ _ _) .rest
  have hended : Run 8 (init 0) _ _ :=
    .move (.start secludedWait .unit none) <|
    .move (.pick_first rfl) <|
    .move (.advance_one _ _ _) <|
    .move (.advance_one _ _ _) <|
    .move (.advance_one _ _ _) <|
    .move (.act (Action.complete ⟨0⟩ (.done .unit))) <|
    .move (.pick_first rfl) <|
    .move (.advance_one _ _ _) <|
    .move (.advance_one _ _ _) <|
    .move (.advance_one _ _ _) .rest
  exact ⟨⟨_, _, hparked, rfl, (Run.keeps_balance hparked ⟨1⟩).2⟩,
    _, _, hended, ⟨_, _, _, List.mem_of_getElem? (i := 5) rfl, rfl, rfl⟩,
    (Run.keeps_balance hended ⟨1⟩).2⟩

end Workshop

end Fibers
