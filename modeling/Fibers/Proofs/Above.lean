import Fibers.Proofs.Iteration

/-!
# One fiber state above another

While a fiber evaluates an instruction, what it still has to do grows on top of what it had
to do before: continuations, environments and interrupt statuses are entered and left
together.  `RunState.Above` says so.  It has one constructor for each way of entering, so
leaving undoes the last of them, and the three stacks cannot come apart.

Regions may be limited to some interrupt statuses.  `RunState.Above p` admits those that `p`
allows; for a predicate that holds of both, this is no limit.

## Main definitions

* `RunState.Above` — the state of a fiber above an earlier one.
* `Step.entered?` — the interrupt status of the region that a step enters.

## Main results

* `Step.plan_above` — an iteration above a state stays above it, up to the moment at which
  the state itself is handed an outcome.
* `RunState.Above.interruptible_eq_false` — above an uninterruptible state, where no
  interruptible region has been entered, nothing is interruptible.
-/

namespace Fibers

namespace RunState

/-- `Above p base run` says that `run` comes from `base` by entering continuations,
environments, and regions whose interrupt status `p` allows. -/
inductive Above (p : Bool → Prop) (base : RunState) : RunState → Prop where
  /-- Nothing has been entered. -/
  | base : Above p base base
  /-- A continuation with a value has been entered. -/
  | chain {run : RunState} (next : Value → Action Instruction) :
      Above p base run → Above p base (run.push (.chain next))
  /-- A continuation with a value or a failure has been entered. -/
  | fold {run : RunState} (onHalt : Halt Failure → Action Instruction)
      (onDone : Value → Action Instruction) (sameError : Bool) :
      Above p base run → Above p base (run.push (.fold onHalt onDone sameError))
  /-- A mapping of failures has been entered. -/
  | mapError {run : RunState} (source target : ErrorType) (f : Value → Action Value) :
      Above p base run → Above p base (run.push (.mapError source target f))
  /-- Another environment has been entered. -/
  | environment {run : RunState} (v : Value) :
      Above p base run → Above p base (run.enterEnvironment v)
  /-- A region with an interrupt status of its own has been entered. -/
  | status {run : RunState} (allowed : Bool) :
      p allowed → Above p base run → Above p base (run.enterStatus allowed)

namespace Above

variable {p : Bool → Prop} {base mid run : RunState}

theorem trans (hmid : Above p base mid) (hrun : Above p mid run) : Above p base run := by
  induction hrun with
  | base => exact hmid
  | chain next _ ih => exact ih.chain next
  | fold onHalt onDone sameError _ ih => exact ih.fold onHalt onDone sameError
  | mapError source target f _ ih => exact ih.mapError source target f
  | environment v _ ih => exact ih.environment v
  | status allowed hp _ ih => exact ih.status allowed hp

theorem weaken {q : Bool → Prop} (hpq : ∀ b, p b → q b) (h : Above p base run) :
    Above q base run := by
  induction h with
  | base => exact .base
  | chain next _ ih => exact ih.chain next
  | fold onHalt onDone sameError _ ih => exact ih.fold onHalt onDone sameError
  | mapError source target f _ ih => exact ih.mapError source target f
  | environment v _ ih => exact ih.environment v
  | status allowed hp _ ih => exact ih.status allowed (hpq allowed hp)

/-- A state above another is that state itself, or has more continuations. -/
theorem eq_or_length_lt (h : Above p base run) :
    run = base ∨ base.stack.length < run.stack.length := by
  induction h with
  | base => exact Or.inl rfl
  | chain _ _ ih | fold _ _ _ _ ih | mapError _ _ _ _ ih | environment _ _ ih | status _ _ _ ih =>
    -- every way of entering pushes one entry
    refine Or.inr ?_
    simp only [push, enterEnvironment, enterStatus, List.length_cons]
    rcases ih with rfl | hlt <;> omega

/-- What a state still had to do remains below. -/
theorem suffix (h : Above p base run) : base.stack <:+ run.stack := by
  induction h with
  | base => exact List.suffix_refl _
  | chain _ _ ih | fold _ _ _ _ ih | mapError _ _ _ _ ih | environment _ _ ih | status _ _ _ ih =>
    exact ih.trans (List.suffix_cons _ _)

/-- Of two states above each other's height, the upper one is the lower one. -/
theorem eq_of_length_le (h : Above p base run)
    (hle : run.stack.length ≤ base.stack.length) : run = base := by
  rcases h.eq_or_length_lt with heq | hlt
  · exact heq
  · omega

/-- Above an uninterruptible state, where no interruptible region has been entered, nothing
is interruptible. -/
theorem interruptible_eq_false (h : Above (· = false) base run)
    (hbase : base.interruptible = false) : run.interruptible = false := by
  induction h with
  | base => exact hbase
  -- the last region that was entered decides
  | status allowed hp _ _ => simpa [interruptible, enterStatus] using hp
  | chain _ _ ih | fold _ _ _ _ ih | mapError _ _ _ _ ih | environment _ _ ih => exact ih

end Above

end RunState

/-! ### Iterations above a state -/

/-- The interrupt status of the region that a step enters, if it enters one. -/
def Step.entered? : Step → Option Bool
  | .eval (.setInterruptible allowed _) => some allowed
  | _ => none

section Plans

open RunState

variable {p : Bool → Prop} {base run : RunState} {fiber : FiberId} {pending : Option FiberId}

theorem planEval_above (h : Above p base run) (i : Instruction)
    (henter : ∀ b, (Step.eval i).entered? = some b → p b) :
    ∃ rest, (run.planEval fiber i).rest? = some rest ∧ Above p base rest := by
  cases i with
  | chain first next => exact ⟨_, rfl, h.chain next⟩
  | fold first onHalt onDone sameError => exact ⟨_, rfl, h.fold onHalt onDone sameError⟩
  | loop state body => exact ⟨_, rfl, h.chain (Instruction.nextRound body)⟩
  | mapError first source target f => exact ⟨_, rfl, h.mapError source target f⟩
  | provide environment body => exact ⟨_, rfl, h.environment environment⟩
  | setInterruptible allowed body => exact ⟨_, rfl, h.status allowed (henter allowed rfl)⟩
  -- the other instructions leave the stacks alone
  | _ => exact ⟨run, rfl, h⟩

/-- A value handed to a continuation above a state leaves the last entry. -/
theorem planValue_above (h : Above p base run) (hne : run ≠ base) (v : Value) :
    ∃ rest, (run.planValue v).rest? = some rest ∧ Above p base rest := by
  cases h with
  | base => exact absurd rfl hne
  | chain _ h | fold _ _ _ h | mapError _ _ _ h | environment _ h | status _ _ h =>
    exact ⟨_, rfl, h⟩

/-- A failure that unwinds a continuation above a state leaves the last entry. -/
theorem planHalt_above (h : Above p base run) (hne : run ≠ base) (failure : Halt Failure) :
    ∃ rest, (planHalt pending run failure).rest? = some rest ∧ Above p base rest := by
  cases h with
  | base => exact absurd rfl hne
  | @fold run onHalt onDone sameError h =>
    refine ⟨run, ?_, h⟩
    simp only [planHalt, push]
    split <;> rfl
  | chain _ h | mapError _ _ _ h | environment _ h | status _ _ h => exact ⟨_, rfl, h⟩

/-- **An iteration above a state stays above it**, unless the state itself is handed an
outcome. -/
theorem Step.plan_above (h : Above p base run) {step : Step}
    (hout : run = base → step.isOutcome = false)
    (henter : ∀ b, step.entered? = some b → p b) :
    ∃ rest, (step.plan pending fiber run).rest? = some rest ∧ Above p base rest := by
  -- an outcome above the base is handed to what has been entered last
  have hne : step.isOutcome = true → run ≠ base := by
    intro htrue heq
    rw [hout heq] at htrue
    exact Bool.false_ne_true htrue
  cases step with
  | eval i => exact planEval_above h i henter
  | value v => exact planValue_above h (hne rfl) v
  | halt failure => exact planHalt_above h (hne rfl) failure
  | attempt cell f => exact ⟨run, rfl, h⟩

end Plans

end Fibers
