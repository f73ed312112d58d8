import Fibers.Machine.Run

/-!
# What an iteration does

An iteration of a fiber is decided by what the fiber holds and by whether its
interruption is pending; the rest of the world matters only for what comes of it.
A `Plan` is that decision: either the interpreter goes on by itself, or it calls
code of the program, or it asks the runtime for something.  `Plan.callback?` is the code
that an iteration calls on behalf of its fiber.  What a fiber has left to be done when its
wait is interrupted is called by whoever interrupts it, in an iteration of that fiber.

## Main definitions

* `World.pending` — the cancellation that waits for a fiber, if there is one.
* `Plan`, `Step.plan` — what an iteration is going to do.
* `Callback`, `Plan.callback?` — the code of the program that it calls.
* `World.carryOut` — what comes of a plan.

## Main results

* `RunState.planValue_cases`, `RunState.planHalt_cases` — what can be planned for an outcome.
* `World.iterate_eq_carryOut` — an iteration is its plan, carried out.
-/

namespace Fibers

/-! ### Pending cancellations -/

namespace World

/-- The fiber that asked first for the interruption of a fiber, if any has. -/
def pending (w : World) (fiber : FiberId) : Option FiberId :=
  if w.store.isInterrupted fiber then some (w.store.interruptor fiber) else none

end World

namespace Step

/-- Whether a pending cancellation takes the place of a step. -/
def givesWay : Step → Bool
  | .eval _ => true
  | .value _ => true
  | .halt _ => false
  | .attempt _ _ => false

/-- Whether a step ends what the fiber was doing, by a value or by a failure. -/
def isOutcome : Step → Bool
  | .eval _ => false
  | .value _ => true
  | .halt _ => true
  | .attempt _ _ => false

@[simp] theorem isOutcome_ofOutcome (o : Outcome) : (ofOutcome o).isOutcome = true := by
  cases o <;> rfl

theorem isOutcome_iff {step : Step} : step.isOutcome = true ↔ ∃ o, step = .ofOutcome o := by
  constructor
  · intro h
    cases step with
    | value v => exact ⟨.done v, rfl⟩
    | halt failure => exact ⟨.halt failure, rfl⟩
    | eval i => simp [isOutcome] at h
    | attempt cell f => simp [isOutcome] at h
  · rintro ⟨o, rfl⟩
    exact isOutcome_ofOutcome o

end Step

namespace World

theorem divert_eq (w : World) (fiber : FiberId) (run : RunState) (step : Step) :
    w.divert fiber run step =
      if step.givesWay && w.mustStop fiber run then .interrupt (w.store.interruptor fiber)
      else step := by
  cases step <;> simp [divert, Step.givesWay]

end World

/-! ### Plans -/

/-- The failure of a fiber that must stop, past a fold that may not handle it. -/
def Halt.pastFold (sameError : Bool) (source : FiberId) (h : Halt Failure) : Halt Failure :=
  let h := if sameError then h
    else h.discard "typed failure discarded: its handler was skipped by interruption"
  if h.cause.isInterrupted then h
  else { h with cause := h.cause.alongside (.interrupt source) }

/-- What an iteration is going to do; `run` is the rest of the fiber after it. -/
inductive Plan where
  /-- Go on without calling any code of the program. -/
  | proceed (run : RunState) (step : Step)
  /-- End the fiber. -/
  | finish (outcome : Outcome)
  /-- Let code of the program build the instruction that follows. -/
  | build (run : RunState) (code : Action Instruction)
  /-- Let code of the program translate the failures of a halt. -/
  | translate (run : RunState) (code : Action (Halt Failure))
  /-- Let code of the program compute the outcome. -/
  | compute (run : RunState) (code : Action Outcome)
  /-- Let code of the program update a cell. -/
  | update (run : RunState) (cell : CellId) (f : Value → Action (Update Value))
  /-- Release what has been acquired. -/
  | release (run : RunState) (release : ReleaseId) (exit : Exit Value Value)
  /-- Release what has been leased, once. -/
  | releaseLease (run : RunState) (lease : LeaseId) (exit : Exit Value Value)
  /-- Pair an acquired value with its release. -/
  | reserve (run : RunState) (v : Value) (release : Release)
  /-- Start a fiber. -/
  | fork (run : RunState) (child : Instruction) (daemon : Bool)
  /-- Request the interruption of a fiber. -/
  | signal (run : RunState) (target : FiberId)
  /-- Wait. -/
  | wait (run : RunState) (registration : Registration)
  /-- Let other fibers go first. -/
  | makeWay (run : RunState)

/-- A piece of code of the program. -/
inductive Callback where
  /-- A continuation, a handler, or any other code that builds an instruction. -/
  | build (code : Action Instruction)
  /-- The mapping of failures. -/
  | translate (code : Action (Halt Failure))
  /-- Synchronous code. -/
  | compute (code : Action Outcome)
  /-- The update function of a cell. -/
  | update (f : Value → Action (Update Value))
  /-- The registration of a wait. -/
  | register (f : SuspensionId → Action (Action Unit))
  /-- The code of a release. -/
  | release (release : ReleaseId)
  /-- The code of a leased release. -/
  | releaseLease (lease : LeaseId)

namespace Plan

/-- The code of the program that a plan calls. -/
def callback? : Plan → Option Callback
  | .proceed _ _ => none
  | .finish _ => none
  | .build _ code => some (.build code)
  | .translate _ code => some (.translate code)
  | .compute _ code => some (.compute code)
  | .update _ _ f => some (.update f)
  | .release _ id _ => some (.release id)
  | .releaseLease _ lease _ => some (.releaseLease lease)
  | .reserve .. => none
  | .fork .. => none
  | .signal _ _ => none
  | .wait _ (.callback f) => some (.register f)
  | .wait _ _ => none
  | .makeWay _ => none

/-- The rest of the fiber after a plan, unless the plan is its end. -/
def rest? : Plan → Option RunState
  | .proceed run _ => some run
  | .finish _ => none
  | .build run _ => some run
  | .translate run _ => some run
  | .compute run _ => some run
  | .update run _ _ => some run
  | .release run _ _ => some run
  | .releaseLease run _ _ => some run
  | .reserve run _ _ => some run
  | .fork run _ _ => some run
  | .signal run _ => some run
  | .wait run _ => some run
  | .makeWay run => some run

end Plan

namespace RunState

/-- The pending cancellation for which the fiber must stop, if there is one and the fiber
allows it. -/
def stopsFor (run : RunState) (pending : Option FiberId) : Option FiberId :=
  if run.interruptible then pending else none

/-- The plan for a value. -/
def planValue (run : RunState) (v : Value) : Plan :=
  match run.stack with
  | [] => .finish (.done v)
  | .chain next :: stack => .build { run with stack } (next v)
  | .fold _ onDone _ :: stack => .build { run with stack } (onDone v)
  | .mapError _ _ _ :: stack => .proceed { run with stack } (.value v)
  | .popEnvironment :: stack => .proceed (leaveEnvironment { run with stack }) (.value v)
  | .popStatus :: stack => .proceed (leaveStatus { run with stack }) (.value v)

/-- The plan for a failure. -/
def planHalt (pending : Option FiberId) (run : RunState) (h : Halt Failure) : Plan :=
  match run.stack with
  | [] => .finish (.halt h)
  | .chain _ :: stack => .proceed { run with stack } (.halt h)
  | .fold onHalt _ sameError :: stack =>
    match run.stopsFor pending with
    | some source => .proceed { run with stack } (.halt (h.pastFold sameError source))
    | none => .build { run with stack } (onHalt h)
  | .mapError source target f :: stack =>
    .translate { run with stack } (h.translate source target f)
  | .popEnvironment :: stack => .proceed (leaveEnvironment { run with stack }) (.halt h)
  | .popStatus :: stack => .proceed (leaveStatus { run with stack }) (.halt h)

/-- What can be planned for a value. -/
theorem planValue_cases (run : RunState) (v : Value) :
    (run.planValue v = .finish (.done v) ∧ run.stack = []) ∨
      (∃ rest code, run.planValue v = .build rest code) ∨
      ∃ rest, run.planValue v = .proceed rest (.value v) := by
  unfold planValue
  cases hstack : run.stack with
  | nil => exact Or.inl ⟨rfl, rfl⟩
  | cons frame stack =>
    refine Or.inr ?_
    -- only a continuation and a fold look at the value; the others let it pass
    cases frame with
    | chain next => exact Or.inl ⟨_, _, rfl⟩
    | fold onHalt onDone sameError => exact Or.inl ⟨_, _, rfl⟩
    | mapError _ _ _ | popEnvironment | popStatus => exact Or.inr ⟨_, rfl⟩

/-- What can be planned for a failure. -/
theorem planHalt_cases (pending : Option FiberId) (run : RunState) (h : Halt Failure) :
    (planHalt pending run h = .finish (.halt h) ∧ run.stack = []) ∨
      (run.stopsFor pending = none ∧ ∃ rest code, planHalt pending run h = .build rest code) ∨
      (∃ rest code, planHalt pending run h = .translate rest code) ∨
      ∃ rest h', planHalt pending run h = .proceed rest (.halt h') := by
  unfold planHalt
  cases hstack : run.stack with
  | nil => exact Or.inl ⟨rfl, rfl⟩
  | cons frame stack =>
    refine Or.inr ?_
    cases frame with
    | fold onHalt onDone sameError =>
      -- the handler is called unless there is a cancellation to stop for
      cases hstop : run.stopsFor pending with
      | none => exact Or.inl ⟨rfl, _, _, rfl⟩
      | some source => exact Or.inr (Or.inr ⟨_, _, rfl⟩)
    | mapError source target f => exact Or.inr (Or.inl ⟨_, _, rfl⟩)
    | chain _ | popEnvironment | popStatus => exact Or.inr (Or.inr ⟨_, _, rfl⟩)

/-- The plan for an instruction. -/
def planEval (fiber : FiberId) (run : RunState) : Instruction → Plan
  | .done outcome => .proceed run (.ofOutcome outcome)
  | .sync action => .compute run action
  | .wait registration => .wait run registration
  | .chain first next => .proceed (run.push (.chain next)) (.eval first)
  | .fold first onHalt onDone sameError =>
    .proceed (run.push (.fold onHalt onDone sameError)) (.eval first)
  | .loop state body => .build (run.push (.chain (Instruction.nextRound body))) (body state)
  | .mapError first source target f =>
    .proceed (run.push (.mapError source target f)) (.eval first)
  | .fork child daemon => .fork run child daemon
  | .suspend next => .build run next
  | .access next => .build run (next run.environment)
  | .provide environment body => .proceed (run.enterEnvironment environment) (.eval body)
  | .setInterruptible allowed body => .proceed (run.enterStatus allowed) (.eval body)
  | .interruptStatus next => .build run (next run.interruptible)
  | .descriptor next => .build run (next fiber)
  | .signal target => .signal run target
  | .yield => .makeWay run
  | .update cell f => .update run cell f
  | .reserve v release => .reserve run v release
  | .release release exit => .release run release exit
  | .releaseLease lease exit => .releaseLease run lease exit

end RunState

/-- What an iteration is going to do about a step that has not given way. -/
def Step.plan (pending : Option FiberId) (fiber : FiberId) (run : RunState) : Step → Plan
  | .eval i => run.planEval fiber i
  | .value v => run.planValue v
  | .halt h => run.planHalt pending h
  | .attempt cell f => .update run cell f

/-! ### Carrying out a plan -/

namespace Step

/-- The step after failures have been translated, or the panic of the code that does so. -/
def ofTranslated : Except Defect (Halt Failure) → Step
  | .ok h => .halt h
  | .error d => .die d

/-- The step after synchronous code, or after its panic. -/
def ofComputed : Except Defect Outcome → Step
  | .ok outcome => .ofOutcome outcome
  | .error d => .die d

/-- The step after an attempt to update a cell. -/
def ofAttempt (cell : CellId) (f : Value → Action (Update Value)) : Attempt → Step
  | .finished v => .value v
  | .panicked d => .die d
  | .overtaken => .attempt cell f

end Step

namespace World

theorem stopsFor_pending (w : World) (fiber : FiberId) (run : RunState) :
    run.stopsFor (w.pending fiber) =
      if w.mustStop fiber run then some (w.store.interruptor fiber) else none := by
  unfold RunState.stopsFor pending mustStop
  cases run.interruptible <;> simp

/-- What comes of a plan. -/
def carryOut (w : World) (fiber : FiberId) : Plan → Progress × World
  | .proceed run step => (some (run, step), w)
  | .finish outcome => (none, w.complete fiber outcome)
  | .build run code => (some (run, .ofBuilt (code.run w).1), (code.run w).2)
  | .translate run code => (some (run, .ofTranslated (code.run w).1), (code.run w).2)
  | .compute run code => (some (run, .ofComputed (code.run w).1), (code.run w).2)
  | .update run cell f =>
    (some (run, .ofAttempt cell f (w.attemptUpdate cell f).1), (w.attemptUpdate cell f).2)
  | .release run release exit =>
    (some (run, .ofBuilt (w.buildRelease release exit).1), (w.buildRelease release exit).2)
  | .releaseLease run lease exit => w.evaluate fiber run (.releaseLease lease exit)
  | .reserve run v release => w.addRelease run v release
  | .fork run child daemon =>
    let (id, w) := w.fork fiber run child daemon
    (some (run, .value (.fiber id)), w)
  | .signal run target => (some (run, .value .unit), w.interrupt target fiber)
  | .wait run registration =>
    match w.park fiber run registration with
    | (some step, w) => (some (run, step), w)
    | (none, w) => (none, w)
  | .makeWay run => (none, w.schedule fiber run (.value .unit))

theorem tryUpdate_eq (w : World) (run : RunState) (cell : CellId)
    (f : Value → Action (Update Value)) :
    w.tryUpdate run cell f =
      (some (run, .ofAttempt cell f (w.attemptUpdate cell f).1), (w.attemptUpdate cell f).2) := by
  unfold tryUpdate
  rcases w.attemptUpdate cell f with ⟨_ | _ | _, w'⟩ <;> rfl

theorem deliver_eq_carryOut (w : World) (fiber : FiberId) (run : RunState) (v : Value) :
    w.deliver fiber run v = w.carryOut fiber (run.planValue v) := by
  obtain ⟨stack, environments, statuses⟩ := run
  cases stack with
  | nil => rfl
  | cons frame stack => cases frame <;> rfl

theorem unwind_eq_carryOut (w : World) (fiber : FiberId) (run : RunState) (h : Halt Failure) :
    w.unwind fiber run h = w.carryOut fiber (run.planHalt (w.pending fiber) h) := by
  obtain ⟨stack, environments, statuses⟩ := run
  cases stack with
  | nil => rfl
  | cons frame stack =>
    cases frame with
    | fold onHalt onDone sameError =>
      -- a fold is passed by exactly if there is a cancellation to stop for
      simp only [RunState.planHalt, stopsFor_pending]
      change (if w.mustStop fiber _ = true then _ else _) = _
      split
      · rfl
      · rfl
    | mapError source target f =>
      -- a panic of the mapping takes the place of the failure
      simp only [unwind, RunState.planHalt, carryOut]
      rcases (h.translate source target f).run w with ⟨_ | _, w'⟩ <;> rfl
    | _ => rfl

theorem evaluate_eq_carryOut (w : World) (fiber : FiberId) (run : RunState) (i : Instruction) :
    w.evaluate fiber run i = w.carryOut fiber (run.planEval fiber i) := by
  cases i with
  | sync action =>
    simp only [evaluate, RunState.planEval, carryOut]
    rcases action.run w with ⟨_ | _, w'⟩ <;> rfl
  | update cell f => exact w.tryUpdate_eq run cell f
  | _ => rfl

/-- **An iteration is its plan, carried out.** -/
theorem iterate_eq_carryOut (w : World) (fiber : FiberId) (run : RunState) (step : Step) :
    w.iterate fiber run step =
      w.carryOut fiber ((w.divert fiber run step).plan (w.pending fiber) fiber run) := by
  unfold iterate
  cases w.divert fiber run step with
  | eval i => exact w.evaluate_eq_carryOut fiber run i
  | value v => exact w.deliver_eq_carryOut fiber run v
  | halt h => exact w.unwind_eq_carryOut fiber run h
  | attempt cell f => exact w.tryUpdate_eq run cell f

end World

end Fibers
