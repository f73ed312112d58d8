import Fibers.Machine.Releasing
import Fibers.Machine.Update
import Fibers.Machine.Waiting

/-!
# The interpreter

One iteration takes a running fiber from one step to the next.  A value goes to
the innermost continuation, a failure unwinds the stack up to the innermost fold,
and an instruction is broken up, with a frame on the stack for what is to follow.
Code of the program is called in actions, and a panic in it becomes a defect.

Before a value or an instruction is looked at, a fiber whose interruption has
been requested and that allows it drops what it was about to do and unwinds with
a cancellation.  While it unwinds with interruption allowed no fold may handle
the failure: recovery cannot swallow a cancellation.  Regions in which
interruption is not allowed see nothing of this.

## Main definitions

* `World.deliver`, `World.unwind`, `World.evaluate`, `World.tryUpdate` — the
  iteration for each kind of step.
* `World.divert` — the step of a fiber whose interruption has been requested.
* `World.iterate` — one iteration: how the fiber goes on, if it goes on at once.
-/

namespace Fibers

/-- How a fiber goes on at once, if it does: the rest of it and its next step. -/
abbrev Progress := Option (RunState × Step)

namespace World

/-- Goes on with what an action builds. -/
def build (w : World) (run : RunState) (action : Action Instruction) : Progress × World :=
  let (built, w) := action.run w
  (some (run, .ofBuilt built), w)

/-! ### Values -/

/-- Hands a value to the innermost continuation. -/
def deliver (w : World) (fiber : FiberId) (run : RunState) (v : Value) : Progress × World :=
  match run.stack with
  | [] => (none, w.complete fiber (.done v))
  | frame :: stack =>
    let run := { run with stack }
    match frame with
    | .chain next => w.build run (next v)
    | .fold _ onDone _ => w.build run (onDone v)
    | .mapError _ _ _ => (some (run, .value v), w)
    | .popEnvironment => (some (run.leaveEnvironment, .value v), w)
    | .popStatus => (some (run.leaveStatus, .value v), w)

/-! ### Failures -/

/-- Whether a fiber whose interruption has been requested allows it. -/
def mustStop (w : World) (fiber : FiberId) (run : RunState) : Bool :=
  run.interruptible && w.store.isInterrupted fiber

/-- The failure of a fiber that must stop, past a fold that may not handle it.
Failures that the fold would have replaced by others of another type cannot be
held any longer, and the cancellation is recorded if it is not there yet. -/
def skipFold (w : World) (fiber : FiberId) (sameError : Bool) (h : Halt Failure) :
    Halt Failure :=
  let h := if sameError then h
    else h.discard "typed failure discarded: its handler was skipped by interruption"
  if h.cause.isInterrupted then h
  else { h with cause := h.cause.alongside (.interrupt (w.store.interruptor fiber)) }

/-- Unwinds the innermost continuation. -/
def unwind (w : World) (fiber : FiberId) (run : RunState) (h : Halt Failure) :
    Progress × World :=
  match run.stack with
  | [] => (none, w.complete fiber (.halt h))
  | frame :: stack =>
    let rest := { run with stack }
    match frame with
    | .chain _ => (some (rest, .halt h), w)
    | .fold onHalt _ sameError =>
      if w.mustStop fiber run then (some (rest, .halt (w.skipFold fiber sameError h)), w)
      else w.build rest (onHalt h)
    | .mapError source target f =>
      match (h.translate source target f).run w with
      | (.ok h, w) => (some (rest, .halt h), w)
      | (.error d, w) => (some (rest, .die d), w)
    | .popEnvironment => (some (rest.leaveEnvironment, .halt h), w)
    | .popStatus => (some (rest.leaveStatus, .halt h), w)

/-! ### Instructions -/

/-- Lets a fiber remember a child. -/
def addChild (w : World) (parent child : FiberId) : World :=
  w.modifyFiber parent fun f => { f with children := w.store.withChild f.children child }

/-- Starts a fiber that runs `child` in the environment and with the interrupt
status of `run`. -/
def fork (w : World) (parent : FiberId) (run : RunState) (child : Instruction)
    (daemon : Bool) : FiberId × World :=
  let id := w.store.nextFiber
  let w := { w with store := { w.store with fibers := w.store.fibers.push {} } }
  let w := if daemon then w else w.addChild parent id
  (id, w.schedule id (.start run.environment run.interruptible) (.eval child))

/-- One attempt to update a cell, and the next one if it has been overtaken. -/
def tryUpdate (w : World) (run : RunState) (cell : CellId)
    (f : Value → Action (Update Value)) : Progress × World :=
  let (attempt, w) := w.attemptUpdate cell f
  match attempt with
  | .finished v => (some (run, .value v), w)
  | .panicked d => (some (run, .die d), w)
  | .overtaken => (some (run, .attempt cell f), w)

/-- Pairs an acquired value with its release. -/
def addRelease (w : World) (run : RunState) (v : Value) (release : Release) :
    Progress × World :=
  (some (run, .value (.reservation v ⟨w.releases.next⟩)),
    { w with releases := w.releases.push release })

/-- Carries out a release for an exit. -/
def startRelease (w : World) (run : RunState) (release : ReleaseId)
    (exit : Exit Value Value) : Progress × World :=
  let (built, w) := w.buildRelease release exit
  (some (run, .ofBuilt built), w)

/-- Breaks up an instruction. -/
def evaluate (w : World) (fiber : FiberId) (run : RunState) : Instruction → Progress × World
  | .done outcome => (some (run, .ofOutcome outcome), w)
  | .sync action =>
    match action.run w with
    | (.ok outcome, w) => (some (run, .ofOutcome outcome), w)
    | (.error d, w) => (some (run, .die d), w)
  | .wait registration =>
    match w.park fiber run registration with
    | (some step, w) => (some (run, step), w)
    | (none, w) => (none, w)
  | .chain first next => (some (run.push (.chain next), .eval first), w)
  | .fold first onHalt onDone sameError =>
    (some (run.push (.fold onHalt onDone sameError), .eval first), w)
  | .loop state body => w.build (run.push (.chain (Instruction.nextRound body))) (body state)
  | .mapError first source target f =>
    (some (run.push (.mapError source target f), .eval first), w)
  | .fork child daemon =>
    let (id, w) := w.fork fiber run child daemon
    (some (run, .value (.fiber id)), w)
  | .suspend next => w.build run next
  | .access next => w.build run (next run.environment)
  | .provide environment body => (some (run.enterEnvironment environment, .eval body), w)
  | .setInterruptible allowed body => (some (run.enterStatus allowed, .eval body), w)
  | .interruptStatus next => w.build run (next run.interruptible)
  | .descriptor next => w.build run (next fiber)
  | .signal target => (some (run, .value .unit), w.interrupt target fiber)
  | .yield => (none, w.schedule fiber run (.value .unit))
  | .update cell f => w.tryUpdate run cell f
  | .reserve v release => w.addRelease run v release
  | .release release exit => w.startRelease run release exit
  | .releaseLease lease exit =>
    match w.store.lease? lease with
    | none => (some (run, .value .unit), w)
    | some l =>
      if l.released then (some (run, .value .unit), w)
      else
        let leases := w.store.leases.modify lease.index fun l => { l with released := true }
        { w with store := { w.store with leases } }.startRelease run l.release exit

/-! ### One iteration -/

/-- The step of a fiber that must stop: what it was about to do is dropped, unless
it is unwinding already or in the middle of an update. -/
def divert (w : World) (fiber : FiberId) (run : RunState) (step : Step) : Step :=
  match step with
  | .halt h => .halt h
  | .attempt cell f => .attempt cell f
  | step => if w.mustStop fiber run then .interrupt (w.store.interruptor fiber) else step

/-- One iteration of a running fiber: the rest of it and its next step, or `none`
where it has finished, is parked or has made way for others. -/
def iterate (w : World) (fiber : FiberId) (run : RunState) (step : Step) : Progress × World :=
  match w.divert fiber run step with
  | .eval i => w.evaluate fiber run i
  | .value v => w.deliver fiber run v
  | .halt h => w.unwind fiber run h
  | .attempt cell f => w.tryUpdate run cell f

end World

end Fibers
