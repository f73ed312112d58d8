import Fibers.Data.Fifo
import Fibers.Instruction

/-!
# The world of a runtime

Beside the store a runtime keeps code: the rest of every fiber that is not
running, and the releases of acquired resources.  The rest of a fiber is
its continuation stack with the environments and interrupt statuses in force.  It
is held in one place at a time: by a task that is ready to run, by the waiting
place at which the fiber is parked, or by whoever is running the fiber.

## Main definitions

* `Frame`, `RunState` — the rest of a fiber.
* `Step` — what a fiber does next.
* `Canceler`, `SuspensionState`, `Suspension` — a place where a fiber waits.
* `Task` — a fiber that is ready to run.
* `World` — all of it together.
-/

namespace Fibers

/-- One entry of a continuation stack. -/
inductive Frame where
  /-- Continue with a value. -/
  | chain (next : Value → Action Instruction)
  /-- Continue with a value or a failure. -/
  | fold (onHalt : Halt Failure → Action Instruction)
      (onDone : Value → Action Instruction) (sameError : Bool)
  /-- Make failures of one type failures of another. -/
  | mapError (source target : ErrorType) (f : Value → Action Value)
  /-- Go back to the environment before. -/
  | popEnvironment
  /-- Go back to the interrupt status before. -/
  | popStatus

/-- The rest of a fiber. -/
structure RunState where
  /-- The continuations, innermost first. -/
  stack : List Frame
  /-- The environments, innermost first. -/
  environments : List Value
  /-- Whether interruption is allowed, innermost region first. -/
  statuses : List Bool
  deriving Inhabited

namespace RunState

/-- The rest of a fiber that has not run yet. -/
def start (environment : Value) (interruptible : Bool) : RunState :=
  ⟨[], [environment], [interruptible]⟩

/-- Whether interruption is allowed. -/
def interruptible (run : RunState) : Bool := run.statuses.headD true

/-- The environment in force. -/
def environment (run : RunState) : Value := run.environments.headD .unit

/-- Adds a continuation. -/
def push (run : RunState) (frame : Frame) : RunState := { run with stack := frame :: run.stack }

/-- Enters a region with another environment. -/
def enterEnvironment (run : RunState) (environment : Value) : RunState :=
  ⟨.popEnvironment :: run.stack, environment :: run.environments, run.statuses⟩

/-- Enters a region with another interrupt status. -/
def enterStatus (run : RunState) (allowed : Bool) : RunState :=
  ⟨.popStatus :: run.stack, run.environments, allowed :: run.statuses⟩

/-- Leaves the innermost environment. -/
def leaveEnvironment (run : RunState) : RunState :=
  { run with environments := run.environments.tail }

/-- Leaves the innermost region of an interrupt status. -/
def leaveStatus (run : RunState) : RunState := { run with statuses := run.statuses.tail }

end RunState

/-- What a fiber does next. -/
inductive Step where
  /-- Carry out an instruction. -/
  | eval (i : Instruction)
  /-- Hand a value to the continuation. -/
  | value (v : Value)
  /-- Unwind with a failure. -/
  | halt (h : Halt Failure)
  /-- Try the update of a cell again. -/
  | attempt (cell : CellId) (f : Value → Action (Update Value))

namespace Step

/-- The step that ends a computation as given. -/
def ofOutcome : Outcome → Step
  | .done v => .value v
  | .halt h => .halt h

/-- Unwind with a defect. -/
def die (d : Defect) : Step := .halt (.of (.die d))

/-- Unwind with a cancellation. -/
def interrupt (source : FiberId) : Step := .halt (.of (.interrupt source))

/-- Carry out what user code has built, or unwind with its panic. -/
def ofBuilt : Except Defect Instruction → Step
  | .ok i => .eval i
  | .error d => .die d

end Step

/-- What is to be done when a wait is interrupted. -/
inductive Canceler where
  /-- Nothing. -/
  | nothing
  /-- Call off an alarm. -/
  | alarm (key : Nat)
  /-- Leave the line of a channel. -/
  | leave (channel : ChannelId) (line : Line) (ticket : Nat)
  /-- Carry out an action. -/
  | action (a : Action Unit)

/-- How far a wait has come. -/
inductive SuspensionState where
  /-- The wait is being registered. -/
  | registering
  /-- The fiber is parked. -/
  | waiting (run : RunState) (onInterrupt : Canceler)
  /-- The wait was completed while it was being registered. -/
  | early (outcome : Outcome)
  /-- The wait is over. -/
  | over

/-- A place where a fiber waits. -/
structure Suspension where
  /-- The fiber. -/
  fiber : FiberId
  /-- Whether the wait can be interrupted. -/
  interruptible : Bool
  /-- What the fiber waits for. -/
  registration : Registration
  /-- How far the wait has come. -/
  state : SuspensionState := .registering

/-- A fiber that is ready to run. -/
structure Task where
  /-- The fiber. -/
  fiber : FiberId
  /-- The rest of it. -/
  run : RunState
  /-- What it does next. -/
  step : Step

/-- Everything a runtime keeps. -/
structure World where
  /-- The data. -/
  store : Store := {}
  /-- The places where fibers wait. -/
  suspensions : Numbered Suspension := {}
  /-- The fibers that are ready to run, in the order in which they became so. -/
  tasks : Fifo Task := .empty
  /-- The releases of acquired resources. -/
  releases : Numbered Release := {}

instance : Inhabited World := ⟨{}⟩

namespace World

/-- The world of a runtime for which the given number of fiber identities were
minted before its first fiber. -/
def init (minted : Nat) : World := { store := .init minted }

/-- A place where a fiber waits. -/
def suspension? (w : World) (s : SuspensionId) : Option Suspension :=
  w.suspensions.get? s.index

/-- Records how far a wait has come. -/
def setSuspension (w : World) (s : SuspensionId) (state : SuspensionState) : World :=
  { w with suspensions := w.suspensions.modify s.index fun p => { p with state } }

/-- Changes what is known of a fiber. -/
def modifyFiber (w : World) (id : FiberId) (f : FiberRecord → FiberRecord) : World :=
  { w with store := w.store.modifyFiber id f }

/-- Makes a fiber ready to run. -/
def schedule (w : World) (fiber : FiberId) (run : RunState) (step : Step) : World :=
  { w with tasks := w.tasks.push ⟨fiber, run, step⟩ }

end World

end Fibers
