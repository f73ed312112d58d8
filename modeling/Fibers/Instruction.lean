import Fibers.Action

/-!
# Instructions

The closed set of instructions that a fiber carries out.  An instruction
describes a whole computation: where it continues with the result of another
one, it holds the action that builds the continuation.  Everything a program can
do is put together from these, so the interpreter has one case for each.

## Main definitions

* `Registration` — the reasons for which a fiber can wait.
* `Halt.translate` — failures of one type made failures of another.
* `Instruction` — the instructions.
* `Release` — the ways to release what an instruction has acquired.
* `Instruction.nextRound` — how a loop goes on.
-/

namespace Fibers

/-- A reason to wait, and what will end the wait. -/
inductive Registration where
  /-- Until the waiting place is completed.  The action sees the place, and leaves
  the action to carry out if the wait is interrupted. -/
  | callback (register : SuspensionId → Action (Action Unit))
  /-- Until some time has passed. -/
  | sleep (millis : Nat)
  /-- Until a fiber, with failures of the given type, has finished: its exit. -/
  | awaitExit (fiber : FiberId) (type : ErrorType)
  /-- Until one of two fibers has finished: whether it is the left one. -/
  | firstDone (left right : FiberId)
  /-- Until one of several fibers has failed or all have succeeded: the position of
  the failed one. -/
  | firstFailure (children : List FiberId)
  /-- Until a channel has taken an element. -/
  | offer (channel : ChannelId) (v : Value)
  /-- Until a channel has given an element. -/
  | take (channel : ChannelId)
  /-- Until a channel has been closed. -/
  | awaitClose (channel : ChannelId)

/-- Whether it is left to the program to end the wait. -/
def Registration.isCallback : Registration → Bool
  | .callback _ => true
  | _ => false

/-- Makes the expected failures of a halt, which have type `source`, failures of type
`target`, in every cause and from left to right. -/
def Halt.translate (source target : ErrorType) (f : Value → Action Value) (h : Halt Failure) :
    Action (Halt Failure) := do
  let mapped ← (h.untag source).flatMapM fun v => do
    let b ← f v
    pure (Cause.fail b)
  pure (mapped.tag target)

mutual

/-- A description of a computation. -/
inductive Instruction where
  /-- End as given. -/
  | done (outcome : Outcome)
  /-- End as an action says. -/
  | sync (action : Action Outcome)
  /-- Wait. -/
  | wait (registration : Registration)
  /-- Continue with the value of `first`. -/
  | chain (first : Instruction) (next : Value → Action Instruction)
  /-- Continue with the end of `first`, whichever it is.  `sameError` tells that
  the failures of the whole have the type of those of `first`. -/
  | fold (first : Instruction) (onHalt : Halt Failure → Action Instruction)
      (onDone : Value → Action Instruction) (sameError : Bool)
  /-- Run `body` from a state, and again from the state it leaves as long as it
  ends with `err` of one; end with the value it leaves with `ok`. -/
  | loop (state : Value) (body : Value → Action Instruction)
  /-- Make the failures of `first`, which have type `source`, failures of type `target`. -/
  | mapError (first : Instruction) (source target : ErrorType) (f : Value → Action Value)
  /-- Start a fiber, attached unless it is a daemon. -/
  | fork (child : Instruction) (daemon : Bool)
  /-- Continue with what an action builds. -/
  | suspend (next : Action Instruction)
  /-- Continue with the environment. -/
  | access (next : Value → Action Instruction)
  /-- Run `body` in another environment. -/
  | provide (environment : Value) (body : Instruction)
  /-- Run `body` with interruption allowed or not. -/
  | setInterruptible (allowed : Bool) (body : Instruction)
  /-- Continue with whether interruption is allowed. -/
  | interruptStatus (next : Bool → Action Instruction)
  /-- Continue with the identity of the fiber. -/
  | descriptor (next : FiberId → Action Instruction)
  /-- Request the interruption of a fiber. -/
  | signal (target : FiberId)
  /-- Let other fibers go first. -/
  | yield
  /-- Replace the value of a cell by what `f` makes of it. -/
  | update (cell : CellId) (f : Value → Action (Update Value))
  /-- Pair an acquired value with its release. -/
  | reserve (v : Value) (release : Release)
  /-- Release what has been acquired, for the given exit. -/
  | release (release : ReleaseId) (exit : Exit Value Value)
  /-- Release what has been leased, for the given exit, once. -/
  | releaseLease (lease : LeaseId) (exit : Exit Value Value)

/-- How something that has been acquired is released, for the exit of its use.  The
parts of a release are releases themselves. -/
inductive Release where
  /-- By what an action builds. -/
  | code (build : Exit Value Value → Action Instruction)
  /-- By the release of what was acquired last, then by that of what was acquired
  before it.  Failures have the given type. -/
  | nested (type : ErrorType) (inner outer : ReleaseId)
  /-- By two releases at once.  Failures have the given type. -/
  | both (type : ErrorType) (left right : ReleaseId)
  /-- By a release in an environment made from the one around. -/
  | within (environment : Value → Action Value) (release : ReleaseId)

end

namespace Instruction

instance : Inhabited Instruction := ⟨.yield⟩

/-- End with a value. -/
def value (v : Value) : Instruction := .done (.done v)

/-- Unwind with a defect. -/
def die (d : Defect) : Instruction := .done (.die d)

/-- What follows one round of a loop. -/
def nextRound (body : Value → Action Instruction) : Value → Action Instruction
  | .ok v => pure (.value v)
  | .err state => pure (.loop state body)
  | _ => pure (.die (.mismatch "value" "a round of a loop"))

end Instruction

end Fibers
