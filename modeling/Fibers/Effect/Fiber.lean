import Fibers.Effect.Region

/-!
# Fibers

A fiber is started by forking an effect.  Whoever holds it can wait for its exit,
adopt that exit as its own, or ask the fiber to stop.  The exit goes to the first
who receives it.

## Main definitions

* `Fiber` — the handle of a fiber whose failures have a given type.
* `Effect.fork`, `Effect.forkDaemon`.
* `Fiber.awaitExit`, `Fiber.adopt`, `Fiber.join` — waiting for a fiber.
* `Fiber.signal`, `Fiber.interrupt` — asking a fiber to stop.
* `Effect.interrupt` — stopping oneself.
* `Effect.async`, `Effect.never`, `Effect.sleep`, `Effect.delay` — waiting for
  something else.
-/

namespace Fibers

/-- The handle of a fiber with failures of the given type. -/
structure Fiber (type : ErrorType) where
  /-- The identity of the fiber. -/
  id : FiberId
  deriving DecidableEq, Repr, Inhabited

instance {type : ErrorType} : Carried (Fiber type) :=
  ⟨"Fiber", fun f => .fiber f.id, fun | .fiber id => some ⟨id⟩ | _ => none⟩

namespace Effect

variable {ε ε' : ErrorType}

/-! ### Starting a fiber -/

/-- Starts a fiber that is asked to stop when this one finishes.  It inherits the
environment and the interrupt status. -/
def fork (e : Effect ε) : Effect ε' := Instruction.fork e false

/-- Starts a fiber that outlives this one. -/
def forkDaemon (e : Effect ε) : Effect ε' := Instruction.fork e true

/-- Stops this fiber.  The request is for good: recovery further out cannot make a
success of it. -/
def interrupt : Effect ε :=
  Instruction.descriptor fun id =>
    let asked : Effect ε := Instruction.signal id
    let stopped : Effect ε := asked.chain fun _ => pure (haltCause (.interrupt id))
    pure stopped

/-! ### Waiting for something else -/

/-- Waits until the waiting place is completed.  The registration leaves the
action to carry out if the wait is interrupted. -/
def async (register : SuspensionId → Action (Action Unit)) : Effect ε :=
  Instruction.wait (.callback register)

/-- Waits for ever. -/
def never : Effect ε := async fun _ => pure (pure ())

/-- Waits for some time. -/
def sleep (millis : Nat) : Effect ε := Instruction.wait (.sleep millis)

/-- Waits for some time, then goes on. -/
def delay (millis : Nat) (e : Effect ε) : Effect ε := (sleep millis).zipRight e

end Effect

namespace Fiber

variable {ε ε' : ErrorType}

/-! ### Waiting for a fiber -/

/-- Waits until the fiber has finished; its exit as a value. -/
def awaitExit (f : Fiber ε) : Effect ε' := Instruction.wait (.awaitExit f.id ε)

/-- Waits until the fiber has finished, and ends as it did. -/
def adopt (f : Fiber ε) : Effect ε :=
  (f.awaitExit : Effect ε).chainAs fun x : Exit Value Value => pure (Effect.ofExit x)

/-- The description of adopting the exit of a fiber, which may be carried out
once. -/
def join (f : Fiber ε) : Action (Effect ε) := do
  let mark ← Action.newMark
  pure (Effect.once mark f.adopt)

/-! ### Asking a fiber to stop -/

/-- Asks the fiber to stop, and goes on. -/
def signal (f : Fiber ε) : Effect ε' := Instruction.signal f.id

/-- Asks the fiber to stop, and waits until it has finished; its exit as a
value. -/
def interrupt (f : Fiber ε) : Effect ε' := (f.signal : Effect ε').zipRight f.awaitExit

end Fiber

end Fibers
