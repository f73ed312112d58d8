import Fibers.Effect.Basic

/-!
# Recovery

An effect that has failed can be continued.  A handler sees the whole failure, or
only the leftmost expected failure of its primary cause, and then whatever
records none passes by.  A handler may have failures of another type than those it
handles; what passes by it must then be a defect, as it cannot be held.

Recovery is not for cancellations: a fiber that has been asked to stop, where it
allows that, passes by every handler.

## Main definitions

* `Effect.foldHalt`, `Effect.catchHalt` — handling the whole failure.
* `Effect.foldFailure`, `Effect.catchFailure` — handling the leftmost expected
  failure.
* `Effect.mapError` — transforming every expected failure.
* `Effect.result` — the exit as a value.
* `Effect.either`, `Effect.orElse`, `Effect.orDie`.
-/

namespace Fibers.Effect

variable {ε ε' : ErrorType}

/-- Continues with the whole failure, or with the value. -/
def foldHalt (e : Effect ε) (onHalt : Halt Value → Action (Effect ε'))
    (onDone : Value → Action (Effect ε')) : Effect ε' :=
  Instruction.fold e (fun h => onHalt (h.untag ε)) onDone (ε == ε')

/-- The handler of the leftmost expected failure of the primary cause. -/
def recovering (onFail : Value → Action (Effect ε')) (h : Halt Failure) :
    Action (Effect ε') :=
  match h.cause.failureOrCause with
  | .ok failure =>
    if failure.type = ε then onFail failure.value
    else pure (die (.mismatch "value" ε.name))
  | .error cause => pure (Instruction.done (.halt (Halt.retype ε ε' { h with cause })))

/-- Continues with the leftmost expected failure, or with the value. -/
def foldFailure (e : Effect ε) (onFail onDone : Value → Action (Effect ε')) : Effect ε' :=
  Instruction.fold e (@recovering ε ε' onFail) onDone (ε == ε')

/-- Transforms the leftmost expected failure, or the value, into a value. -/
def fold (e : Effect ε) (onFail onDone : Value → Action Value) : Effect ε' :=
  e.foldFailure
    (fun v => do
      let b ← onFail v
      pure (succeed b))
    fun v => do
      let b ← onDone v
      pure (succeed b)

/-- Continues with the leftmost expected failure. -/
def catchFailure (e : Effect ε) (handler : Value → Action (Effect ε')) : Effect ε' :=
  e.foldFailure handler fun v => pure (succeed v)

/-- Continues with the whole failure. -/
def catchHalt (e : Effect ε) (handler : Halt Value → Action (Effect ε')) : Effect ε' :=
  e.foldHalt handler fun v => pure (succeed v)

/-- Continues with another effect where an expected failure is recorded. -/
def orElse (e : Effect ε) (other : Effect ε') : Effect ε' := e.catchFailure fun _ => pure other

/-- The value, or the leftmost expected failure, as a value. -/
def either (e : Effect ε) : Effect ε' := e.fold (fun v => pure (.err v)) fun v => pure (.ok v)

/-- The exit as a value. -/
def result (e : Effect ε) : Effect ε' :=
  e.foldHalt (fun h => pure (give (Exit.halt h : Exit Value Value))) fun v =>
    pure (give (Exit.done v : Exit Value Value))

/-- Makes a defect of the leftmost expected failure; `message` writes it. -/
def orDie (message : Value → Action String) (e : Effect ε) : Effect ε' :=
  e.catchFailure fun v => do
    let text ← message v
    pure (dieMessage text)

/-- Transforms every expected failure of every cause, from left to right. -/
def mapError (e : Effect ε) (f : Value → Action Value) : Effect ε' :=
  Instruction.mapError e ε ε' f

end Fibers.Effect
