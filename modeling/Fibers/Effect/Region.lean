import Fibers.Effect.Recovery

/-!
# Regions

Parts of an effect can run in another environment, or with interruption allowed
or not.  A masked region does not allow interruption, and hands its body the
status found on entry, so that some of it can go on as before.

`Effect.bracketExit` is what masked regions are for: a resource is acquired and
released with interruption not allowed, and what is done with it runs as the
surroundings do.  Once the resource has been acquired, it is released exactly
once, after its use has settled and with the exit of the use.

## Main definitions

* `Effect.access`, `Effect.provide`, `Effect.provideSome` — the environment.
* `Effect.interruptible`, `Effect.uninterruptible`, `Effect.mask`, `Restore` —
  interruption.
* `Effect.bracketExit`, `Effect.bracket`, `Effect.onExit`, `Effect.ensuring`,
  `Effect.onInterrupt` — finalization.
-/

namespace Fibers

/-- The interrupt status found on entry to a masked region. -/
structure Restore where
  /-- Whether interruption was allowed. -/
  interruptible : Bool
  deriving DecidableEq, Repr, Inhabited

namespace Effect

variable {ε ε' : ErrorType}

/-! ### The environment -/

/-- Continues with the environment. -/
def accessM (next : Value → Action (Effect ε)) : Effect ε := Instruction.access next

/-- Reads something off the environment. -/
def access (f : Value → Action Value) : Effect ε :=
  accessM fun environment => do
    let v ← f environment
    pure (succeed v)

/-- The environment. -/
def environment : Effect ε := access fun environment => pure environment

/-- Runs in the given environment. -/
def provide (environment : Value) (e : Effect ε) : Effect ε := Instruction.provide environment e

/-- Runs in an environment made from the one around. -/
def provideSome (f : Value → Action Value) (e : Effect ε) : Effect ε :=
  accessM fun outer => do
    let inner ← f outer
    pure (provide inner e)

/-! ### Interruption -/

/-- Runs with interruption allowed. -/
def interruptible (e : Effect ε) : Effect ε := Instruction.setInterruptible true e

/-- Runs with interruption not allowed. -/
def uninterruptible (e : Effect ε) : Effect ε := Instruction.setInterruptible false e

end Effect

/-- Runs an effect with the status found on entry to the masked region. -/
def Restore.apply {ε : ErrorType} (restore : Restore) (e : Effect ε) : Effect ε :=
  Instruction.setInterruptible restore.interruptible e

namespace Effect

variable {ε ε' : ErrorType}

/-- Runs with interruption not allowed; the body is told the status on entry. -/
def mask (body : Restore → Action (Effect ε)) : Effect ε :=
  Instruction.interruptStatus fun status => do
    let e ← body ⟨status⟩
    pure (uninterruptible e)

/-! ### Finalization -/

/-- Merges the exit of what was done with the exit of a finalizer that is still to
run. -/
def finishWith (x : Exit Value Value) (finalizer : Effect ε) : Effect ε :=
  (finalizer.result : Effect ε).chainAs fun released : Exit Value Value =>
    pure (ofExit (x.withFinalizer released))

/-- What follows the use of a resource: its release, for the exit of the use. -/
def settleUse (held : Value) (release : Value → Exit Value Value → Action (Effect ε))
    (x : Exit Value Value) : Action (Effect ε) := do
  let finalizer ← guarded (release held x)
  pure (finishWith x finalizer)

/-- Acquires a resource, uses it and releases it for the exit of its use. -/
def bracketExit (acquire : Effect ε) (use : Value → Action (Effect ε))
    (release : Value → Exit Value Value → Action (Effect ε)) : Effect ε :=
  mask fun restore => pure <| acquire.chain fun held => do
    let used ← guarded (use held)
    pure (((restore.apply used).result : Effect ε).chainAs (settleUse held release))

/-- Acquires a resource, uses it and releases it. -/
def bracket (acquire : Effect ε) (use release : Value → Action (Effect ε)) : Effect ε :=
  bracketExit acquire use fun held _ => release held

/-- Runs `cleanup` for the exit, whatever it is. -/
def onExit (e : Effect ε) (cleanup : Exit Value Value → Action (Effect ε)) : Effect ε :=
  bracketExit unit (fun _ => pure e) fun _ x => cleanup x

/-- Runs `finalizer` afterwards, whatever happens. -/
def ensuring (e : Effect ε) (finalizer : Effect ε) : Effect ε := e.onExit fun _ => pure finalizer

/-- Runs `cleanup` afterwards if the primary cause records a cancellation. -/
def onInterrupt (e : Effect ε) (cleanup : Effect ε) : Effect ε :=
  e.onExit fun x => pure (if x.isInterrupted then cleanup else unit)

end Effect

end Fibers
