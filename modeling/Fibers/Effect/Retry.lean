import Fibers.Backoff
import Fibers.Effect.Fiber

/-!
# Retrying

An effect that ended with an expected failure can be carried out again from the
start.  What decides is the leftmost expected failure of the primary cause; an
effect that ended otherwise, by a defect or a cancellation, is never tried again,
and its failure is passed on as it is.

## Main definitions

* `Effect.retryWhileM`, `Effect.retryWhile`, `Effect.retryUntil` — as long as a
  test of the failure says so.
* `Effect.retryN` — a given number of times.
* `Effect.retryPolicy` — as a backoff policy says, with its delays.
-/

namespace Fibers.Effect

variable {ε : ErrorType}

/-- What follows a failed attempt: the test of its failure, then the next round or
the failure. -/
def decideRetry (test : Value → Action (Effect ε)) (h : Halt Value) : Action (Effect ε) :=
  match h.cause.firstFailure with
  | none => pure (halt h)
  | some failure => do
    let decision ← test failure
    pure (decision.chainAs fun again : Bool =>
      pure (if again then succeed (.err .unit) else halt h))

/-- Tries again as long as an effect made from the failure says so. -/
def retryWhileM (e : Effect ε) (test : Value → Action (Effect ε)) : Effect ε :=
  Instruction.loop .unit fun _ =>
    pure (e.foldHalt (decideRetry test) fun v => pure (succeed (.ok v)))

/-- Tries again as long as a test of the failure says so. -/
def retryWhile (e : Effect ε) (test : Value → Action Bool) : Effect ε :=
  e.retryWhileM fun v => do
    let again ← test v
    pure (give again)

/-- Tries again until a test of the failure says otherwise. -/
def retryUntil (e : Effect ε) (test : Value → Action Bool) : Effect ε :=
  e.retryWhile fun v => do
    let enough ← test v
    pure !enough

/-- Tries again the given number of times at most. -/
def retryN (e : Effect ε) : Nat → Effect ε
  | 0 => e
  | n + 1 =>
    e.catchHalt fun h =>
      pure (if h.cause.isFailure then suspend (pure (e.retryN n)) else halt h)

/-- Whether the leftmost expected failure of a cause passes a test. -/
def retryable (test : Value → Action Bool) (c : Cause Value) : Action Bool :=
  match c.firstFailure with
  | none => pure false
  | some failure => test failure

/-- The attempts from the one with the given number on, of which as many are left
as given; each is made only after the delay the policy puts before it. -/
def retryFrom (policy : Backoff) (test : Value → Action Bool) (e : Effect ε) (attempt : UInt32) :
    Nat → Effect ε
  | 0 => e.catchHalt fun h => do
    let _ ← retryable test h.cause
    pure (halt h)
  | left + 1 => e.catchHalt fun h => do
    let again ← retryable test h.cause
    match policy.delay? attempt with
    | some delay =>
      if again then
        let next := suspend (pure (retryFrom policy test e (attempt + 1) left))
        pure ((sleep delay.toNat).zipRight next)
      else pure (halt h)
    | none => pure (halt h)

/-- Tries again as a policy says as long as a test of the failure says so. -/
def retryPolicy (e : Effect ε) (policy : Backoff) (test : Value → Action Bool) : Effect ε :=
  retryFrom policy test e 0 policy.maxRetries.toNat

end Fibers.Effect
