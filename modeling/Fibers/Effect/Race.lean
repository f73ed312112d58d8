import Fibers.Effect.Fiber

/-!
# Two effects at once

`Effect.raceFold` starts two effects on child fibers and goes on with the one that
finishes first: a handler gets its exit and the other child, which may still be
running.  If the waiting fiber is interrupted, both children are asked to stop and
waited for first.  Everything else that runs two effects at once is put together
from it, and no way of ending leaves a child behind or drops a failure other than
a mere cancellation.

## Main definitions

* `Effect.raceFold` — the race.
* `Fiber.awaitOrInterrupt` — waiting for a fiber that is not to outlive the wait.
* `Halt.keepSibling` — a failure with what happened to the other side.
* `Effect.zipParWith`, `Effect.zipPar` — both, with a combination of their values.
* `Effect.race` — the first success.
* `Effect.timeout` — a limit on the time.
-/

namespace Fibers

/-- The failure of one side with that of the other alongside, unless the other was
merely cancelled. -/
def Halt.keepSibling (h : Halt Value) : Exit Value Value → Halt Value
  | .halt other => if other.cause.isInterruptedOnly then h else h.append other
  | .done _ => h

namespace Fiber

variable {ε ε' : ErrorType}

/-- Waits for a fiber; if the wait is interrupted, the fiber is asked to stop and
waited for. -/
def awaitOrInterrupt (f : Fiber ε) : Effect ε' :=
  (f.awaitExit : Effect ε').onInterrupt
    (.suspend (pure (f.interrupt : Effect ε').asUnit))

end Fiber

namespace Effect

variable {ε ε₁ ε₂ : ErrorType}

/-! ### The race -/

/-- Waits until one of two fibers has finished: whether it is the left one. -/
def firstDone (left : Fiber ε) (right : Fiber ε₁) : Effect ε₂ :=
  Instruction.wait (.firstDone left.id right.id)

/-- What happens when the wait of a race is interrupted: both children are asked to
stop, then waited for. -/
def abandonRace (left : Fiber ε) (right : Fiber ε₁) (h : Halt Value) : Effect ε₂ :=
  (((left.signal.zipRight right.signal).zipRight left.awaitExit).zipRight
    right.awaitExit).chain fun _ => pure (halt h)

/-- What happens when one side has finished: the handler of that side gets its exit
and the other side. -/
def settleRace (restore : Restore) (left : Fiber ε) (right : Fiber ε₁)
    (onLeft : Exit Value Value → Fiber ε₁ → Action (Effect ε₂))
    (onRight : Exit Value Value → Fiber ε → Action (Effect ε₂)) (leftFirst : Bool) :
    Effect ε₂ :=
  if leftFirst then
    left.awaitExit.chainAs fun x : Exit Value Value => do
      let handled ← onLeft x right
      pure (restore.apply handled)
  else
    right.awaitExit.chainAs fun x : Exit Value Value => do
      let handled ← onRight x left
      pure (restore.apply handled)

/-- Runs both effects on child fibers and goes on with the one that finishes
first. -/
def raceFold (left : Effect ε) (right : Effect ε₁)
    (onLeft : Exit Value Value → Fiber ε₁ → Action (Effect ε₂))
    (onRight : Exit Value Value → Fiber ε → Action (Effect ε₂)) : Effect ε₂ :=
  mask fun restore => pure <|
    ((restore.apply left).fork : Effect ε₂).chainAs fun l : Fiber ε => pure <|
      ((restore.apply right).fork : Effect ε₂).chainAs fun r : Fiber ε₁ => pure <|
        (restore.apply (firstDone l r : Effect ε₂)).foldHalt
          (fun h => pure (abandonRace l r h))
          (expecting fun leftFirst : Bool =>
            pure (settleRace restore l r onLeft onRight leftFirst))

/-! ### Both values -/

/-- The end of a pair whose other side is still to finish. -/
def finishPair (other : Fiber ε₁) (combine : Value → Action Value) : Effect ε :=
  other.awaitOrInterrupt.chainAs fun x : Exit Value Value =>
    match x with
    | .done v => do
      let combined ← combine v
      pure (succeed combined)
    | .halt h => pure (halt h)

/-- Runs both at once and combines their values.  The first failure stops the other
side.  Where both have really failed, the failure of the left one is the primary
one. -/
def zipParWith (left right : Effect ε) (f : Value → Value → Action Value) : Effect ε :=
  raceFold left right
    (fun x other =>
      match x with
      | .done a => pure (finishPair other fun b => f a b)
      | .halt h =>
        pure (other.interrupt.chainAs fun x : Exit Value Value => pure (halt (h.keepSibling x))))
    fun x other =>
      match x with
      | .done b => pure (finishPair other fun a => f a b)
      | .halt h =>
        pure (other.interrupt.chainAs fun x : Exit Value Value =>
          match x with
          | .halt first =>
            pure (halt (if first.cause.isInterruptedOnly then h else first.append h))
          | .done _ => pure (halt h))

/-- Runs both at once; the pair of their values. -/
def zipPar (left right : Effect ε) : Effect ε :=
  left.zipParWith right fun a b => pure (.pair a b)

/-! ### The first success -/

/-- The failures of both sides of a race, neither before the other. -/
def bothFailed (first second : Halt Value) : Halt Value :=
  ⟨first.cause.alongside second.cause, first.remaining ++ second.remaining⟩

/-- The end of a race for the first success, when one side has finished. -/
def raceSettle (x : Exit Value Value) (other : Fiber ε) : Effect ε :=
  match x with
  | .done a => (other.interrupt : Effect ε).as a
  | .halt first =>
    (other.awaitOrInterrupt : Effect ε).chainAs fun x : Exit Value Value =>
      match x with
      | .done a => pure (succeed a)
      | .halt second => pure (halt (bothFailed first second))

/-- Runs both at once; the first success stops the other side. -/
def race (left right : Effect ε) : Effect ε :=
  raceFold left right (fun x other => pure (raceSettle x other)) fun x other =>
    pure (raceSettle x other)

/-! ### A limit on the time -/

/-- The value if there is one within the time, and nothing otherwise; the effect is
stopped then. -/
def timeout (millis : Nat) (e : Effect ε) : Effect ε :=
  raceFold e (sleep millis : Effect ε)
    (fun x timer =>
      pure (timer.interrupt.chain fun _ => pure (ofExit (x.map .some))))
    fun x work =>
      pure (work.interrupt.chain fun _ =>
        match x with
        | .done _ => pure (succeed .none)
        | .halt h => pure (halt h))

end Effect

end Fibers
