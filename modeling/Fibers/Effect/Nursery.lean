import Fibers.Effect.Race

/-!
# Many effects at once

A nursery runs any number of effects at once, each on a child fiber of its own,
and collects their values in the order in which the effects were given.  The first
child to fail stops its siblings, and the nursery fails as that child did; what
really failed in a sibling meanwhile is kept alongside.  A nursery does not end
before all of its children have.

## Main definitions

* `Fiber.interruptAll` — stopping several fibers.
* `Effect.collectAllPar` — the nursery.
-/

namespace Fibers

namespace Fiber

variable {ε ε' : ErrorType}

/-- Asks all fibers to stop, then waits for all of them; the list of their exits. -/
def interruptAll (fibers : List (Fiber ε)) : Effect ε' :=
  (Effect.collectAll (fibers.map fun f => (f.signal : Effect ε'))).zipRight
    (Effect.collectAll (fibers.map fun f => (f.awaitExit : Effect ε')))

end Fiber

namespace Effect

variable {ε ε' : ErrorType}

/-- Waits until one of several fibers has failed or all have succeeded: the position
of the failed one, if there is one. -/
def firstFailure (fibers : List (Fiber ε)) : Effect ε' :=
  Instruction.wait (.firstFailure (fibers.map Fiber.id))

/-- The fibers that a list of values stands for. -/
def childrenOf (values : List Value) : List (Fiber ε) := values.filterMap Carried.ofValue?

/-- The exits that a list of values stands for. -/
def exitsOf (values : List Value) : List (Exit Value Value) := values.filterMap Carried.ofValue?

/-- The failure of a child that is known to have failed. -/
def failureOf : Exit Value Value → Halt Value
  | .halt h => h
  | .done _ => .of (.die (.runtime "failed child reported success"))

/-- The end of a nursery in which a child has failed first: its failure, with those
of its siblings alongside. -/
def failNursery (culprit : Fiber ε) (siblings : List (Fiber ε)) : Effect ε :=
  (Fiber.interruptAll siblings).chainAs fun exits : List Value => pure <|
    (culprit.awaitExit : Effect ε).chainAs fun x : Exit Value Value =>
      pure (halt ((exitsOf exits).foldl Halt.keepSibling (failureOf x)))

/-- The end of a nursery, told which child has failed first. -/
def settleNursery (children : List (Fiber ε)) : Value → Effect ε
  | .some (.int position) =>
    match children[position.toNat]? with
    | some culprit => failNursery culprit (children.eraseIdx position.toNat)
    | none => die (.mismatch "value" "the position of a child")
  | _ => collectAll (children.map Fiber.adopt)

/-- Runs all effects at once; the list of their values. -/
def collectAllPar (es : List (Effect ε)) : Effect ε :=
  if es.isEmpty then suspend (pure (give ([] : List Value)))
  else
    mask fun restore => pure <|
      (collectAll (es.map fun e => (restore.apply e).fork)).chainAs fun forked : List Value =>
        let children : List (Fiber ε) := childrenOf forked
        pure <| (restore.apply (firstFailure children : Effect ε)).foldHalt
          (fun h => pure ((Fiber.interruptAll children).chain fun _ => pure (halt h)))
          fun verdict => pure (settleNursery children verdict)

end Effect

end Fibers
