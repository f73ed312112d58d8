import Fibers.Machine.Interruption

/-!
# Completion

When a fiber finishes, its unfinished attached children are asked to stop, its
exit is put down, and everyone who asked for it is told in the order of asking.

The exit is there for one taker.  A fiber that waited for it and was interrupted
in the meantime cannot take it, so it is put back for the next one; who comes
after the taker learns that the exit has gone.

## Main definitions

* `World.takeExit`, `World.restoreExit` — taking an exit and putting it back.
* `World.notify` — telling one observer.
* `World.observe` — telling an observer now or later.
* `World.complete` — the end of a fiber.
-/

namespace Fibers

namespace World

/-! ### The exit of a fiber -/

/-- What is found in the place of an exit that has been taken. -/
def exitTaken (w : World) (fiber : FiberId) : Outcome :=
  .die (.runtime s!"exit of {w.store.names.display fiber} was already observed")

/-- What is found in the place of the exit of a fiber that is still going. -/
def exitMissing (w : World) (fiber : FiberId) : Outcome :=
  .die (.runtime s!"{w.store.names.display fiber} has not finished")

/-- Takes the exit of a fiber. -/
def takeExit (w : World) (fiber : FiberId) : Outcome × World :=
  match (w.store.fiber? fiber).bind FiberRecord.exit with
  | some outcome => (outcome, w.modifyFiber fiber fun f => { f with exit := none })
  | none => (if w.store.isFinished fiber then w.exitTaken fiber else w.exitMissing fiber, w)

/-- Puts an exit back, unless there is one. -/
def restoreExit (w : World) (fiber : FiberId) (outcome : Outcome) : World :=
  w.modifyFiber fiber fun f => { f with exit := f.exit.or (some outcome) }

/-! ### Observers -/

/-- The outcome of a wait for the first failure among children, as far as it is
decided when the child at the given position has finished. -/
def failureVerdict (w : World) (children : List FiberId) (fiber : FiberId) (position : Nat) :
    Option Value :=
  if w.store.hasFailed fiber then some (.some (.int position))
  else if children.all fun c => w.store.isFinished c && !w.store.hasFailed c then some .none
  else none

/-- Tells an observer that a fiber has finished. -/
def notify (w : World) (fiber : FiberId) : Observer → World
  | .report type =>
    let (outcome, w) := w.takeExit fiber
    { w with store := { w.store with reports := w.store.reports ++ [(fiber, outcome.untag type)] } }
  | .exitTo waiter type =>
    let (outcome, w) := w.takeExit fiber
    let x := outcome.untag type
    match w.resume waiter (.done (.exit x)) with
    | (true, w) => w
    | (false, w) => w.restoreExit fiber (x.tag type)
  | .firstDone waiter left => (w.resume waiter (.done (.bool left))).2
  | .firstFailure waiter children position =>
    match w.failureVerdict children fiber position with
    | some verdict => (w.resume waiter (.done verdict)).2
    | none => w

/-- Tells an observer when a fiber has finished, at once if it has. -/
def observe (w : World) (fiber : FiberId) (observer : Observer) : World :=
  if w.store.isFinished fiber then w.notify fiber observer
  else w.modifyFiber fiber fun f => { f with observers := f.observers ++ [observer] }

/-! ### The end of a fiber -/

/-- Asks the unfinished ones of some fibers to stop. -/
def interruptUnfinished (w : World) (fibers : List FiberId) (source : FiberId) : World :=
  fibers.foldl (fun w f => if w.store.isFinished f then w else w.interrupt f source) w

/-- Ends a fiber with the given outcome. -/
def complete (w : World) (fiber : FiberId) (outcome : Outcome) : World :=
  match w.store.fiber? fiber with
  | none => w
  | some record =>
    let w := w.modifyFiber fiber fun f => { f with children := [] }
    let w := w.interruptUnfinished record.children fiber
    let observers := ((w.store.fiber? fiber).map FiberRecord.observers).getD []
    let w := w.modifyFiber fiber fun f =>
      { f with exit := some outcome, finished := true, suspension := none, observers := [] }
    observers.foldl (fun w observer => w.notify fiber observer) w

end World

end Fibers
