import Fibers.Machine.Operations

/-!
# Interruption

A request to interrupt a fiber is recorded for good.  If the fiber is parked at a
place whose wait can be interrupted, the wait ends at once: what is to be done on
interruption is done, and the fiber becomes ready to run with a cancellation that
names the first fiber to have asked for it.

## Main definitions

* `World.cancel` — what is to be done when a wait is interrupted.
* `World.interruptAt` — ending a wait by interruption.
* `World.interrupt` — a request to interrupt a fiber.
-/

namespace Fibers

namespace World

/-- Does what is to be done when a wait is interrupted.  A panic on the way is of
no consequence. -/
def cancel (w : World) : Canceler → World
  | .nothing => w
  | .alarm key => { w with store := { w.store with alarms := (w.store.alarms.cancel key).2 } }
  | .leave channel line ticket =>
    match w.store.channel? channel with
    | none => w
    | some ch => { w with store := w.store.setChannel channel (ch.leave line ticket) }
  | .action a => (a.run w).2

/-- Ends a wait by interruption if the fiber is parked at the given place. -/
def interruptAt (w : World) (fiber : FiberId) (s : SuspensionId) (source : FiberId) : World :=
  match (w.suspension? s).map Suspension.state with
  | some (.waiting run onInterrupt) =>
    ((w.setSuspension s .over).cancel onInterrupt).schedule fiber run (.interrupt source)
  | _ => w

/-- Whether a place is one where waits can be interrupted. -/
def isInterruptible (w : World) (s : SuspensionId) : Bool :=
  (w.suspension? s).any Suspension.interruptible

/-- Records a request to interrupt a fiber. -/
def recordInterruptor (w : World) (target source : FiberId) : World :=
  w.modifyFiber target fun f =>
    if f.interruptors.contains source then f
    else { f with interruptors := f.interruptors ++ [source] }

/-- Requests the interruption of a fiber on behalf of another. -/
def interrupt (w : World) (target source : FiberId) : World :=
  let w := w.recordInterruptor target source
  match (w.store.fiber? target).bind FiberRecord.suspension with
  | none => w
  | some s =>
    if w.isInterruptible s then w.interruptAt target s (w.store.interruptor target) else w

end World

end Fibers
