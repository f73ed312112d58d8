import Fibers.Machine.Completion

/-!
# Waiting

A fiber that waits first registers with whatever will end its wait, and is parked
once that is done.  The wait may be over by then: an outcome that arrives during
the registration lets the fiber go on at once, and a fiber whose interruption was
requested in the meantime is interrupted as soon as it is parked.

## Main definitions

* `World.register` — asking for the end of a wait.
* `World.park` — a whole wait, up to the point where the fiber goes on or stays
  parked.
-/

namespace Fibers

namespace World

/-! ### Registration -/

/-- Offers an element to a channel, and joins the line if there is no room. -/
def registerOffer (w : World) (channel : ChannelId) (v : Value) (waiter : SuspensionId) :
    Canceler × World :=
  match w.store.channel? channel with
  | none => (.nothing, w)
  | some ch =>
    match ch.offer? w.isLive v with
    | (.closed source, _) => (.nothing, (w.resume waiter (.interrupt source)).2)
    | (.handedTo taker, ch) =>
      let w := { w with store := w.store.setChannel channel ch }
      (.nothing, ((w.resume taker (.done v)).2.resume waiter (.done .unit)).2)
    | (.stored, ch) =>
      let w := { w with store := w.store.setChannel channel ch }
      (.nothing, (w.resume waiter (.done .unit)).2)
    | (.full, ch) =>
      let (ticket, ch) := ch.enqueueOfferer v waiter
      (.leave channel .offerers ticket, { w with store := w.store.setChannel channel ch })

/-- Takes an element from a channel, and joins the line if there is none. -/
def registerTake (w : World) (channel : ChannelId) (waiter : SuspensionId) :
    Canceler × World :=
  match w.store.channel? channel with
  | none => (.nothing, w)
  | some ch =>
    match ch.closedBy with
    | some source => (.nothing, (w.resume waiter (.interrupt source)).2)
    | none =>
      match w.takeElement channel ch with
      | (some v, w) => (.nothing, (w.resume waiter (.done v)).2)
      | (none, w) =>
        let (ticket, ch) := ch.enqueueTaker waiter
        (.leave channel .takers ticket, { w with store := w.store.setChannel channel ch })

/-- Joins the line for the end of a channel, unless it has been closed. -/
def registerClose (w : World) (channel : ChannelId) (waiter : SuspensionId) :
    Canceler × World :=
  match w.store.channel? channel with
  | none => (.nothing, w)
  | some ch =>
    if ch.isClosed then (.nothing, (w.resume waiter (.done .unit)).2)
    else
      let (ticket, ch) := ch.enqueueWatcher waiter
      (.leave channel .watchers ticket, { w with store := w.store.setChannel channel ch })

/-- Asks to be told about each of several children, in order. -/
def observeChildren (w : World) (waiter : SuspensionId) (children : List FiberId) : World :=
  children.zipIdx.foldl (fun w c => w.observe c.1 (.firstFailure waiter children c.2)) w

/-- Asks for the end of a wait at the given place: what is to be done if the wait
is interrupted, or the defect of a registration that panicked. -/
def register (w : World) (waiter : SuspensionId) :
    Registration → Except Defect Canceler × World
  | .callback f =>
    match (f waiter).run w with
    | (.ok onInterrupt, w) => (.ok (.action onInterrupt), w)
    | (.error d, w) => (.error d, w)
  | .sleep millis =>
    let (key, alarms) := w.store.alarms.schedule (w.store.now + millis) waiter
    (.ok (.alarm key), { w with store := { w.store with alarms } })
  | .awaitExit fiber type => (.ok .nothing, w.observe fiber (.exitTo waiter type))
  | .firstDone left right =>
    (.ok .nothing,
      (w.observe left (.firstDone waiter true)).observe right (.firstDone waiter false))
  | .firstFailure children => (.ok .nothing, w.observeChildren waiter children)
  | .offer channel v =>
    let (canceler, w) := w.registerOffer channel v waiter
    (.ok canceler, w)
  | .take channel =>
    let (canceler, w) := w.registerTake channel waiter
    (.ok canceler, w)
  | .awaitClose channel =>
    let (canceler, w) := w.registerClose channel waiter
    (.ok canceler, w)

/-! ### Parking -/

/-- Makes a place for a fiber to wait at. -/
def newSuspension (w : World) (fiber : FiberId) (interruptible : Bool)
    (registration : Registration) : SuspensionId × World :=
  let s : SuspensionId := ⟨w.suspensions.next⟩
  let w := { w with suspensions := w.suspensions.push { fiber, interruptible, registration } }
  (s, w.modifyFiber fiber fun f => { f with suspension := some s })

/-- Parks a fiber at a place whose registration is done; one whose interruption
has been requested does not stay there. -/
def parkAt (w : World) (fiber : FiberId) (s : SuspensionId) (run : RunState)
    (onInterrupt : Canceler) : World :=
  let w := w.setSuspension s (.waiting run onInterrupt)
  if run.interruptible && w.store.isInterrupted fiber then
    w.interruptAt fiber s (w.store.interruptor fiber)
  else w

/-- Lets a fiber wait: what it does next if it can go on at once. -/
def park (w : World) (fiber : FiberId) (run : RunState) (registration : Registration) :
    Option Step × World :=
  let (s, w) := w.newSuspension fiber run.interruptible registration
  let (registered, w) := w.register s registration
  match registered, (w.suspension? s).map Suspension.state with
  | .ok onInterrupt, some .registering => (none, w.parkAt fiber s run onInterrupt)
  | .ok _, some (.early outcome) => (some (.ofOutcome outcome), w.setSuspension s .over)
  | .ok _, _ =>
    (some (.die (.runtime "suspension completed twice during registration")),
      w.setSuspension s .over)
  | .error d, _ => (some (.die d), w.setSuspension s .over)

end World

end Fibers
