import Fibers.Alarms
import Fibers.Cell
import Fibers.Channel
import Fibers.Data.Numbered
import Fibers.Failure.Typed
import Fibers.Value.Text

/-!
# The store

The store is everything a runtime keeps for its fibers that is data: what is
known of every fiber, the cells, channels and leases that programs have made, the
alarm clock, and the log.  Code is kept elsewhere, so the store can be looked at
by programs; of a fiber they see no more than whether it has finished.

## Main definitions

* `SuspensionId` — a place where a fiber waits.
* `Observer` — what is to be told when a fiber finishes.
* `FiberRecord` — what is known of a fiber.
* `Store`, with `Store.reading` for the texts of values and `Store.debug` for the
  texts in which the structure of handles is shown.
* `Store.shown` — what programs can see of it.
-/

namespace Fibers

/-- A place where a fiber waits. -/
structure SuspensionId where
  /-- The number of the place. -/
  index : Nat
  deriving DecidableEq, Repr, Inhabited

/-- What is to be told when a fiber finishes. -/
inductive Observer where
  /-- The one who started a root fiber gets its exit, with failures of this type. -/
  | report (type : ErrorType)
  /-- A waiting fiber gets the exit, with failures of this type. -/
  | exitTo (waiter : SuspensionId) (type : ErrorType)
  /-- A waiting fiber learns which side of a race finished first. -/
  | firstDone (waiter : SuspensionId) (left : Bool)
  /-- A waiting fiber learns which of its children failed first, or that all have
  succeeded; the observed fiber has the given position among them. -/
  | firstFailure (waiter : SuspensionId) (children : List FiberId) (position : Nat)
  deriving DecidableEq, Repr, Inhabited

/-- What is known of a fiber. -/
structure FiberRecord where
  /-- Who asked for its interruption, in the order of the first requests. -/
  interruptors : List FiberId := []
  /-- Where it waits, or waited last. -/
  suspension : Option SuspensionId := none
  /-- Its exit, as long as nobody has taken it. -/
  exit : Option Outcome := none
  /-- Whether it has finished. -/
  finished : Bool := false
  /-- Who is to be told when it finishes, in the order of registration. -/
  observers : List Observer := []
  /-- Its attached children, in the order of their creation. -/
  children : List FiberId := []
  deriving Inhabited

namespace FiberRecord

/-- Whether its interruption has been requested. -/
def isInterrupted (f : FiberRecord) : Bool := !f.interruptors.isEmpty

/-- The fiber that asked for its interruption first. -/
def interruptor (f : FiberRecord) : FiberId := f.interruptors.headD .none

/-- Whether it has failed and nobody has taken its exit. -/
def hasFailed (f : FiberRecord) : Bool :=
  match f.exit with
  | some (.halt _) => true
  | _ => false

/-- What programs can see of a fiber. -/
def shown (f : FiberRecord) : FiberRecord := { finished := f.finished }

end FiberRecord

/-- The state of a lease. -/
structure Lease where
  /-- What releases the resource. -/
  release : ReleaseId
  /-- Whether it has been released. -/
  released : Bool := false
  deriving DecidableEq, Repr, Inhabited

/-- The data a runtime keeps for its fibers. -/
structure Store where
  /-- The names of fibers. -/
  names : FiberNames := ⟨0⟩
  /-- What is known of every fiber. -/
  fibers : Numbered FiberRecord := .startingAt 1
  /-- The shared cells. -/
  cells : Numbered (Cell Value) := {}
  /-- The channels. -/
  channels : Numbered (Channel Value SuspensionId) := {}
  /-- The leases. -/
  leases : Numbered Lease := {}
  /-- The sleeping fibers. -/
  alarms : Alarms SuspensionId := {}
  /-- The time. -/
  now : Nat := 0
  /-- For every effect that may be evaluated once, whether it has been. -/
  spent : Numbered Bool := {}
  /-- The waiting places that programs have kept under a name. -/
  handles : List (String × SuspensionId) := []
  /-- The texts of the entries logged so far. -/
  log : Array String := #[]
  /-- The exits of root fibers, in the order in which they were reported. -/
  reports : List (FiberId × Exit Value Value) := []
  deriving Inhabited

namespace Store

/-- The store of a runtime for which the given number of fiber identities were
minted before its first fiber. -/
def init (minted : Nat) : Store :=
  { names := ⟨minted⟩, fibers := .startingAt (minted + 1) }

/-! ### Fibers -/

/-- What is known of a fiber. -/
def fiber? (s : Store) (id : FiberId) : Option FiberRecord := s.fibers.get? id.raw

/-- Changes what is known of a fiber. -/
def modifyFiber (s : Store) (id : FiberId) (f : FiberRecord → FiberRecord) : Store :=
  { s with fibers := s.fibers.modify id.raw f }

/-- The identity of the fiber that will be created next. -/
def nextFiber (s : Store) : FiberId := ⟨s.fibers.next⟩

/-- Whether a fiber has finished. -/
def isFinished (s : Store) (id : FiberId) : Bool := (s.fiber? id).any FiberRecord.finished

/-- How many children a fiber remembers before it forgets those that have finished. -/
def manyChildren : Nat := 32

/-- The children that a fiber remembers once it has started another one. -/
def withChild (s : Store) (children : List FiberId) (child : FiberId) : List FiberId :=
  (if manyChildren ≤ children.length then children.filter fun c => !s.isFinished c
    else children) ++ [child]

/-- Whether the interruption of a fiber has been requested. -/
def isInterrupted (s : Store) (id : FiberId) : Bool :=
  (s.fiber? id).any FiberRecord.isInterrupted

/-- The fiber that asked first for the interruption of a fiber. -/
def interruptor (s : Store) (id : FiberId) : FiberId :=
  ((s.fiber? id).map FiberRecord.interruptor).getD .none

/-- Whether a fiber has failed and nobody has taken its exit. -/
def hasFailed (s : Store) (id : FiberId) : Bool := (s.fiber? id).any FiberRecord.hasFailed

/-- The exit reported for a root fiber. -/
def report? (s : Store) (id : FiberId) : Option (Exit Value Value) := s.reports.lookup id

/-- What programs can see. -/
def shown (s : Store) : Store := { s with fibers := s.fibers.map FiberRecord.shown }

/-! ### State made by programs -/

/-- A cell. -/
def cell? (s : Store) (id : CellId) : Option (Cell Value) := s.cells.get? id.index

/-- A channel. -/
def channel? (s : Store) (id : ChannelId) : Option (Channel Value SuspensionId) :=
  s.channels.get? id.index

/-- Replaces a channel. -/
def setChannel (s : Store) (id : ChannelId) (ch : Channel Value SuspensionId) : Store :=
  { s with channels := s.channels.modify id.index fun _ => ch }

/-- A lease. -/
def lease? (s : Store) (id : LeaseId) : Option Lease := s.leases.get? id.index

/-- Whether a lease has been released. -/
def isReleased (s : Store) (id : LeaseId) : Bool := (s.lease? id).any Lease.released

/-! ### Texts -/

/-- What the texts of values depend on. -/
def reading (s : Store) : Reading := ⟨s.names, s.isReleased⟩

/-- The text of a value. -/
def render (s : Store) (v : Value) : String := v.render s.reading

/-- The text that shows the structure of a handle; plain values are written as
they are. -/
def debug (s : Store) : Value → String
  | .id fiber => s.names.debug fiber
  | .fiber fiber =>
    "Fiber \x7b id: " ++ s.names.debug fiber ++ ", finished: " ++
      Compact.bool (s.isFinished fiber) ++ " \x7d"
  | .cell cell =>
    match s.cell? cell with
    | some c => c.debug s.render
    | none => s.render (.cell cell)
  | .channel channel =>
    match s.channel? channel with
    | some ch => ch.debug s.names.debug
    | none => s.render (.channel channel)
  | .lease lease v =>
    "Leak \x7b value: " ++ s.render v ++ ", released: " ++
      Compact.bool (s.isReleased lease) ++ " \x7d"
  | .restore interruptible =>
    "Restore \x7b interruptible: " ++ Compact.bool interruptible ++ " \x7d"
  | v => s.render v

end Store

end Fibers
