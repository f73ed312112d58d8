import Fibers.Failure.Exit

/-!
# Values

The data that programs compute with.  Besides plain data there are exits, the
identities and handles of fibers, and handles to what the runtime keeps for a
program: cells, channels and leases.  Handles are numbers, so a value holds no
code and can be stored, compared and written down.

## Main definitions

* `CellId`, `ChannelId`, `LeaseId`, `ReleaseId` — handles to stored state.
* `Value` — the values themselves.
-/

namespace Fibers

/-- A shared cell. -/
structure CellId where
  /-- The number of the cell. -/
  index : Nat
  deriving DecidableEq, Repr, Inhabited

/-- A channel between fibers. -/
structure ChannelId where
  /-- The number of the channel. -/
  index : Nat
  deriving DecidableEq, Repr, Inhabited

/-- A resource whose release is left to its holder. -/
structure LeaseId where
  /-- The number of the lease. -/
  index : Nat
  deriving DecidableEq, Repr, Inhabited

/-- The release of an acquired resource. -/
structure ReleaseId where
  /-- The number of the release. -/
  index : Nat
  deriving DecidableEq, Repr, Inhabited

/-- What programs compute with. -/
inductive Value where
  /-- No information. -/
  | unit
  /-- A truth value. -/
  | bool (b : Bool)
  /-- An integer. -/
  | int (n : Int)
  /-- A text. -/
  | text (s : String)
  /-- Values in order. -/
  | list (items : List Value)
  /-- No value where there may be one. -/
  | none
  /-- A value where there may be one. -/
  | some (v : Value)
  /-- The good outcome of an attempt. -/
  | ok (v : Value)
  /-- The bad outcome of an attempt. -/
  | err (v : Value)
  /-- How a computation ended. -/
  | exit (x : Exit Value Value)
  /-- The identity of a fiber. -/
  | id (fiber : FiberId)
  /-- The handle of a fiber. -/
  | fiber (fiber : FiberId)
  /-- The handle of a cell. -/
  | cell (cell : CellId)
  /-- The handle of a channel. -/
  | channel (channel : ChannelId)
  /-- The interruptibility found on entry to a masked region. -/
  | restore (interruptible : Bool)
  /-- A leased resource, with its value. -/
  | lease (lease : LeaseId) (v : Value)
  /-- An acquired resource, with its release. -/
  | reservation (v : Value) (release : ReleaseId)
  deriving Inhabited

namespace Value

/-- A pair, as the list of its two sides. -/
def pair (a b : Value) : Value := .list [a, b]

/-- An optional value. -/
def ofOption : Option Value → Value
  | Option.none => .none
  | Option.some v => .some v

/-- The outcome of an attempt. -/
def ofExcept : Except Value Value → Value
  | .ok v => .ok v
  | .error e => .err e

end Value

end Fibers
