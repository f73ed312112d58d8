import Fibers.Effect.Basic

/-!
# Shared state

Effects on the cells and channels that fibers share.  An update of a cell sees
exactly the value that it replaces.  Offering to a channel waits while there is no
room and taking from it while there is nothing to take; whatever is done at a
channel after it has been closed ends with the cancellation of the fiber that
closed it.

## Main definitions

* `CellId.get`, `CellId.set`, `CellId.modify`, `CellId.modifySome`, and the updates
  put together from them.
* `ChannelId.offer`, `ChannelId.take`, `ChannelId.awaitClose` — waiting.
* `ChannelId.poll`, `ChannelId.takeUpTo`, `ChannelId.takeAll`, `ChannelId.size`,
  `ChannelId.isClosed`, `ChannelId.close` — never waiting.
-/

namespace Fibers

/-! ### Cells -/

namespace CellId

variable {ε : ErrorType}

/-- A new cell that holds a value. -/
def make (v : Value) : Effect ε :=
  .sync do
    let cell ← Action.newCell v
    pure (.cell cell)

/-- The value of a cell, as an action. -/
def read (cell : CellId) : Action Value := do
  let store ← Action.observe
  pure (((store.cell? cell).map Cell.value).getD .unit)

/-- The value. -/
def get (cell : CellId) : Effect ε := .sync cell.read

/-- Replaces the value. -/
def set (cell : CellId) (v : Value) : Effect ε :=
  .sync do
    Action.writeCell cell v
    pure .unit

/-- Computes a result and a new value from the value. -/
def modify (cell : CellId) (f : Value → Action (Value × Value)) : Effect ε :=
  Instruction.update cell fun v => do
    let (result, next) ← f v
    pure ⟨result, some next⟩

/-- Computes a result and a new value from the value, or leaves it and ends with
`default`. -/
def modifySome (cell : CellId) (default : Value)
    (f : Value → Action (Option (Value × Value))) : Effect ε :=
  Instruction.update cell fun v => do
    match ← f v with
    | some (result, next) => pure ⟨result, some next⟩
    | none => pure ⟨default, none⟩

/-- Computes a new value from the value. -/
def update (cell : CellId) (f : Value → Action Value) : Effect ε :=
  cell.modify fun v => do
    let next ← f v
    pure (.unit, next)

/-- Computes a new value from the value, and ends with the new one. -/
def updateAndGet (cell : CellId) (f : Value → Action Value) : Effect ε :=
  cell.modify fun v => do
    let next ← f v
    pure (next, next)

/-- Computes a new value from the value, and ends with the old one. -/
def getAndUpdate (cell : CellId) (f : Value → Action Value) : Effect ε :=
  cell.modify fun v => do
    let next ← f v
    pure (v, next)

/-- Replaces the value, and ends with the old one. -/
def getAndSet (cell : CellId) (next : Value) : Effect ε := cell.modify fun v => pure (v, next)

/-- Computes a new value from the value, or leaves it. -/
def updateSome (cell : CellId) (f : Value → Action (Option Value)) : Effect ε :=
  cell.modifySome .unit fun v => do
    let next ← f v
    pure (next.map fun next => (.unit, next))

end CellId

/-! ### Channels -/

namespace ChannelId

variable {ε : ErrorType}

/-- A new channel; the failure tells why there can be none. -/
def make (capacity : Option Nat) : Effect ε :=
  .trySync do
    let made ← Action.newChannel capacity
    match made with
    | .ok channel => pure (.ok (.channel channel))
    | .error e => pure (.error (.text e.message))

/-- Offers an element, and waits until the channel has taken it. -/
def offer (channel : ChannelId) (v : Value) : Effect ε := Instruction.wait (.offer channel v)

/-- Takes the oldest element, and waits until there is one. -/
def take (channel : ChannelId) : Effect ε := Instruction.wait (.take channel)

/-- Waits until the channel has been closed. -/
def awaitClose (channel : ChannelId) : Effect ε := Instruction.wait (.awaitClose channel)

/-- Ends with what an action finds at the channel, or with the cancellation of the
fiber that closed it. -/
def unlessClosed (found : Action (Except FiberId Value)) : Effect ε :=
  Instruction.sync do
    match ← found with
    | .ok v => pure (.done v)
    | .error source => pure (.interrupt source)

/-- Takes the elements that are there, at most the given number. -/
def drain (channel : ChannelId) (limit : Option Nat) : Effect ε :=
  unlessClosed do
    let drained ← Action.drain channel limit
    pure (drained.map .list)

/-- Takes the elements that are there, at most the given number. -/
def takeUpTo (channel : ChannelId) (limit : Nat) : Effect ε := channel.drain (some limit)

/-- Takes all elements that are there. -/
def takeAll (channel : ChannelId) : Effect ε := channel.drain none

/-- Takes the oldest element if there is one. -/
def poll (channel : ChannelId) : Effect ε :=
  unlessClosed do
    let drained ← Action.drain channel (some 1)
    pure (drained.map fun vs => .ofOption vs.head?)

/-- How many elements there are to take. -/
def size (channel : ChannelId) : Effect ε :=
  unlessClosed do
    let store ← Action.observe
    match store.channel? channel with
    | none => pure (.ok .unit)
    | some ch =>
      match ch.closedBy with
      | some source => pure (.error source)
      | none => pure (.ok (.int ch.size))

/-- Whether the channel has been closed. -/
def isClosed (channel : ChannelId) : Effect ε :=
  .sync do
    let store ← Action.observe
    pure (.bool ((store.channel? channel).any Channel.isClosed))

/-- Closes the channel on behalf of this fiber, unless it has been closed. -/
def close (channel : ChannelId) : Effect ε :=
  Instruction.descriptor fun id => do
    Action.close channel id
    pure (.value .unit)

end ChannelId

end Fibers
