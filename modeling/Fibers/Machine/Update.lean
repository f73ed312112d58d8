import Fibers.Machine.Operations

/-!
# Updates of cells

An update computes a result and a new value from a snapshot of a cell.  The function
that does so is code of the program: it may take its time, write to the cell itself,
or panic.  The new value is written only if nobody has written to the cell since the
snapshot was taken; otherwise the update has been overtaken and starts again.

## Main definitions

* `Attempt` — what one attempt leads to.
* `World.attemptUpdate` — one attempt.
* `World.updateCell` — attempts until one is not overtaken, with the number of calls.

## Main results

* `World.attemptUpdate_commit` — an attempt that is not overtaken replaces exactly
  the value its function has seen.
-/

namespace Fibers

/-- What one attempt to update a cell leads to. -/
inductive Attempt where
  /-- The update is over, with a result. -/
  | finished (v : Value)
  /-- The function panicked. -/
  | panicked (d : Defect)
  /-- The cell was written to in the meantime. -/
  | overtaken

namespace World

/-- Replaces a cell. -/
def setCell (w : World) (cell : CellId) (c : Cell Value) : World :=
  { w with store := { w.store with cells := w.store.cells.modify cell.index fun _ => c } }

/-- Writes what an update function has made of a snapshot with the given version. -/
def commitUpdate (w : World) (cell : CellId) (version : Nat) (update : Update Value) :
    Attempt × World :=
  match update.next with
  | none => (.finished update.result, w)
  | some v =>
    match (w.store.cell? cell).bind fun current => current.commit version v with
    | none => (.overtaken, w)
    | some written => (.finished update.result, w.setCell cell written)

/-- One attempt to update a cell. -/
def attemptUpdate (w : World) (cell : CellId) (f : Value → Action (Update Value)) :
    Attempt × World :=
  match w.store.cell? cell with
  | none => (.finished .unit, w)
  | some c =>
    match (f c.value).run w with
    | (.error d, w) => (.panicked d, w)
    | (.ok update, w) => w.commitUpdate cell c.version update

/-- Attempts to update a cell, at most as many as given, until one is not overtaken;
the function is told how often it has been called.  The result, if there is one, and
the number of calls. -/
def updateCell (cell : CellId) (f : Nat → Value → Action (Update Value)) :
    Nat → Nat → World → Option (Except Defect Value) × Nat × World
  | 0, calls, w => (none, calls, w)
  | n + 1, calls, w =>
    match w.attemptUpdate cell (f calls) with
    | (.finished v, w) => (some (.ok v), calls + 1, w)
    | (.panicked d, w) => (some (.error d), calls + 1, w)
    | (.overtaken, w) => updateCell cell f n (calls + 1) w

/-- An attempt whose function has not touched the cell replaces exactly the value the
function has seen. -/
theorem attemptUpdate_commit {w w' : World} {cell : CellId} {c : Cell Value}
    {f : Value → Action (Update Value)} {result v : Value} (hc : w.store.cell? cell = some c)
    (hf : (f c.value).run w = (.ok ⟨result, some v⟩, w'))
    (hsame : w'.store.cell? cell = some c) :
    w.attemptUpdate cell f = (.finished result, w'.setCell cell (c.write v)) := by
  simp [attemptUpdate, commitUpdate, hc, hf, hsame]

end World

end Fibers
