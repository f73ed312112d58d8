import Fibers.Machine.Update
import Fibers.Script.Build

/-!
# Trials of cells

One cell is read, written and updated from outside of every fiber.  The function of an
update is an expression in which `x` is the value it has been given, `call` how often
it was called before, and `cell` the cell itself, so it can write to the cell that it
updates.

## Main definitions

* `Trial` — what is done to the cell.
* `TrialReport` — what came of it.
* `trials` — all that is done, in order.
-/

namespace Fibers.Script

/-- What is done to a cell. -/
inductive Trial where
  /-- Read it. -/
  | get
  /-- Write to it. -/
  | set (v : Expr)
  /-- Compute a result and a new value. -/
  | modify (v : Expr)
  /-- Compute a result and a new value, or leave it. -/
  | modifySome (v : Expr)

/-- What came of it. -/
structure TrialReport where
  /-- The text of the result, or the defect of a panic. -/
  result : Except Defect String
  /-- How often the function was called. -/
  calls : Nat
  /-- The text of the cell afterwards. -/
  debug : String

namespace Trial

/-- The names in scope of a function. -/
def scope (cell : CellId) (call : Nat) (v : Value) : Scope :=
  [("x", v), ("call", .int call), ("cell", .cell cell)]

/-- What an update function makes of the value of a cell. -/
def modified (v : Expr) (cell : CellId) (call : Nat) (current : Value) :
    Action (Update Value) := do
  let (result, next) ← v.eval (scope cell call current) >>= pairOf
  pure ⟨result, some next⟩

/-- What an update function makes of the value of a cell, if it makes anything. -/
def modifiedSome (v : Expr) (cell : CellId) (call : Nat) (current : Value) :
    Action (Update Value) := do
  let made ← v.eval (scope cell call current) >>= optionOf
  match made with
  | .none => pure ⟨.none, none⟩
  | .some p => do
    let (result, next) ← pairOf p
    pure ⟨.some result, some next⟩

/-- More attempts than any run that ends in a lifetime can need. -/
def patience : Nat := 1 <<< 62

/-- Updates the cell: the result, the number of calls and the world after that. -/
def update (cell : CellId) (f : Nat → Value → Action (Update Value)) (w : World) :
    Except Defect Value × Nat × World :=
  match World.updateCell cell f patience 0 w with
  | (some result, calls, w) => (result, calls, w)
  | (none, calls, w) => (.error (.runtime "an update was overtaken for ever"), calls, w)

/-- Does what is to be done: the result, the number of calls and the world after
that. -/
def run (cell : CellId) (w : World) : Trial → Except Defect Value × Nat × World
  | .get =>
    let (result, w) := cell.read.run w
    (result, 0, w)
  | .set v =>
    let write : Action Value := do
      let v ← v.eval [("cell", .cell cell)]
      Action.writeCell cell v
      pure .unit
    let (result, w) := write.run w
    (result, 0, w)
  | .modify v => update cell (modified v cell) w
  | .modifySome v => update cell (modifiedSome v cell) w

/-- What came of one trial, and the world after it. -/
def report (cell : CellId) (w : World) (t : Trial) : TrialReport × World :=
  let (result, calls, w) := t.run cell w
  (⟨result.map w.store.render, calls, w.store.debug (.cell cell)⟩, w)

/-- What came of several trials in order. -/
def reports (cell : CellId) (w : World) : List Trial → List TrialReport
  | [] => []
  | t :: ts =>
    let (r, w) := t.report cell w
    r :: reports cell w ts

end Trial

/-- Makes a cell with a value and does all that is to be done to it: the text of the
value, and what came of it. -/
def trials (minted : Nat) (init : Expr) (ts : List Trial) :
    Except Defect (String × List TrialReport) := do
  let make : Action (Value × CellId) := do
    let v ← init.eval []
    let cell ← Action.newCell v
    pure (v, cell)
  let (made, w) := make.run (.init minted)
  let (v, cell) ← made
  pure (w.store.render v, Trial.reports cell w ts)

end Fibers.Script
