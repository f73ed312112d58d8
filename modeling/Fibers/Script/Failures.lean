import Fibers.Machine.Operations
import Fibers.Script.Expr

/-!
# Failures in scripts

Scripts can take causes and halts apart without running anything.  A table says what
to put in the place of some expected failures; those it does not mention stay as they
are.

## Main definitions

* `outside` — evaluating where nothing runs.
* `Table`, `Table.substitute` — tables, and what they make of a cause.
* `HaltStep`, `HaltStep.apply` — what can be done to a halt.
-/

namespace Fibers.Script

/-- The result of an action where nothing runs, or the defect of its panic; the given
number of fiber identities were minted. -/
def outside {α : Type} (minted : Nat) (action : Action α) : Except Defect α :=
  (action.run (.init minted)).1

/-- The causes that replace some failures. -/
abbrev Table := List (Value × Cause Value)

/-- The expressions of a table. -/
abbrev TableExpr := List (Expr × CauseExpr)

/-- The table of expressions. -/
def TableExpr.eval (scope : Scope) (rows : TableExpr) : Action Table :=
  rows.mapM fun row => do
    let v ← row.1.eval scope
    let c ← row.2.eval scope
    pure (v, c)

namespace Table

/-- The cause that replaces a failure: that of the first row with the same text. -/
def replacement (r : Reading) (table : Table) (v : Value) : Cause Value :=
  match table.find? fun row => row.1.render r == v.render r with
  | some row => row.2
  | none => .fail v

/-- Replaces the failures of a cause; also lists them in the order in which they were
looked up. -/
def substitute (r : Reading) (table : Table) (c : Cause Value) : Cause Value × List Value :=
  let lookUp : Value → StateM (List Value) (Cause Value) := fun v => do
    modify fun seen => seen ++ [v]
    pure (table.replacement r v)
  (c.flatMapM lookUp).run []

end Table

/-- A value as a list of its own. -/
def boxed (v : Value) : Value := .list [v]

/-- What can be done to a halt. -/
inductive HaltStep where
  /-- Record one more cause alongside. -/
  | withRemaining (c : Cause Value)
  /-- Record another halt alongside. -/
  | append (h : Halt Value)
  /-- Box every expected failure. -/
  | box
  /-- Replace expected failures by a table. -/
  | substitute (table : Table)
  /-- Make one cause of everything recorded. -/
  | flatten

/-- The halt after a step. -/
def HaltStep.apply (r : Reading) (h : Halt Value) : HaltStep → Halt Value
  | .withRemaining c => h.withRemaining c
  | .append other => h.append other
  | .box => h.map boxed
  | .substitute table => h.flatMap (table.replacement r)
  | .flatten => .of h.intoCause

/-- A halt, and what it is after each of several steps. -/
def haltStates (r : Reading) (h : Halt Value) : List HaltStep → List (Halt Value)
  | [] => [h]
  | step :: steps => h :: haltStates r (step.apply r h) steps

/-- The first of several exits, and what it is when each of the others in turn has
been merged into it, or if `flipped` it into the other. -/
def mergeStates (flipped : Bool) (x : Exit Value Value) :
    List (Exit Value Value) → List (Exit Value Value)
  | [] => [x]
  | y :: ys =>
    x :: mergeStates flipped (if flipped then y.withFinalizer x else x.withFinalizer y) ys

end Fibers.Script
