import Fibers.Value
import Fibers.Text.Compact

/-!
# The text of values

Every value has one text, in compact data form.  It depends on the state of the
program in two places: the names of fibers, and whether a lease has been
released; `Reading` holds both.  Two values are told apart by their texts only,
so two handles of the same kind read alike.

## Main definitions

* `Reading` — what the text of a value depends on.
* `Value.render` — the text of a value.
* `Exit.render`, `Halt.render`, `Cause.render` — the texts of exits and failures
  whose contents are values.
* `Note`, `Note.render` — an entry of a log, and its text.
-/

namespace Fibers

/-- What the text of a value depends on. -/
structure Reading where
  /-- The names of fibers. -/
  names : FiberNames
  /-- Whether a lease has been released. -/
  released : LeaseId → Bool

namespace Reading

/-- The text of the identity of a fiber. -/
def fiber (r : Reading) (id : FiberId) : String := Compact.quote (r.names.label id)

/-- The text of a defect: its kind, then its message. -/
def defect (d : Defect) : String :=
  let kind := match d.kind with
    | .panic => "panic"
    | .explicit => "explicit"
    | .runtime => "runtime"
  Compact.array [Compact.quote kind, Compact.quote d.message]

end Reading

mutual

/-- The text of a value. -/
def Value.render (r : Reading) : Value → String
  | .unit => "null"
  | .bool b => Compact.bool b
  | .int n => toString n
  | .text s => Compact.quote s
  | .list items => Compact.array (Value.renderAll r items)
  | .none => Compact.object [("none", "true")]
  | .some v => Compact.object [("some", v.render r)]
  | .ok v => Compact.object [("ok", v.render r)]
  | .err v => Compact.object [("err", v.render r)]
  | .exit x => Compact.object [("exit", x.render r)]
  | .id fiber => Compact.object [("id", r.fiber fiber)]
  | .fiber fiber => Compact.object [("fiber", r.fiber fiber)]
  | .cell _ => Compact.object [("ref", "true")]
  | .channel _ => Compact.object [("queue", "true")]
  | .restore _ => Compact.object [("restore", "true")]
  | .lease lease v =>
    Compact.object [("leak", v.render r), ("released", Compact.bool (r.released lease))]
  | .reservation v _ => Compact.object [("reservation", v.render r)]

/-- The texts of values in order. -/
def Value.renderAll (r : Reading) : List Value → List String
  | [] => []
  | v :: vs => v.render r :: Value.renderAll r vs

/-- The text of an exit. -/
def Exit.render (r : Reading) : Exit Value Value → String
  | .done v => Compact.object [("done", v.render r)]
  | .halt h => Compact.object [("halt", h.render r)]

/-- The text of a halt. -/
def Halt.render (r : Reading) : Halt Value → String
  | ⟨cause, remaining⟩ =>
    Compact.object [("cause", cause.render r),
      ("remaining", Compact.array (Cause.renderAll r remaining))]

/-- The texts of causes in order. -/
def Cause.renderAll (r : Reading) : List (Cause Value) → List String
  | [] => []
  | c :: cs => c.render r :: Cause.renderAll r cs

/-- The text of a cause. -/
def Cause.render (r : Reading) : Cause Value → String
  | .empty => Compact.quote "empty"
  | .fail v => Compact.object [("fail", v.render r)]
  | .die d => Compact.object [("die", Reading.defect d)]
  | .interrupt id => Compact.object [("int", r.fiber id)]
  | .seq left right =>
    Compact.object [("then", Compact.array [left.render r, right.render r])]
  | .par left right =>
    Compact.object [("both", Compact.array [left.render r, right.render r])]

end

/-- An entry of a log. -/
inductive Note where
  /-- What a program says. -/
  | said (v : Value)
  /-- A wait was completed; whether the outcome was accepted. -/
  | answered (won : Bool)
  /-- A wait was given up; what its program says to that. -/
  | cancelled (v : Value)
  deriving Inhabited

/-- The text of an entry. -/
def Note.render (r : Reading) : Note → String
  | .said v => v.render r
  | .answered won => Compact.object [("won", Compact.bool won)]
  | .cancelled v => Compact.object [("cancel", v.render r)]

/-- The text of a cause in messages that write fibers by their raw numbers. -/
def Cause.displayRaw (r : Reading) (c : Cause Value) : String :=
  c.display FiberId.display (·.render r)

/-- The message text of every cause of a halt, in order. -/
def Halt.display (r : Reading) (h : Halt Value) : String :=
  String.intercalate ", " (h.causes.map fun c => c.display r.names.display (·.render r))

end Fibers
