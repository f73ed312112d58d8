import Fibers.Instruction

/-!
# Effects

An effect describes a computation that needs an environment, may fail with
failures of a declared type, and ends with a value.  It is an instruction whose
failures are known to have that type; describing an effect does nothing, and the
same description can be carried out any number of times.

Continuations are actions, so code of the program can be part of them; a panic in
it is a defect of the effect.  `Carried` says how data of other types travels as
a value: a continuation that gets something else ends with a defect.

## Main definitions

* `Effect` — effects with failures of a given type.
* `Carried`, `Effect.chainAs` — continuations on data of a given type.
* `Effect.succeed`, `Effect.ofExit`, `Effect.halt`, `Effect.die`, `Effect.sync` and
  the other ways to make an effect that does not depend on another one.
* `Effect.chain`, `Effect.map`, `Effect.zipWith`, `Effect.collectAll`,
  `Effect.forever` and the other sequences.
-/

namespace Fibers

/-- Effects with failures of the given type. -/
def Effect (_type : ErrorType) : Type := Instruction

/-- Data that travels as a value. -/
class Carried (α : Type) where
  /-- The name of the type. -/
  name : String
  /-- The value that stands for the data. -/
  toValue : α → Value
  /-- The data that a value stands for. -/
  ofValue? : Value → Option α

instance : Carried Unit := ⟨"Unit", fun _ => .unit, fun | .unit => some () | _ => none⟩

instance : Carried Bool := ⟨"Bool", .bool, fun | .bool b => some b | _ => none⟩

instance : Carried (Exit Value Value) :=
  ⟨"Exit", .exit, fun | .exit x => some x | _ => none⟩

instance : Carried (List Value) := ⟨"List", .list, fun | .list vs => some vs | _ => none⟩

namespace Effect

variable {ε ε' : ErrorType}

/-! ### Effects that do not depend on others -/

/-- Ends with a value. -/
def succeed (v : Value) : Effect ε := Instruction.value v

/-- Ends without information. -/
def unit : Effect ε := succeed .unit

/-- Ends with data that travels as a value. -/
def give {α : Type} [Carried α] (a : α) : Effect ε := succeed (Carried.toValue a)

/-- Ends as an exit says. -/
def ofExit (x : Exit Value Value) : Effect ε := Instruction.done (x.tag ε)

/-- Ends with a failure and what happened alongside. -/
def halt (h : Halt Value) : Effect ε := ofExit (.halt h)

/-- Ends with a cause. -/
def haltCause (c : Cause Value) : Effect ε := halt (.of c)

/-- Ends with an expected failure. -/
def fail (v : Value) : Effect ε := haltCause (.fail v)

/-- Ends with a defect. -/
def die (d : Defect) : Effect ε := Instruction.die d

/-- Ends with the defect that a program asks for. -/
def dieMessage (message : String) : Effect ε := die (.explicit message)

/-- Ends with the outcome of an attempt. -/
def ofExcept (r : Except Value Value) : Effect ε := ofExit (.ofExcept r)

/-- Carries out an action. -/
def sync (action : Action Value) : Effect ε :=
  Instruction.sync (action >>= fun v => pure (.done v))

/-- Carries out an action that can fail as expected. -/
def trySync (action : Action (Except Value Value)) : Effect ε :=
  Instruction.sync (action >>= fun r => pure ((Exit.ofExcept r).tag ε))

/-- Describes an effect only when it is carried out. -/
def suspend (build : Action (Effect ε)) : Effect ε := Instruction.suspend build

/-- The identity of the fiber. -/
def fiberId : Effect ε := Instruction.descriptor fun id => pure (.value (.id id))

/-- Lets other fibers go first. -/
def yieldNow : Effect ε := Instruction.yield

/-! ### Sequences -/

/-- Continues with the value. -/
def chain (e : Effect ε) (next : Value → Action (Effect ε)) : Effect ε :=
  Instruction.chain e next

/-- What a continuation does with a value that should stand for data: a value that
does not is a defect. -/
def expecting {α : Type} [Carried α] (next : α → Action (Effect ε)) (v : Value) :
    Action (Effect ε) :=
  match Carried.ofValue? v with
  | some a => next a
  | none => pure (die (.mismatch "value" (Carried.name α)))

/-- Continues with the data that the value stands for. -/
def chainAs {α : Type} [Carried α] (e : Effect ε) (next : α → Action (Effect ε)) : Effect ε :=
  e.chain (expecting next)

/-- Transforms the value. -/
def map (e : Effect ε) (f : Value → Action Value) : Effect ε :=
  e.chain fun v => do
    let b ← f v
    pure (succeed b)

/-- Replaces the value. -/
def as (e : Effect ε) (v : Value) : Effect ε := e.map fun _ => pure v

/-- Drops the value. -/
def asUnit (e : Effect ε) : Effect ε := e.as .unit

/-- Both in order, with a combination of their values. -/
def zipWith (a b : Effect ε) (f : Value → Value → Action Value) : Effect ε :=
  a.chain fun x => pure (b.map fun y => f x y)

/-- Both in order, with the pair of their values. -/
def zip (a b : Effect ε) : Effect ε := a.zipWith b fun x y => pure (.pair x y)

/-- Both in order, with the value of the first. -/
def zipLeft (a b : Effect ε) : Effect ε := a.zipWith b fun x _ => pure x

/-- Both in order, with the value of the second. -/
def zipRight (a b : Effect ε) : Effect ε := a.chain fun _ => pure b

/-- Continues with the value, and keeps it. -/
def tap (e : Effect ε) (next : Value → Action (Effect ε)) : Effect ε :=
  e.chain fun v => do
    let after ← next v
    pure (after.as v)

/-- Over and over again, until it fails. -/
def forever (e : Effect ε) : Effect ε :=
  Instruction.loop .unit fun _ => pure (e.as (.err .unit))

/-- Once, and the given number of times more; the value is the last one. -/
def repeatN (e : Effect ε) : Nat → Effect ε
  | 0 => e
  | n + 1 => e.chain fun _ => pure (suspend (pure (e.repeatN n)))

/-- All in order, after the given values. -/
def collectAfter (values : List Value) : List (Effect ε) → Effect ε
  | [] => give values
  | e :: es => e.chain fun v => pure (collectAfter (values ++ [v]) es)

/-- All in order, with the list of their values. -/
def collectAll (es : List (Effect ε)) : Effect ε := suspend (pure (collectAfter [] es))

/-- Where describing an effect panics, it is the effect of that defect. -/
def guarded (build : Action (Effect ε)) : Action (Effect ε) := build.recover die

/-- May be carried out once, as told by a mark made for it. -/
def once (mark : Nat) (e : Effect ε) : Effect ε :=
  suspend do
    let isFirst ← Action.useMark mark
    if isFirst then pure e
    else pure (die (.runtime "one-shot effect evaluated more than once"))

end Effect

end Fibers
