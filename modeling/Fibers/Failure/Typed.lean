import Fibers.Value

/-!
# Failures with their types

The failures of an effect have a declared type.  While a failure travels through
the interpreter it carries that type along, so that a handler can tell a failure
of its own type from any other; outside of the interpreter the type is known from
the effect, and the failure is just a value.

## Main definitions

* `ErrorType`, `Failure` — a type of failures, and a failure with its type.
* `Outcome` — an exit as the interpreter sees it.
* `Halt.tag`, `Exit.tag` — entering the interpreter at a type.
* `Halt.untag`, `Exit.untag` — leaving it at a type.
* `Halt.retype`, `Halt.discard` — what becomes of failures that cannot be held.
-/

namespace Fibers

/-- A type of expected failures, known by its name. -/
structure ErrorType where
  /-- The name. -/
  name : String
  deriving DecidableEq, Repr, Inhabited

/-- An expected failure with its type. -/
structure Failure where
  /-- The type it was declared with. -/
  type : ErrorType
  /-- What it says. -/
  value : Value
  deriving Inhabited

/-- How a computation ended, as the interpreter sees it. -/
abbrev Outcome := Exit Failure Value

/-- The defect of a value or failure that is not of the type expected. -/
def Defect.mismatch (what expected : String) : Defect :=
  .runtime s!"{what} type mismatch: expected {expected}"

namespace Halt

/-- The halt of an effect whose failures have the given type. -/
def tag (type : ErrorType) (h : Halt Value) : Halt Failure := h.map fun v => ⟨type, v⟩

/-- The halt as an effect with failures of the given type reports it: a failure
of any other type is a defect. -/
def untag (type : ErrorType) (h : Halt Failure) : Halt Value :=
  h.flatMap fun e =>
    if e.type = type then .fail e.value else .die (.mismatch "failure" type.name)

/-- Puts a defect in the place of every expected failure. -/
def discard (reason : String) (h : Halt Failure) : Halt Failure :=
  h.flatMap fun _ => .die (.runtime reason)

/-- The halt of an effect with failures of type `source`, passed on by a handler
whose failures have type `target`: only equal types can hold each other's
failures. -/
def retype (source target : ErrorType) (h : Halt Failure) : Halt Failure :=
  if source = target then h
  else
    h.discard s!"typed failure of {source.name} cannot be held by a handler of {target.name}"

end Halt

namespace Exit

/-- The exit of an effect whose failures have the given type. -/
def tag (type : ErrorType) : Exit Value Value → Outcome
  | .done v => .done v
  | .halt h => .halt (h.tag type)

/-- The exit as an effect with failures of the given type reports it. -/
def untag (type : ErrorType) : Outcome → Exit Value Value
  | .done v => .done v
  | .halt h => .halt (h.untag type)

end Exit

end Fibers
