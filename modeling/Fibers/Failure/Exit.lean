import Fibers.Failure.Cause

/-!
# Exits

An exit is what a fiber leaves behind: a value, or a halt.  A halt has a primary
cause, which is what handlers see, and an ordered list of the causes that
happened alongside it, mostly in finalizers, and must not be lost.

`Exit.withFinalizer` is the one rule that merges the exit of an action with the
exit of its clean-up: a clean-up never replaces the failure of the action, and a
successful action never hides the failure of its clean-up.

## Main definitions

* `Halt`, with `Halt.append` and `Halt.intoCause`.
* `Exit`, with `Exit.withFinalizer`.
* `Halt.leaves`, `Exit.leaves` — everything recorded, in order.

## Main results

* `Halt.leaves_append` — appending a halt loses nothing.
-/

namespace Fibers

/-- The failure side of an exit. -/
structure Halt (ε : Type) where
  /-- The cause that handlers see. -/
  cause : Cause ε
  /-- What happened alongside, oldest first. -/
  remaining : List (Cause ε)
  deriving DecidableEq, Repr, Inhabited

namespace Halt

variable {ε ε' : Type}

/-- A halt with nothing alongside. -/
def of (cause : Cause ε) : Halt ε := ⟨cause, []⟩

/-- Records one more cause alongside, unless it is empty. -/
def withRemaining (h : Halt ε) (c : Cause ε) : Halt ε :=
  if c.isEmpty then h else ⟨h.cause, h.remaining ++ [c]⟩

/-- Records another halt alongside: its primary cause, then what it had recorded
alongside itself. -/
def append (h other : Halt ε) : Halt ε :=
  let joined := h.withRemaining other.cause
  ⟨joined.cause, joined.remaining ++ other.remaining.filter fun c => !c.isEmpty⟩

/-- The primary cause, then the others. -/
def causes (h : Halt ε) : List (Cause ε) := h.cause :: h.remaining

/-- Everything recorded, as one cause in sequence. -/
def intoCause (h : Halt ε) : Cause ε := h.remaining.foldl Cause.andThen h.cause

/-- Whether the primary cause records a cancellation. -/
def isInterrupted (h : Halt ε) : Bool := h.cause.isInterrupted

/-- Puts a cause in the place of every expected failure, in every cause. -/
def flatMap (f : ε → Cause ε') (h : Halt ε) : Halt ε' :=
  ⟨h.cause.flatMap f, h.remaining.map (·.flatMap f)⟩

/-- `flatMap` for a substitution with effects, the primary cause first. -/
def flatMapM {m : Type → Type} [Monad m] (f : ε → m (Cause ε')) (h : Halt ε) : m (Halt ε') := do
  let cause ← h.cause.flatMapM f
  let remaining ← h.remaining.mapM (·.flatMapM f)
  pure ⟨cause, remaining⟩

/-- Transforms every expected failure, in every cause. -/
def map (f : ε → ε') (h : Halt ε) : Halt ε' := h.flatMap fun e => .fail (f e)

/-- All leaves that record something: those of the primary cause, then those of
the others in order. -/
def leaves (h : Halt ε) : List (Leaf ε) := h.causes.flatMap Cause.leaves

/-- The expected failures of every cause, in order. -/
def failures (h : Halt ε) : List ε := h.causes.flatMap Cause.failures

/-! ### Leaves of combinations -/

theorem leaves_eq_nil_of_isEmpty {c : Cause ε} (h : c.isEmpty = true) : c.leaves = [] := by
  simpa [Cause.isEmpty] using h

@[simp] theorem leaves_withRemaining (h : Halt ε) (c : Cause ε) :
    (h.withRemaining c).leaves = h.leaves ++ c.leaves := by
  unfold withRemaining
  split
  · next hc => simp [leaves_eq_nil_of_isEmpty hc]
  · simp [leaves, causes]

theorem flatMap_leaves_filter (cs : List (Cause ε)) :
    (cs.filter fun c => !c.isEmpty).flatMap Cause.leaves = cs.flatMap Cause.leaves := by
  induction cs with
  | nil => rfl
  | cons c cs ih =>
    by_cases hc : c.isEmpty
    · simp [hc, ih, leaves_eq_nil_of_isEmpty hc]
    · simp [hc, ih]

/-- Appending a halt loses nothing that either recorded. -/
@[simp] theorem leaves_append (h other : Halt ε) :
    (h.append other).leaves = h.leaves ++ other.leaves := by
  have hjoin := leaves_withRemaining h other.cause
  simp only [leaves, causes, append, List.flatMap_cons, List.flatMap_append,
    flatMap_leaves_filter] at hjoin ⊢
  rw [← List.append_assoc, hjoin]
  simp

end Halt

/-- How a computation ended. -/
inductive Exit (ε α : Type) where
  /-- With a value. -/
  | done (value : α)
  /-- With a failure. -/
  | halt (halt : Halt ε)
  deriving DecidableEq, Repr, Inhabited

namespace Exit

variable {ε ε' α β : Type}

/-- The exit halted by one cause. -/
def ofCause (c : Cause ε) : Exit ε α := .halt (.of c)

/-- The exit halted by an expected failure. -/
def fail (e : ε) : Exit ε α := ofCause (.fail e)

/-- The exit halted by a defect. -/
def die (d : Defect) : Exit ε α := ofCause (.die d)

/-- The exit halted by a cancellation. -/
def interrupt (source : FiberId) : Exit ε α := ofCause (.interrupt source)

/-- The exit of a computation that can only fail as expected. -/
def ofExcept : Except ε α → Exit ε α
  | .ok a => .done a
  | .error e => fail e

/-- Whether there is a value. -/
def isDone : Exit ε α → Bool
  | .done _ => true
  | .halt _ => false

/-- Whether there is a failure. -/
def isHalt : Exit ε α → Bool
  | .done _ => false
  | .halt _ => true

/-- Whether the primary cause records a cancellation. -/
def isInterrupted : Exit ε α → Bool
  | .done _ => false
  | .halt h => h.isInterrupted

/-- The value, if there is one. -/
def value? : Exit ε α → Option α
  | .done a => some a
  | .halt _ => none

/-- The failure, if there is one. -/
def halt? : Exit ε α → Option (Halt ε)
  | .done _ => none
  | .halt h => some h

/-- The primary cause, if there is a failure. -/
def cause? (x : Exit ε α) : Option (Cause ε) := x.halt?.map Halt.cause

/-- Transforms the value. -/
def map (f : α → β) : Exit ε α → Exit ε β
  | .done a => .done (f a)
  | .halt h => .halt h

/-- Transforms every expected failure. -/
def mapError (f : ε → ε') : Exit ε α → Exit ε' α
  | .done a => .done a
  | .halt h => .halt (h.map f)

/-- The exit without its value: what finalizers are shown. -/
def asUnit (x : Exit ε α) : Exit ε Unit := x.map fun _ => ()

/-- The value, or the whole failure. -/
def toExcept : Exit ε α → Except (Halt ε) α
  | .done a => .ok a
  | .halt h => .error h

/-- Everything a failure records; a success records nothing. -/
def leaves : Exit ε α → List (Leaf ε)
  | .done _ => []
  | .halt h => h.leaves

/-- The exit of an action merged with the exit of its clean-up. -/
def withFinalizer : Exit ε α → Exit ε β → Exit ε α
  | .done a, .done _ => .done a
  | .done _, .halt h => .halt h
  | .halt h, .done _ => .halt h
  | .halt h, .halt cleanup => .halt (h.append cleanup)

@[simp] theorem withFinalizer_done (x : Exit ε α) (b : β) : x.withFinalizer (.done b) = x := by
  cases x <;> rfl

@[simp] theorem done_withFinalizer_halt (a : α) (h : Halt ε) :
    (Exit.done a : Exit ε α).withFinalizer (.halt h : Exit ε β) = .halt h := rfl

@[simp] theorem halt_withFinalizer_halt (h cleanup : Halt ε) :
    (Exit.halt h : Exit ε α).withFinalizer (.halt cleanup : Exit ε β) =
      .halt (h.append cleanup) := rfl

end Exit

end Fibers
