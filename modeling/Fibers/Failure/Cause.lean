import Fibers.Identity
import Fibers.Failure.Defect

/-!
# Causes

A cause is a tree that says why a computation did not produce a value.  Its
leaves are expected failures, defects and interruptions; its inner nodes say how
several of them relate, one after the other or side by side.

Nothing that combines causes drops a leaf: only `Cause.empty`, the unit of both
combinations, is left out.  Queries read the leaves from left to right by
`Cause.walk`, which keeps the nodes still to be visited on a list of its own, so
that the depth of a tree costs no depth of recursion; `Cause.leaves` is what it
computes.

## Main definitions

* `Cause`, and `Leaf` for its leaves other than `Cause.empty`.
* `Cause.andThen`, `Cause.alongside` — the combinations that leave out `empty`.
* `Cause.walk`, `Cause.leaves` — the nodes in the order they are visited, and
  the leaves from left to right.
* `Cause.flatMap`, `Cause.map` — substitution for the expected failures, and
  `Cause.flatMapM` where the substitution has effects.

## Main results

* `Cause.filterMap_walk` — walking a tree meets its leaves from left to right.
* `Cause.leaves_flatMap` — substitution acts leaf by leaf.
* `Cause.flatMapM_pure` — without effects, `flatMapM` is `flatMap`.
-/

namespace Fibers

/-- Why a computation did not produce a value. -/
inductive Cause (ε : Type) where
  /-- No failure: the unit of both combinations. -/
  | empty
  /-- An expected, typed, recoverable failure. -/
  | fail (error : ε)
  /-- An unexpected failure. -/
  | die (defect : Defect)
  /-- A cancellation requested by the given fiber. -/
  | interrupt (source : FiberId)
  /-- The left cause happened before the right one. -/
  | seq (left right : Cause ε)
  /-- Both causes happened, in no defined order. -/
  | par (left right : Cause ε)
  deriving DecidableEq, Repr, Inhabited

/-- A leaf of a cause that records something. -/
inductive Leaf (ε : Type) where
  /-- An expected failure. -/
  | fail (error : ε)
  /-- A defect. -/
  | die (defect : Defect)
  /-- A cancellation. -/
  | interrupt (source : FiberId)
  deriving DecidableEq, Repr, Inhabited

namespace Leaf

variable {ε : Type}

/-- The failure a leaf records, if it records one. -/
def failure? : Leaf ε → Option ε
  | .fail e => some e
  | _ => none

/-- The defect a leaf records, if it records one. -/
def defect? : Leaf ε → Option Defect
  | .die d => some d
  | _ => none

/-- The fiber that asked for the cancellation a leaf records, if it records one. -/
def interruptor? : Leaf ε → Option FiberId
  | .interrupt id => some id
  | _ => none

/-- Whether a leaf records a cancellation. -/
def isInterrupt (leaf : Leaf ε) : Bool := leaf.interruptor?.isSome

end Leaf

namespace Cause

variable {ε ε' ε'' : Type}

/-! ### Combination -/

/-- `left`, then `right`; an empty side is left out. -/
def andThen : Cause ε → Cause ε → Cause ε
  | .empty, right => right
  | left, .empty => left
  | left, right => .seq left right

/-- `left` and `right` at once; an empty side is left out. -/
def alongside : Cause ε → Cause ε → Cause ε
  | .empty, right => right
  | left, .empty => left
  | left, right => .par left right

/-! ### Visiting a tree -/

/-- The number of nodes of a cause. -/
def nodeCount : Cause ε → Nat
  | .seq left right => left.nodeCount + right.nodeCount + 1
  | .par left right => left.nodeCount + right.nodeCount + 1
  | _ => 1

theorem nodeCount_pos (c : Cause ε) : 0 < c.nodeCount := by
  cases c <;> simp [nodeCount]

/-- The nodes of the trees in `pending`, a node before its children and the left
child before the right one. -/
def walk (pending : List (Cause ε)) : List (Cause ε) :=
  match pending with
  | [] => []
  | .seq left right :: rest => .seq left right :: walk (left :: right :: rest)
  | .par left right :: rest => .par left right :: walk (left :: right :: rest)
  | leaf :: rest => leaf :: walk rest
termination_by pending.foldr (fun c n => c.nodeCount + n) 0
decreasing_by
  all_goals simp only [List.foldr_cons, nodeCount]
  · omega
  · omega
  · have := nodeCount_pos leaf
    omega

/-- What a node records by itself. -/
def leaf? : Cause ε → Option (Leaf ε)
  | .fail e => some (.fail e)
  | .die d => some (.die d)
  | .interrupt id => some (.interrupt id)
  | _ => none

/-- The leaves of a cause that record something, from left to right. -/
def leaves : Cause ε → List (Leaf ε)
  | .empty => []
  | .fail e => [.fail e]
  | .die d => [.die d]
  | .interrupt id => [.interrupt id]
  | .seq left right => left.leaves ++ right.leaves
  | .par left right => left.leaves ++ right.leaves

/-- Walking trees meets the leaves of the first, then those of the next. -/
theorem filterMap_walk (pending : List (Cause ε)) :
    (walk pending).filterMap leaf? = pending.flatMap leaves := by
  fun_induction walk pending with
  | case1 => rfl
  | case2 left right rest ih => simpa [List.filterMap_cons, leaf?, leaves] using ih
  | case3 left right rest ih => simpa [List.filterMap_cons, leaf?, leaves] using ih
  | case4 node rest hseq hpar ih =>
    cases node with
    | seq left right => exact absurd rfl (hseq left right)
    | par left right => exact absurd rfl (hpar left right)
    | _ => simp [List.filterMap_cons, leaf?, leaves, ih]

/-! ### Queries -/

/-- The leaves in the order in which a walk over the tree meets them. -/
def visited (c : Cause ε) : List (Leaf ε) := (walk [c]).filterMap leaf?

@[simp] theorem visited_eq_leaves (c : Cause ε) : c.visited = c.leaves := by
  simp [visited, filterMap_walk]

/-- Whether the tree records nothing. -/
def isEmpty (c : Cause ε) : Bool := c.visited.isEmpty

/-- How many leaves record something. -/
def size (c : Cause ε) : Nat := c.visited.length

/-- The expected failures, from left to right. -/
def failures (c : Cause ε) : List ε := c.visited.filterMap Leaf.failure?

/-- The defects, from left to right. -/
def defects (c : Cause ε) : List Defect := c.visited.filterMap Leaf.defect?

/-- The different fibers that asked for a cancellation recorded here, in the
order of their creation. -/
def interruptors (c : Cause ε) : List FiberId :=
  FiberId.sortDistinct (c.visited.filterMap Leaf.interruptor?)

/-- The leftmost expected failure. -/
def firstFailure (c : Cause ε) : Option ε := c.failures.head?

/-- Whether an expected failure is recorded. -/
def isFailure (c : Cause ε) : Bool := c.firstFailure.isSome

/-- Whether a defect is recorded. -/
def isDie (c : Cause ε) : Bool := !c.defects.isEmpty

/-- Whether a cancellation is recorded. -/
def isInterrupted (c : Cause ε) : Bool := c.visited.any Leaf.isInterrupt

/-- Whether cancellations are recorded and nothing else. -/
def isInterruptedOnly (c : Cause ε) : Bool :=
  c.visited.any Leaf.isInterrupt && c.visited.all Leaf.isInterrupt

/-- Whether `other` records nothing or is a subtree of `c`. -/
def contains [DecidableEq ε] (c other : Cause ε) : Bool :=
  other.isEmpty || (walk [c]).contains other

/-- The same tree with what the expected failures say transformed. -/
def relabel (f : ε → ε') : Cause ε → Cause ε'
  | .empty => .empty
  | .fail e => .fail (f e)
  | .die d => .die d
  | .interrupt id => .interrupt id
  | .seq left right => .seq (left.relabel f) (right.relabel f)
  | .par left right => .par (left.relabel f) (right.relabel f)

/-- The first expected failure met on the way through the trees in `pending`. -/
def seekFailure (pending : List (Cause ε)) : Option ε :=
  (walk pending).findSome? fun node => node.leaf?.bind Leaf.failure?

/-- The leftmost expected failure, or the cause itself where it records none:
the point at which a program recovers. -/
def failureOrCause (c : Cause ε) : Except (Cause ε) ε :=
  if c.isFailure then
    match seekFailure [c] with
    | some e => .ok e
    | none => .error (.die (.runtime "cause reported a failure it does not hold"))
  else .error c

/-! ### Substitution for the expected failures -/

/-- Puts the cause `f e` in the place of every expected failure `e`. -/
def flatMap (f : ε → Cause ε') : Cause ε → Cause ε'
  | .empty => .empty
  | .fail e => f e
  | .die d => .die d
  | .interrupt id => .interrupt id
  | .seq left right => (left.flatMap f).andThen (right.flatMap f)
  | .par left right => (left.flatMap f).alongside (right.flatMap f)

/-- `flatMap` for a substitution with effects, which happen from left to right,
once for every expected failure. -/
def flatMapM {m : Type → Type} [Monad m] (f : ε → m (Cause ε')) : Cause ε → m (Cause ε')
  | .empty => pure .empty
  | .fail e => f e
  | .die d => pure (.die d)
  | .interrupt id => pure (.interrupt id)
  | .seq left right => do
    let left ← left.flatMapM f
    let right ← right.flatMapM f
    pure (left.andThen right)
  | .par left right => do
    let left ← left.flatMapM f
    let right ← right.flatMapM f
    pure (left.alongside right)

/-- Transforms every expected failure. -/
def map (f : ε → ε') (c : Cause ε) : Cause ε' := c.flatMap fun e => .fail (f e)

/-- Drops the expected failures. -/
def stripFailures (c : Cause ε) : Cause ε := c.flatMap fun _ => .empty

/-! ### Leaves of combinations -/

@[simp] theorem leaves_andThen (left right : Cause ε) :
    (left.andThen right).leaves = left.leaves ++ right.leaves := by
  unfold andThen
  split <;> simp [leaves]

@[simp] theorem leaves_alongside (left right : Cause ε) :
    (left.alongside right).leaves = left.leaves ++ right.leaves := by
  unfold alongside
  split <;> simp [leaves]

/-- The leaves that a substitution puts in the place of one leaf. -/
def substituted (f : ε → Cause ε') : Leaf ε → List (Leaf ε')
  | .fail e => (f e).leaves
  | .die d => [.die d]
  | .interrupt id => [.interrupt id]

/-- Substitution acts leaf by leaf. -/
theorem leaves_flatMap (f : ε → Cause ε') (c : Cause ε) :
    (c.flatMap f).leaves = c.leaves.flatMap (substituted f) := by
  induction c with
  | empty => rfl
  | fail e => simp [flatMap, leaves, substituted]
  | die d => rfl
  | interrupt id => rfl
  | seq left right ihl ihr => simp [flatMap, leaves, ihl, ihr]
  | par left right ihl ihr => simp [flatMap, leaves, ihl, ihr]

/-- A substitution without effects is `flatMap`. -/
theorem flatMapM_pure {m : Type → Type} [Monad m] [LawfulMonad m] (f : ε → Cause ε')
    (c : Cause ε) : c.flatMapM (fun e => (pure (f e) : m (Cause ε'))) = pure (c.flatMap f) := by
  induction c with
  | seq left right ihl ihr => simp [flatMapM, flatMap, ihl, ihr]
  | par left right ihl ihr => simp [flatMapM, flatMap, ihl, ihr]
  | _ => rfl

/-! ### Text -/

/-- The text of a cause, given those of a fiber and of an expected failure. -/
def display (fiber : FiberId → String) (error : ε → String) : Cause ε → String
  | .empty => "Empty"
  | .fail e => s!"Fail({error e})"
  | .die d => s!"Die({d.display})"
  | .interrupt id => s!"Interrupt({fiber id})"
  | .seq left right => s!"({left.display fiber error} ; {right.display fiber error})"
  | .par left right => s!"({left.display fiber error} | {right.display fiber error})"

end Cause

end Fibers
