/-!
# Fiber identities

A fiber is known by the number it was created under.  Numbers are handed out in
increasing order and never reused, so they also order fibers by creation; zero
is kept for requests that come from outside of every fiber.

A runtime does not always start at number one: some numbers may have been minted
before it.  `FiberNames` is how such a runtime writes the fibers it knows, the
numbers minted earlier as `p1`, `p2`, … and its own fibers as `f1`, `f2`, … in
the order in which it created them.

## Main definitions

* `FiberId` — the number of a fiber.
* `FiberId.display`, `FiberId.debug` — its two texts, by raw number.
* `FiberNames` — the names a runtime uses for fibers, with `FiberNames.label` and
  `FiberNames.ofLabel?` to write and read them.
-/

namespace Fibers

/-- The number a fiber was created under. -/
structure FiberId where
  /-- The position in the order of creation, zero for no fiber. -/
  raw : Nat
  deriving DecidableEq, Repr, Inhabited

namespace FiberId

/-- The identity that stands for no fiber. -/
def none : FiberId := ⟨0⟩

/-- Whether the identity stands for no fiber. -/
def isNone (id : FiberId) : Bool := id.raw == 0

/-- The text of a fiber in messages. -/
def display (id : FiberId) : String :=
  if id.isNone then "fiber:none" else s!"fiber:{id.raw}"

/-- The text of a fiber when its structure is shown. -/
def debug (id : FiberId) : String := s!"FiberId({id.raw})"

@[simp] theorem isNone_none : FiberId.none.isNone = true := rfl

theorem isNone_iff {id : FiberId} : id.isNone = true ↔ id = FiberId.none := by
  cases id with
  | mk raw => simp [isNone, FiberId.none]

/-- Fibers in the order of creation. -/
def sort (ids : List FiberId) : List FiberId := ids.mergeSort fun a b => a.raw ≤ b.raw

/-- The different fibers of a list, in the order of creation. -/
def sortDistinct (ids : List FiberId) : List FiberId := sort ids.eraseDups

end FiberId

/-- How a runtime names fibers: the first `minted` numbers were handed out before
it created a fiber of its own. -/
structure FiberNames where
  /-- How many numbers were handed out before the first fiber of the runtime. -/
  minted : Nat
  deriving DecidableEq, Repr, Inhabited

namespace FiberNames

/-- The short name of a fiber. -/
def label (names : FiberNames) (id : FiberId) : String :=
  if id.isNone then "none"
  else if id.raw ≤ names.minted then s!"p{id.raw}"
  else s!"f{id.raw - names.minted}"

/-- The text of a fiber in the runtime's messages. -/
def display (names : FiberNames) (id : FiberId) : String := s!"fiber:{names.label id}"

/-- The text of a fiber when its structure is shown by the runtime. -/
def debug (names : FiberNames) (id : FiberId) : String := s!"FiberId({names.label id})"

/-- The `n`-th fiber, counted from one, that the runtime creates. -/
def own (names : FiberNames) (n : Nat) : FiberId := ⟨names.minted + n⟩

/-- The fiber that a short name stands for. -/
def ofLabel? (names : FiberNames) (label : String) : Option FiberId :=
  match label.toList with
  | 'p' :: digits => (String.ofList digits).toNat?.map FiberId.mk
  | 'f' :: digits => (String.ofList digits).toNat?.map names.own
  | _ => if label = "none" then some .none else none

end FiberNames

end Fibers
