/-!
# Shared cells

A cell holds a value and counts the writes it has seen.  A read-modify-write
works on a snapshot and commits only if no write has happened since, so that
every committed update has seen exactly the value it replaces; an update that
comes too late is tried again on a fresh snapshot.

## Main definitions

* `Cell` — a value and the number of writes.
* `Cell.write` — an unconditional write.
* `Cell.commit` — a write that goes through only if no other came first.
* `Update` — what an update function makes of a snapshot.

## Main results

* `Cell.commit_version`, `Cell.commit_eq_none_iff` — a commit goes through
  exactly when the version is the one of the snapshot.
-/

namespace Fibers

/-- A shared value. -/
structure Cell (α : Type) where
  /-- How many writes there have been. -/
  version : Nat
  /-- The last value written. -/
  value : α
  deriving DecidableEq, Repr, Inhabited

/-- What an update function makes of a snapshot: its result, and the value to
write unless it leaves the cell alone. -/
structure Update (α : Type) where
  /-- The result of the update. -/
  result : α
  /-- The value to write, if there is one. -/
  next : Option α
  deriving DecidableEq, Repr, Inhabited

namespace Cell

variable {α : Type}

/-- A cell nobody has written to. -/
def new (value : α) : Cell α := ⟨0, value⟩

/-- Replaces the value. -/
def write (c : Cell α) (value : α) : Cell α := ⟨c.version + 1, value⟩

/-- Replaces the value if the cell still has the given version. -/
def commit (c : Cell α) (version : Nat) (value : α) : Option (Cell α) :=
  if c.version = version then some (c.write value) else none

@[simp] theorem commit_version (c : Cell α) (value : α) :
    c.commit c.version value = some (c.write value) := by simp [commit]

theorem commit_eq_none_iff (c : Cell α) (version : Nat) (value : α) :
    c.commit version value = none ↔ c.version ≠ version := by simp [commit]

/-- The text of a cell when its structure is shown. -/
def debug (c : Cell α) (value : α → String) : String :=
  s!"Ref \x7b version: {c.version}, value: {value c.value} \x7d"

end Cell

end Fibers
