/-!
# Worker pools

A pool hands tasks to its workers.  New tasks go into a line that all workers share.
A worker that looks for a task takes the oldest of its own; if it has none it takes
the oldest of the shared line, and some more of that line for itself; if that is
empty it does the same to another worker.  A stopped pool accepts no task, and those
in the shared line are left there.

## Main definitions

* `Pool` — the tasks that wait, by where they wait.
* `Pool.spawn`, `Pool.find?` — giving a task to a pool, and getting one as a worker.
* `Pool.takeOwn`, `Pool.takeShared`, `Pool.takePeer` — the places where a worker looks.
* `Pool.stop`, `Pool.drain` — the end of a pool.

## Main results

* `Pool.spawn_of_stopped` — a stopped pool drops what it is given.
* `Pool.waiting_spawn` — a task given to a running pool waits behind all others.
* `Pool.waiting_of_find?` — a single worker finds the tasks in the order in which they
  wait.
-/

namespace Fibers

/-- The tasks of a pool that wait. -/
structure Pool (τ : Type) where
  /-- Those that any worker can take, oldest first. -/
  shared : List τ
  /-- Those that each worker has taken for itself, oldest first. -/
  own : List (List τ)
  /-- Whether the pool has been stopped. -/
  stopped : Bool := false
  deriving DecidableEq, Repr, Inhabited

namespace Pool

variable {τ : Type}

/-- A pool with the given number of workers. -/
def start (workers : Nat) : Pool τ := ⟨[], List.replicate workers [], false⟩

/-- How many workers there are. -/
def workers (p : Pool τ) : Nat := p.own.length

/-- The tasks that wait: those of the workers, then those that any worker can take. -/
def waiting (p : Pool τ) : List τ := p.own.flatten ++ p.shared

/-- How many tasks wait in the shared line. -/
def queued (p : Pool τ) : Nat := p.shared.length

/-- Puts a task at the end of the shared line. -/
def push (t : τ) (p : Pool τ) : Pool τ := { p with shared := p.shared ++ [t] }

/-- Gives a task to the pool. -/
def spawn (t : τ) (p : Pool τ) : Pool τ := if p.stopped then p else p.push t

@[simp] theorem spawn_of_stopped {p : Pool τ} (h : p.stopped = true) (t : τ) :
    p.spawn t = p := by simp [spawn, h]

@[simp] theorem waiting_spawn {p : Pool τ} (h : p.stopped = false) (t : τ) :
    (p.spawn t).waiting = p.waiting ++ [t] := by
  simp [spawn, push, h, waiting]

/-- The tasks that a worker has for itself. -/
def ownOf (p : Pool τ) (worker : Nat) : List τ := p.own.getD worker []

/-- Replaces the tasks that a worker has for itself. -/
def setOwn (p : Pool τ) (worker : Nat) (tasks : List τ) : Pool τ :=
  { p with own := p.own.set worker tasks }

/-- The oldest task of a line, up to `batch` more, and the rest of the line. -/
def split (batch : Nat) : List τ → Option (τ × List τ × List τ)
  | [] => none
  | t :: rest => some (t, rest.take batch, rest.drop batch)

/-- The oldest task that a worker has for itself. -/
def takeOwn (worker : Nat) (p : Pool τ) : Option (τ × Pool τ) :=
  (split 0 (p.ownOf worker)).map fun (t, _, rest) => (t, p.setOwn worker rest)

/-- The oldest task of the shared line; the worker puts up to `batch` more behind those
that it has for itself. -/
def takeShared (worker batch : Nat) (p : Pool τ) : Option (τ × Pool τ) :=
  (split batch p.shared).map fun (t, taken, rest) =>
    (t, { p with shared := rest }.setOwn worker (p.ownOf worker ++ taken))

/-- The oldest task that another worker has for itself; the worker puts up to `batch` more
behind its own. -/
def takePeer (worker batch peer : Nat) (p : Pool τ) : Option (τ × Pool τ) :=
  (split batch (p.ownOf peer)).map fun (t, taken, rest) =>
    (t, (p.setOwn peer rest).setOwn worker (p.ownOf worker ++ taken))

/-- The others in the order in which a worker turns to them, from some place on. -/
def peers (worker start : Nat) (p : Pool τ) : List Nat :=
  if p.workers < 2 then []
  else
    ((List.range p.workers).map fun offset => (start + offset) % p.workers).filter (· ≠ worker)

/-- The task that a worker finds when it looks for one: one of its own, otherwise one of
the shared line, otherwise one of the others, from `start` on.  Where it has none for
itself, it also takes up to `batch` more for itself. -/
def find? (p : Pool τ) (worker batch start : Nat) : Option (τ × Pool τ) :=
  p.takeOwn worker <|> p.takeShared worker batch <|>
    (p.peers worker start).findSome? fun peer => p.takePeer worker batch peer

/-- A single worker finds the tasks in the order in which they wait. -/
theorem waiting_of_find? {p p' : Pool τ} {t : τ} {batch start : Nat} (hone : p.workers = 1)
    (h : p.find? 0 batch start = some (t, p')) : p.waiting = t :: p'.waiting := by
  obtain ⟨shared, own, stopped⟩ := p
  obtain ⟨mine, rfl⟩ := List.length_eq_one_iff.1 hone
  cases mine with
  | cons a mine =>
    have htake : some (a, (⟨shared, [mine], stopped⟩ : Pool τ)) = some (t, p') := h
    obtain ⟨rfl, rfl⟩ := Prod.mk.inj (Option.some.inj htake)
    simp [waiting]
  | nil =>
    cases shared with
    | cons a shared =>
      have htake : some (a, (⟨shared.drop batch, [shared.take batch], stopped⟩ : Pool τ)) =
          some (t, p') := h
      obtain ⟨rfl, rfl⟩ := Prod.mk.inj (Option.some.inj htake)
      simp [waiting]
    | nil =>
      have hnone : (none : Option (τ × Pool τ)) = some (t, p') := h
      exact absurd hnone (by simp)

/-- Sees to it that no task is accepted any more. -/
def close (p : Pool τ) : Pool τ := { p with stopped := true }

/-- Stops the pool: no task is accepted any more, and workers give up those they have
for themselves. -/
def stop (p : Pool τ) : Pool τ :=
  { p.close with own := p.own.map fun _ => [] }

/-- The oldest task of the shared line, for nobody. -/
def takeLeft (p : Pool τ) : Option (τ × Pool τ) :=
  (split 0 p.shared).map fun (t, _, rest) => (t, { p with shared := rest })

/-- Empties the shared line; says how many tasks there were. -/
def drain (p : Pool τ) : Nat × Pool τ := (p.queued, { p with shared := [] })

/-- The text of a pool when its structure is shown. -/
def debug (p : Pool τ) : String :=
  s!"Scheduler \x7b workers: {p.workers}, queued: {p.queued}, shutdown: {p.stopped} \x7d"

end Pool

end Fibers
