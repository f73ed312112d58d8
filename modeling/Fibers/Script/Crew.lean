import Fibers.Identity
import Fibers.Pool

/-!
# Crews

A crew is a pool of workers who write down the tags of the jobs they do.  A job may
give the pool another one when it is done.  A worker can also be made to wait at a
gate until the gate is opened; as long as every worker waits there, nothing is done.

## Main definitions

* `Job`, `Crew` — what workers do, and the crew.
* `Crew.settle` — all that can be done at once.
* `CrewStep`, `Crew.take` — what a crew can be told to do, and its answers.
-/

namespace Fibers.Script

/-- What a worker does. -/
inductive Job where
  /-- Wait at the gate. -/
  | gate
  /-- Write down a tag, then give the pool a job with the tag `next` if there is
  one. -/
  | record (tag : Nat) (next : Option Nat)
  deriving DecidableEq, Repr, Inhabited

/-- A pool of workers who write down tags. -/
structure Crew where
  /-- The jobs that wait. -/
  pool : Pool Job
  /-- How many workers wait at the gate. -/
  waiting : Nat := 0
  /-- The tags that were written down, oldest first. -/
  recorded : List Nat := []
  deriving Repr, Inhabited

namespace Crew

/-- A crew with the given number of workers. -/
def start (workers : Nat) : Crew := { pool := .start workers }

/-- Does a job. -/
def perform (c : Crew) : Job → Crew
  | .gate => { c with waiting := c.waiting + 1 }
  | .record tag next =>
    let c := { c with recorded := c.recorded ++ [tag] }
    match next with
    | some tag => { c with pool := c.pool.spawn (.record tag none) }
    | none => c

/-- Does the job that a free worker finds, if there is a free worker. -/
def step? (c : Crew) : Option Crew :=
  if c.pool.stopped || c.pool.workers ≤ c.waiting then none
  else (c.pool.find? 0 0 0).map fun (job, pool) => { c with pool }.perform job

/-- Does as many jobs as given, fewer if there are not so many. -/
def steps : Nat → Crew → Crew
  | 0, c => c
  | n + 1, c =>
    match c.step? with
    | none => c
    | some c => steps n c

/-- Does all jobs that can be done.  A waiting job leads to at most one more, so twice
their number of steps is enough. -/
def settle (c : Crew) : Crew := steps (2 * c.pool.queued) c

end Crew

/-- What a crew can be told to do. -/
inductive CrewStep where
  /-- Give the pool a job on behalf of the fiber with the number of its tag. -/
  | spawn (tag : Nat) (next : Option Nat)
  /-- Make a worker wait at the gate. -/
  | gate
  /-- Open the gate. -/
  | openGate
  /-- Tell the tags written down. -/
  | wait
  /-- Stop the pool, then open the gate. -/
  | stop
  /-- Empty the shared line. -/
  | drain
  /-- Tell whether the pool has been stopped. -/
  | isStopped
  /-- Tell the number of workers. -/
  | workers
  /-- Tell the text of the pool. -/
  | debug
  deriving DecidableEq, Repr, Inhabited

/-- What a crew answers. -/
inductive CrewAnswer where
  /-- Nothing. -/
  | nothing
  /-- The job of a fiber was given to the pool. -/
  | spawned (fiber : FiberId)
  /-- Tags. -/
  | tags (tags : List Nat)
  /-- A number. -/
  | count (n : Nat)
  /-- Whether it is so. -/
  | yes (b : Bool)
  /-- A text. -/
  | text (s : String)
  deriving DecidableEq, Repr, Inhabited

/-- The text of the job of a fiber when its structure is shown. -/
def taskText (fiber : FiberId) : String := s!"Task \x7b fiber: {fiber.debug}, .. \x7d"

namespace Crew

/-- The tags as they are told: several workers do not keep to an order. -/
def told (c : Crew) : List Nat :=
  if 1 < c.pool.workers then c.recorded.mergeSort fun a b => a ≤ b else c.recorded

/-- Gives the pool a job. -/
def give (c : Crew) (job : Job) : Crew := { c with pool := c.pool.spawn job }.settle

/-- What a crew answers, and the crew after that. -/
def take (c : Crew) : CrewStep → CrewAnswer × Crew
  | .spawn tag next => (.spawned ⟨tag⟩, c.give (.record tag next))
  | .gate => (.nothing, c.give .gate)
  | .openGate => (.nothing, { c with waiting := 0 }.settle)
  | .wait => (.tags c.told, c)
  | .stop => (.nothing, { c with pool := c.pool.stop, waiting := 0 })
  | .drain =>
    let (n, pool) := c.pool.drain
    (.count n, { c with pool })
  | .isStopped => (.yes c.pool.stopped, c)
  | .workers => (.count c.pool.workers, c)
  | .debug => (.text c.pool.debug, c)

/-- The answers to several steps in order. -/
def takeAll (c : Crew) : List CrewStep → List CrewAnswer
  | [] => []
  | step :: steps =>
    let (answer, c) := c.take step
    answer :: c.takeAll steps

end Crew

end Fibers.Script
