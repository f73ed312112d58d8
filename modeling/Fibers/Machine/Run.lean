import Fibers.Machine.Interpreter

/-!
# Running fibers

A machine runs the fibers that are ready, one at a time, in the order in which
they became ready.  A fiber runs until it has finished, is parked or has made way
for others, or until it has used up its budget of iterations, and then has to
queue behind those that are ready.

When nothing is ready the machine is idle.  Someone who waits for a fiber lets
time pass then: the clock moves on to the next alarm, and the sleeper wakes up.

## Main definitions

* `Slice`, `Machine` — a fiber that is running, and the whole machine.
* `Machine.step?` — one move of the machine.
* `Machine.settle` — all moves until nothing is ready.
* `Machine.settleFor` — the same, letting time pass as long as a fiber that is
  waited for has not finished.
* `Machine.startRoot` — a new fiber that no other fiber has started.

## Main results

* `Machine.moves_of_idle` — further moves do not change an idle machine.
-/

namespace Fibers

/-- A fiber that is running. -/
structure Slice where
  /-- The fiber. -/
  fiber : FiberId
  /-- The rest of it. -/
  run : RunState
  /-- What it does next. -/
  step : Step
  /-- How many iterations it has run. -/
  used : Nat

/-- A world with the fiber that is running in it. -/
structure Machine where
  /-- How many iterations a fiber may run before others get their turn. -/
  budget : Nat
  /-- The world. -/
  world : World
  /-- The fiber that is running. -/
  running : Option Slice := none

namespace Machine

/-- A machine on which nothing has been started. -/
def init (budget minted : Nat) : Machine := { budget, world := .init minted }

/-! ### Moves -/

/-- Whether a step counts against the budget.  The attempts of one update are one
step. -/
def counts : Step → Bool
  | .attempt _ _ => false
  | _ => true

/-- One iteration of the running fiber, or its end if the budget is used up. -/
def advance (m : Machine) (slice : Slice) : Machine :=
  let used := if counts slice.step then slice.used + 1 else slice.used
  if max m.budget 1 < used then
    { m with
      world := m.world.schedule slice.fiber slice.run slice.step
      running := none }
  else
    match m.world.iterate slice.fiber slice.run slice.step with
    | (some (run, step), world) =>
      { m with world, running := some ⟨slice.fiber, run, step, used⟩ }
    | (none, world) => { m with world, running := none }

/-- Lets the time pass until the next alarm, and wakes the sleeper. -/
def ring (m : Machine) : Option Machine :=
  match m.world.store.alarms.first? with
  | none => none
  | some (alarm, alarms) =>
    let store := { m.world.store with alarms, now := max m.world.store.now alarm.deadline }
    let world := { m.world with store }
    some { m with world := (world.resume alarm.payload (.done .unit)).2 }

/-- Whether someone waits for a fiber that has not finished. -/
def awaits (m : Machine) (awaited : Option FiberId) : Bool :=
  awaited.any fun id => !m.world.store.isFinished id

/-- One move: of the running fiber, or else the next ready fiber starts to run, or
else, if a fiber is waited for, the next alarm rings.  `none` if the machine is
idle. -/
def step? (awaited : Option FiberId) (m : Machine) : Option Machine :=
  match m.running with
  | some slice => some (m.advance slice)
  | none =>
    match m.world.tasks.pop? with
    | some (task, tasks) =>
      some { m with
        world := { m.world with tasks }
        running := some ⟨task.fiber, task.run, task.step, 0⟩ }
    | none => if m.awaits awaited then m.ring else none

/-- As many moves as given, fewer if the machine is idle before. -/
def moves (awaited : Option FiberId) : Nat → Machine → Machine
  | 0, m => m
  | n + 1, m =>
    match m.step? awaited with
    | none => m
    | some m => moves awaited n m

/-- Further moves do not change an idle machine. -/
theorem moves_of_idle {awaited : Option FiberId} {m : Machine} (h : m.step? awaited = none)
    (n : Nat) : moves awaited n m = m := by
  cases n <;> simp [moves, h]

/-- More moves than any run that ends in a lifetime can need. -/
def patience : Nat := 1 <<< 62

/-- The machine after all moves it can make while nobody lets time pass. -/
def settle (m : Machine) : Machine := moves none patience m

/-- The machine after all moves it can make while time passes for a fiber. -/
def settleFor (id : FiberId) (m : Machine) : Machine := moves (some id) patience m

/-! ### Fibers without a parent -/

/-- Starts a fiber that runs `effect` in an environment.  If failures of a type are
to be reported, its exit goes to the reports of the store when it finishes. -/
def startRoot (m : Machine) (effect : Instruction) (environment : Value)
    (report : Option ErrorType) : FiberId × Machine :=
  let w := m.world
  let id := w.store.nextFiber
  let record : FiberRecord := { observers := (report.map Observer.report).toList }
  let w := { w with store := { w.store with fibers := w.store.fibers.push record } }
  (id, { m with world := w.schedule id (.start environment true) (.eval effect) })

/-- Carries out an action from outside of the fibers. -/
def perform {α : Type} (m : Machine) (action : Action α) : Except Defect α × Machine :=
  let (result, world) := action.run m.world
  (result, { m with world })

end Machine

end Fibers
