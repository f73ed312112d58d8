import Fibers.Machine.Run
import Fibers.Script.Build

/-!
# Sessions

A session gives one command after the other to a machine.  A command makes shared
state, runs a program, starts one, or completes a wait from outside; then the machine
moves until nothing is ready, and what can be seen of it is reported.  While a
program is run, time passes as long as that program has not finished; at any other
time it stands still.

## Main definitions

* `Command`, `Turn` — a command, and what is to be reported after it.
* `Report` — what is reported.
* `Session` — the machine, the names bound so far and the fibers started so far.
* `Session.take` — one turn.
-/

namespace Fibers.Script

/-- What a session can be told to do. -/
inductive Command where
  /-- Make a cell and bind a name to it. -/
  | letCell (name : String) (v : Expr)
  /-- Make a channel and bind a name to it. -/
  | letChannel (name : String) (capacity : Option Nat)
  /-- Run a program a number of times, one run after the other. -/
  | run (p : Program) (times : Nat)
  /-- Start a program and bind a name to its fiber. -/
  | fork (p : Program) (name : String)
  /-- Complete a wait that was kept under a name. -/
  | resume (slot : String) (a : Answer)

/-- A command, and what is to be reported after it. -/
structure Turn where
  /-- The command. -/
  command : Command
  /-- The environment of its program. -/
  environment : Expr := .literal .unit
  /-- The values to be reported. -/
  queries : List Expr := []

/-- What came of a command. -/
inductive Result where
  /-- Nothing that is to be reported. -/
  | nothing
  /-- Why a channel could not be made. -/
  | refused (e : ChannelError)
  /-- The exits of the runs, as far as each had finished when the machine was idle. -/
  | ran (exits : List (Option String))
  /-- Whether the outcome was accepted. -/
  | answered (won : Bool)

/-- What is reported after a command, as far as it concerns values by their
texts. -/
structure Report where
  /-- What was logged. -/
  log : List String
  /-- The exits of the runs, as far as each had finished before the next one. -/
  exits : Option (List (Option String))
  /-- Whether a wait was completed. -/
  won : Option Bool
  /-- Why a channel could not be made. -/
  refused : Option ChannelError
  /-- The values asked for. -/
  answers : List String
  /-- Whether the started programs have finished, in the order in which they were
  started. -/
  finished : List (String × Bool)
  /-- The exits of earlier runs that have finished now, with the numbers of their
  turns. -/
  late : List (Nat × String)
  deriving Repr, Inhabited

/-- The state of a session. -/
structure Session where
  /-- The machine. -/
  machine : Machine
  /-- The names bound so far. -/
  scope : Scope := []
  /-- The fibers that were started, with their names. -/
  roots : List (String × FiberId) := []
  /-- The runs that have not finished, with the numbers of their turns. -/
  pending : List (Nat × FiberId) := []
  /-- How many turns there have been. -/
  turns : Nat := 0
  /-- How many entries of the log have been reported. -/
  logged : Nat := 0

namespace Session

/-- A session on a new machine. -/
def init (budget minted : Nat) : Session := { machine := .init budget minted }

/-- What the session knows of its machine. -/
def store (s : Session) : Store := s.machine.world.store

/-- Carries out an action from outside of the fibers. -/
def perform {α : Type} (s : Session) (action : Action α) : Except Defect (α × Session) := do
  let (result, machine) := s.machine.perform action
  let a ← result
  pure (a, { s with machine })

/-- Binds a name. -/
def bind (s : Session) (name : String) (v : Value) : Session :=
  { s with scope := s.scope.bind name v }

/-- The text of the exit of a run, if it has finished. -/
def exitText? (s : Session) (id : FiberId) : Option String :=
  (s.store.report? id).map fun x => x.render s.store.reading

/-- Starts an effect and lets the machine move until it can move no more.  The run stays
pending if it has not finished then. -/
def runOnce (s : Session) (e : Work) (environment : Value) : Option String × Session :=
  let (id, machine) := s.machine.startRoot e environment (some plain)
  let s := { s with machine := machine.settleFor id }
  match s.exitText? id with
  | some text => (some text, s)
  | none => (none, { s with pending := s.pending ++ [(s.turns, id)] })

/-- Runs an effect a number of times. -/
def runTimes (s : Session) (e : Work) (environment : Value) :
    Nat → List (Option String) × Session
  | 0 => ([], s)
  | n + 1 =>
    let (exit, s) := s.runOnce e environment
    let (exits, s) := s.runTimes e environment n
    (exit :: exits, s)

/-- Carries out a command. -/
def carryOut (s : Session) (environment : Value) :
    Command → Except Defect (Result × Session)
  | .letCell name v => do
    let (cell, s) ← s.perform do
      let v ← v.eval s.scope
      Action.newCell v
    pure (.nothing, s.bind name (.cell cell))
  | .letChannel name capacity => do
    let (made, s) ← s.perform (Action.newChannel capacity)
    match made with
    | .ok channel => pure (.nothing, s.bind name (.channel channel))
    | .error e => pure (.refused e, s)
  | .run p times => do
    let (e, s) ← s.perform (p.build s.scope)
    let (exits, s) := s.runTimes e environment times
    pure (.ran exits, s)
  | .fork p name => do
    let (e, s) ← s.perform (p.build s.scope)
    let (id, machine) := s.machine.startRoot e environment none
    let s := { s with machine, roots := s.roots ++ [(name, id)] }
    pure (.nothing, s.bind name (.fiber id))
  | .resume slot a => do
    let (won, s) ← s.perform (a.resume s.scope slot)
    pure (.answered won, s)

/-- Splits the unfinished runs into those that have finished by now, with their
exits, and the others. -/
def settlePending (s : Session) : List (Nat × String) × List (Nat × FiberId) :=
  (s.pending.filterMap fun (turn, id) => (s.exitText? id).map fun text => (turn, text),
    s.pending.filter fun (_, id) => (s.exitText? id).isNone)

/-- What is reported of the result of a command and the machine after it. -/
def report (s : Session) (result : Result) (answers : List Value) : Report × Session :=
  let (late, pending) := s.settlePending
  ({ log := (s.store.log.toList.drop s.logged)
     exits := match result with
       | .ran exits => some exits
       | _ => none
     won := match result with
       | .answered won => some won
       | _ => none
     refused := match result with
       | .refused e => some e
       | _ => none
     answers := answers.map s.store.render
     finished := s.roots.map fun (name, id) => (name, s.store.isFinished id)
     late },
    { s with
      pending
      turns := s.turns + 1
      logged := s.store.log.size })

/-- One turn: the report, or the defect of a panic outside of every fiber. -/
def take (s : Session) (turn : Turn) : Except Defect (Report × Session) := do
  let (environment, s) ← s.perform (turn.environment.eval s.scope)
  let (result, s) ← s.carryOut environment turn.command
  let s := { s with machine := s.machine.settle }
  let (answers, s) ← s.perform (Expr.evalAll s.scope turn.queries)
  pure (s.report result answers)

/-- All turns in order. -/
def takeAll (s : Session) : List Turn → Except Defect (List Report)
  | [] => pure []
  | turn :: turns => do
    let (report, s) ← s.take turn
    let reports ← s.takeAll turns
    pure (report :: reports)

end Session

end Fibers.Script
