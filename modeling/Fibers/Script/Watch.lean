import Fibers.Agenda
import Fibers.Value

/-!
# Watches

A watch is a timekeeper whose alarms write down a tag when they ring.  Time passes
only while someone waits for a number of tags: it moves on to the next deadline, and
every alarm that is due then rings.  What goes wrong in an alarm comes after its tag and
does not keep the others from ringing.

## Main definitions

* `Watch`, `Watch.pass?` — the timekeeper, and one round of alarms.
* `WatchStep`, `Watch.take` — what a watch can be told to do, and its answers.
-/

namespace Fibers.Script

/-- Where a deadline is counted from, in milliseconds after the start. -/
inductive Base where
  /-- The start itself, whatever is added. -/
  | past
  /-- Soon after the start. -/
  | near
  /-- Long after the start. -/
  | far
  deriving DecidableEq, Repr, Inhabited

/-- A deadline. -/
def Base.deadline (base : Base) (millis : Nat) : Nat :=
  match base with
  | .past => 0
  | .near => 40 + millis
  | .far => 3600000 + millis

/-- A timekeeper whose alarms write down tags. -/
structure Watch where
  /-- The timekeeper. -/
  keeper : Timekeeper Value := {}
  /-- The tags that were written down, oldest first. -/
  rung : List Value := []
  deriving Inhabited

/-- What a watch can be told to do. -/
inductive WatchStep where
  /-- Set an alarm. -/
  | schedule (deadline : Nat) (tag : Value)
  /-- Call off the alarm with a key. -/
  | cancel (key : Nat)
  /-- Tell how many alarms are pending. -/
  | pending
  /-- Stop the clock. -/
  | stop
  /-- Wait until a number of alarms have rung. -/
  | wait (n : Nat)

/-- What a watch answers. -/
inductive WatchAnswer where
  /-- Nothing. -/
  | nothing
  /-- The key of a new alarm. -/
  | key (n : Nat)
  /-- Whether an alarm was called off. -/
  | cancelled (b : Bool)
  /-- A number. -/
  | count (n : Nat)
  /-- Tags. -/
  | tags (tags : List Value)

/-- The text of a key when its structure is shown. -/
def keyText (n : Nat) : String := s!"TimerKey({n})"

namespace Watch

/-- Lets time pass until the next deadline; every alarm that is due rings. -/
def pass? (w : Watch) : Option Watch := do
  let deadline ← w.keeper.agenda.nextDeadline?
  let keeper ← w.keeper.wake? (max w.keeper.now deadline)
  some
    { keeper := keeper.serve fun _ => .ok ()
      rung := w.rung ++ keeper.batch.map Alarm.payload }

/-- Rounds of alarms until `n` have rung, at most as many as given. -/
def waitFor (n : Nat) : Nat → Watch → Watch
  | 0, w => w
  | rounds + 1, w =>
    if n ≤ w.rung.length then w
    else
      match w.pass? with
      | none => w
      | some w => waitFor n rounds w

/-- The watch after its agenda has been written to. -/
def write (agenda : Agenda Value) (w : Watch) : Watch :=
  { w with keeper := { w.keeper with agenda } }

/-- What a watch answers, and the watch after that. -/
def take (w : Watch) : WatchStep → WatchAnswer × Watch
  | .schedule deadline tag =>
    let (key, agenda) := w.keeper.agenda.schedule deadline tag
    (.key key, w.write agenda)
  | .cancel key =>
    let (pending, agenda) := w.keeper.agenda.cancel key
    (.cancelled pending, w.write agenda)
  | .pending => (.count w.keeper.agenda.pending, w)
  | .stop => (.nothing, w.write w.keeper.agenda.stop.2)
  | .wait n =>
    let w := waitFor n w.keeper.agenda.appointments.length w
    (.tags w.rung, w)

/-- The answers to several steps in order. -/
def takeAll (w : Watch) : List WatchStep → List WatchAnswer
  | [] => []
  | step :: steps =>
    let (answer, w) := w.take step
    answer :: w.takeAll steps

end Watch

end Fibers.Script
