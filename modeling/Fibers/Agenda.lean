import Fibers.Alarms
import Fibers.Failure.Defect

/-!
# Agendas

An agenda is how an alarm clock is kept.  The deadlines stand in one list, the first
one first, and the payloads in a table by their keys.  A payload that is called off is
only taken out of the table: its deadline stays behind and is passed over when it comes
up.

A timekeeper looks at the agenda from time to time.  Whenever it does so it collects
everything that is due, then releases what it has collected, one payload after the
other; the agenda may be written to in the meantime.  What goes wrong in a payload is
reported and does not keep the others from being released.

## Main definitions

* `Appointment`, `Agenda` — a deadline with its key, and the agenda.
* `Agenda.schedule`, `Agenda.cancel`, `Agenda.stop`, `Agenda.due`.
* `Agenda.alarms` — the alarm clock that is kept by an agenda.
* `Timekeeper`, `Timekeeper.wake?`, `Timekeeper.released`, `Timekeeper.serve`.
-/

namespace Fibers

/-- When the payload with some key is due. -/
structure Appointment where
  /-- When it is due. -/
  deadline : Nat
  /-- The key of the payload. -/
  key : Nat
  deriving DecidableEq, Repr, Inhabited

/-- An appointment comes before another one if it is earlier, or if it is at the same
time and was made first. -/
def Appointment.before (a b : Appointment) : Bool :=
  a.deadline < b.deadline || (a.deadline == b.deadline && a.key < b.key)

/-- A list of deadlines and a table of payloads. -/
structure Agenda (α : Type) where
  /-- The deadlines, the first one first, with those of payloads that are gone. -/
  appointments : List Appointment := []
  /-- The pending payloads by their keys. -/
  payloads : List (Nat × α) := []
  /-- The key that is given out next. -/
  nextKey : Nat := 0
  /-- Whether the agenda has been closed. -/
  stopped : Bool := false
  deriving Repr, Inhabited

namespace Agenda

variable {α : Type}

/-- Puts an appointment behind all that come before it. -/
def enter (a : Appointment) : List Appointment → List Appointment
  | [] => [a]
  | b :: rest => if b.before a then b :: enter a rest else a :: b :: rest

/-- A table without the payload of a key. -/
def without (key : Nat) (payloads : List (Nat × α)) : List (Nat × α) :=
  payloads.filter fun e => e.1 ≠ key

/-- Schedules a payload and gives out its key. -/
def schedule (deadline : Nat) (payload : α) (c : Agenda α) : Nat × Agenda α :=
  let key := c.nextKey
  let c := { c with nextKey := c.nextKey + 1 }
  if c.stopped then (key, c)
  else
    (key, { c with
      appointments := enter ⟨deadline, key⟩ c.appointments
      payloads := without key c.payloads ++ [(key, payload)] })

/-- Calls off the payload with the given key; says whether it was pending. -/
def cancel (key : Nat) (c : Agenda α) : Bool × Agenda α :=
  ((c.payloads.lookup key).isSome, { c with payloads := without key c.payloads })

/-- How many payloads are pending. -/
def pending (c : Agenda α) : Nat := c.payloads.length

/-- Closes the agenda; says which payloads were pending. -/
def stop (c : Agenda α) : List (Nat × α) × Agenda α :=
  (c.payloads, { c with appointments := [], payloads := [], stopped := true })

/-- When the next appointment is. -/
def nextDeadline? (c : Agenda α) : Option Nat := c.appointments.head?.map Appointment.deadline

/-- Goes through the appointments up to the given time, and takes their payloads out of
the table as far as they are there. -/
def collect (now : Nat) :
    List Appointment → List (Nat × α) → List (Alarm α) × List Appointment × List (Nat × α)
  | [], payloads => ([], [], payloads)
  | a :: rest, payloads =>
    if now < a.deadline then ([], a :: rest, payloads)
    else
      match payloads.lookup a.key with
      | none => collect now rest payloads
      | some payload =>
        let (due, left) := collect now rest (without a.key payloads)
        (⟨a.deadline, a.key, payload⟩ :: due, left)

/-- The alarms that are due at the given time, in the order in which they are
released, and the agenda without them. -/
def due (now : Nat) (c : Agenda α) : List (Alarm α) × Agenda α :=
  let (due, appointments, payloads) := collect now c.appointments c.payloads
  (due, { c with appointments, payloads })

/-- The alarm of an appointment, unless its payload is gone. -/
def alarm? (payloads : List (Nat × α)) (a : Appointment) : Option (Alarm α) :=
  (payloads.lookup a.key).map fun payload => ⟨a.deadline, a.key, payload⟩

/-- The alarm clock that is kept by an agenda. -/
def alarms (c : Agenda α) : Alarms α :=
  ⟨c.appointments.filterMap (alarm? c.payloads), c.nextKey, c.stopped⟩

/-- An agenda without the appointments whose payloads are gone. -/
def tidy (c : Agenda α) : Agenda α :=
  { c with appointments := c.appointments.filter fun a => (c.payloads.lookup a.key).isSome }

end Agenda

/-- Someone who looks at an agenda and releases what is due. -/
structure Timekeeper (α : Type) where
  /-- The agenda. -/
  agenda : Agenda α := {}
  /-- When it was last looked at. -/
  now : Nat := 0
  /-- What was collected then and has not been released yet, in order. -/
  batch : List (Alarm α) := []
  /-- What went wrong in payloads that were released, oldest first. -/
  reports : List Defect := []
  deriving Inhabited

namespace Timekeeper

variable {α : Type}

/-- Looks at the agenda and collects what is due.  This is not done any more once the
agenda has been closed, nor while something collected has not been released. -/
def wake? (time : Nat) (k : Timekeeper α) : Option (Timekeeper α) :=
  if k.agenda.stopped || !k.batch.isEmpty then none
  else
    let (batch, agenda) := k.agenda.due time
    some { k with agenda, now := time, batch }

/-- The timekeeper after the next payload has been released, by what became of it. -/
def released (outcome : Except Defect Unit) (k : Timekeeper α) : Timekeeper α :=
  { k with
    batch := k.batch.tail
    reports :=
      match outcome with
      | .ok () => k.reports
      | .error defect => k.reports ++ [defect] }

/-- Releases everything that has been collected; `perform` tells what becomes of a
payload. -/
def serve (perform : α → Except Defect Unit) (k : Timekeeper α) : Timekeeper α :=
  k.batch.foldl (fun k a => k.released (perform a.payload)) k

end Timekeeper

end Fibers
