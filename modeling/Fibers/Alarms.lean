/-!
# Alarms

An alarm clock holds payloads until their deadlines have passed.  Payloads are
released in the order of their deadlines, and those with equal deadlines in the
order in which they were scheduled.  A payload can be called off as long as it is
pending.  Once the clock has been stopped nothing is pending any more and nothing
can be scheduled, although keys are still given out.

## Main definitions

* `Alarm`, `Alarms` — a pending payload, and the clock.
* `Alarms.schedule`, `Alarms.cancel`, `Alarms.stop`.
* `Alarms.due` — the payloads whose deadlines have passed, and the clock without
  them.

## Main results

* `Alarms.mem_schedule` — scheduling adds one alarm and keeps the others.
* `Alarms.mem_cancel` — calling off a key leaves the alarms with other keys.
* `Alarms.due_append_pending` — what is due and what is not make up what was pending.
-/

namespace Fibers

/-- A pending payload. -/
structure Alarm (α : Type) where
  /-- When it is due. -/
  deadline : Nat
  /-- Its key, which also tells the order of scheduling. -/
  key : Nat
  /-- What is released. -/
  payload : α
  deriving DecidableEq, Repr, Inhabited

/-- An alarm clock. -/
structure Alarms (α : Type) where
  /-- The pending alarms, the first one due first. -/
  pending : List (Alarm α) := []
  /-- The key that is given out next. -/
  nextKey : Nat := 0
  /-- Whether the clock has been stopped. -/
  stopped : Bool := false
  deriving Inhabited

namespace Alarms

variable {α : Type}

/-- Puts an alarm behind every alarm that is due no later. -/
def insert (a : Alarm α) : List (Alarm α) → List (Alarm α)
  | [] => [a]
  | b :: rest => if b.deadline ≤ a.deadline then b :: insert a rest else a :: b :: rest

/-- Schedules a payload and gives out its key. -/
def schedule (deadline : Nat) (payload : α) (c : Alarms α) : Nat × Alarms α :=
  let c' := { c with nextKey := c.nextKey + 1 }
  if c.stopped then (c.nextKey, c')
  else (c.nextKey, { c' with pending := insert ⟨deadline, c.nextKey, payload⟩ c.pending })

/-- Whether the alarm with the given key is pending. -/
def isPending (key : Nat) (c : Alarms α) : Bool := c.pending.any fun a => a.key == key

/-- Calls off the alarm with the given key; says whether it was pending. -/
def cancel (key : Nat) (c : Alarms α) : Bool × Alarms α :=
  (c.isPending key, { c with pending := c.pending.filter fun a => a.key ≠ key })

/-- Stops the clock and drops every pending alarm. -/
def stop (c : Alarms α) : Alarms α := { c with pending := [], stopped := true }

/-- When the next alarm is due. -/
def nextDeadline? (c : Alarms α) : Option Nat := c.pending.head?.map Alarm.deadline

/-- The alarms that are due at the given time, in the order in which they are
released, and the clock without them. -/
def due (now : Nat) (c : Alarms α) : List (Alarm α) × Alarms α :=
  (c.pending.takeWhile fun a => a.deadline ≤ now,
    { c with pending := c.pending.dropWhile fun a => a.deadline ≤ now })

/-- The alarm that is due first, and the clock without it. -/
def first? (c : Alarms α) : Option (Alarm α × Alarms α) :=
  match c.pending with
  | [] => none
  | a :: pending => some (a, { c with pending })

@[simp] theorem mem_insert {a b : Alarm α} {l : List (Alarm α)} :
    b ∈ insert a l ↔ b = a ∨ b ∈ l := by
  induction l with
  | nil => simp [insert]
  | cons c rest ih =>
    unfold insert
    split <;> simp only [List.mem_cons, ih]
    constructor
    · rintro (h | h | h) <;> simp [h]
    · rintro (h | h | h) <;> simp [h]

/-- Scheduling on a running clock adds one alarm and keeps the others. -/
theorem mem_schedule {deadline : Nat} {payload : α} {c : Alarms α} (hc : c.stopped = false)
    {b : Alarm α} : b ∈ (c.schedule deadline payload).2.pending ↔
      b = ⟨deadline, c.nextKey, payload⟩ ∨ b ∈ c.pending := by
  simp [schedule, hc]

/-- What is pending after something has been scheduled. -/
theorem of_mem_schedule {deadline : Nat} {payload : α} {c : Alarms α} {b : Alarm α}
    (h : b ∈ (c.schedule deadline payload).2.pending) :
    b = ⟨deadline, c.nextKey, payload⟩ ∨ b ∈ c.pending := by
  unfold schedule at h
  split at h
  · exact Or.inr h
  · exact mem_insert.mp h

/-- Calling off a key leaves the alarms with other keys. -/
theorem mem_cancel {key : Nat} {c : Alarms α} {b : Alarm α} :
    b ∈ (c.cancel key).2.pending ↔ b ∈ c.pending ∧ b.key ≠ key := by
  simp [cancel]

/-- The alarms that are due come before those that are not. -/
theorem due_append_pending (now : Nat) (c : Alarms α) :
    (c.due now).1 ++ (c.due now).2.pending = c.pending := by
  simp [due]

end Alarms

end Fibers
