import Fibers.Machine.World

/-!
# Carrying out actions

What the operations of an action do to the world.  Completing a wait is the only
one that makes a fiber ready to run: of all completions aimed at one waiting
place the first one counts, and an outcome that comes too late is refused.  A
program can only complete the waits that are left to it; those at channels, for
fibers and for alarms are none of its business.

## Main definitions

* `World.isLive` — whether a waiting place still accepts an outcome.
* `World.resume` — completing a wait.
* `World.isOpen`, `World.answer` — whether a program may complete a wait, and doing so.
* `World.perform` — one operation.
* `Action.run` — a whole action, with its panic as a defect.

## Main results

* `World.resume_of_not_live` — an outcome that comes too late changes nothing.
* `Action.run_bind` — actions run one after the other.
* `Action.run_recover` — panics turned into results.
-/

namespace Fibers

namespace World

/-! ### Completing a wait -/

/-- Whether a waiting place still accepts an outcome. -/
def isLive (w : World) (s : SuspensionId) : Bool :=
  match (w.suspension? s).map Suspension.state with
  | some .registering => true
  | some (.waiting _ _) => true
  | _ => false

/-- Completes a wait; says whether the outcome was accepted. -/
def resume (w : World) (s : SuspensionId) (outcome : Outcome) : Bool × World :=
  match w.suspension? s with
  | none => (false, w)
  | some place =>
    match place.state with
    | .registering => (true, w.setSuspension s (.early outcome))
    | .waiting run _ =>
      (true, (w.setSuspension s .over).schedule place.fiber run (.ofOutcome outcome))
    | .early _ => (false, w)
    | .over => (false, w)

/-- Whether the wait at a place is left to the program to complete. -/
def isOpen (w : World) (s : SuspensionId) : Bool :=
  (w.suspension? s).any fun place => place.registration.isCallback

/-- Completes a wait on behalf of a program. -/
def answer (w : World) (s : SuspensionId) (outcome : Outcome) : Bool × World :=
  if w.isOpen s then w.resume s outcome else (false, w)

/-- Completes the waits at several places alike. -/
def resumeAll (w : World) (places : List SuspensionId) (outcome : Outcome) : World :=
  places.foldl (fun w s => (w.resume s outcome).2) w

theorem resume_fst (w : World) (s : SuspensionId) (outcome : Outcome) :
    (w.resume s outcome).1 = w.isLive s := by
  unfold resume isLive
  cases w.suspension? s with
  | none => rfl
  | some place => cases h : place.state <;> simp [h]

/-- An outcome that comes too late changes nothing. -/
theorem resume_of_not_live {w : World} {s : SuspensionId} (h : w.isLive s = false)
    (outcome : Outcome) : w.resume s outcome = (false, w) := by
  unfold isLive at h
  unfold resume
  cases hs : w.suspension? s with
  | none => rfl
  | some place => cases hp : place.state <;> simp_all

/-! ### Channels -/

/-- Takes one element of a channel if there is one, and wakes the offerer whose
element takes its place. -/
def takeElement (w : World) (channel : ChannelId) (ch : Channel Value SuspensionId) :
    Option Value × World :=
  match ch.take? w.isLive with
  | (.element v admitted, ch) =>
    let w := { w with store := w.store.setChannel channel ch }
    (some v, w.resumeAll admitted.toList (.done .unit))
  | _ => (none, w)

/-- Takes elements of a channel as long as there are any, at most `limit`. -/
def takeUpTo (w : World) (channel : ChannelId) : Nat → List Value × World
  | 0 => ([], w)
  | limit + 1 =>
    match w.store.channel? channel with
    | none => ([], w)
    | some ch =>
      match w.takeElement channel ch with
      | (none, w) => ([], w)
      | (some v, w) =>
        let (vs, w) := w.takeUpTo channel limit
        (v :: vs, w)

/-- Takes the elements of a channel that are there, at most as many as `limit`
says; the fiber that closed it if it has been closed. -/
def drain (w : World) (channel : ChannelId) (limit : Option Nat) :
    Except FiberId (List Value) × World :=
  match w.store.channel? channel with
  | none => (.ok [], w)
  | some ch =>
    match ch.closedBy with
    | some source => (.error source, w)
    | none =>
      let (vs, w) := w.takeUpTo channel (min ch.size (limit.getD ch.size))
      (.ok vs, w)

/-- Closes a channel on behalf of a fiber and ends every wait at it. -/
def close (w : World) (channel : ChannelId) (source : FiberId) : World :=
  match (w.store.channel? channel).bind (·.close source) with
  | none => w
  | some (closing, ch) =>
    let w := { w with store := w.store.setChannel channel ch }
    (w.resumeAll closing.refused (.interrupt source)).resumeAll closing.notified (.done .unit)

/-! ### Operations -/

/-- Carries out an operation. -/
def perform (w : World) : (op : Operation) → op.Reply × World
  | .observe => (w.store.shown, w)
  | .log note =>
    let text := note.render w.store.reading
    ((), { w with store := { w.store with log := w.store.log.push text } })
  | .newCell v =>
    (⟨w.store.cells.next⟩,
      { w with store := { w.store with cells := w.store.cells.push (.new v) } })
  | .writeCell cell v =>
    let cells := w.store.cells.modify cell.index (·.write v)
    ((), { w with store := { w.store with cells } })
  | .newChannel capacity =>
    match Channel.new capacity with
    | .error e => (.error e, w)
    | .ok ch =>
      (.ok ⟨w.store.channels.next⟩,
        { w with store := { w.store with channels := w.store.channels.push ch } })
  | .drain channel limit => w.drain channel limit
  | .close channel source => ((), w.close channel source)
  | .complete waiter outcome => w.answer waiter outcome
  | .keep name waiter =>
    let handles := (name, waiter) :: w.store.handles.filter fun h => h.1 ≠ name
    ((), { w with store := { w.store with handles } })
  | .newMark =>
    (w.store.spent.next, { w with store := { w.store with spent := w.store.spent.push false } })
  | .useMark mark =>
    ((w.store.spent.get? mark) == some false,
      { w with store := { w.store with spent := w.store.spent.modify mark fun _ => true } })
  | .newLease release =>
    (⟨w.store.leases.next⟩,
      { w with store := { w.store with leases := w.store.leases.push { release } } })

end World

namespace Action

variable {α β : Type}

/-- Carries out an action: its result, or the defect of its panic, and the world
it leaves. -/
def run : Action α → World → Except Defect α × World
  | .done a, w => (.ok a, w)
  | .panic d, w => (.error d, w)
  | .perform op next, w =>
    let (reply, w) := w.perform op
    (next reply).run w

@[simp] theorem run_done (a : α) (w : World) : (Action.done a).run w = (.ok a, w) := rfl

@[simp] theorem run_panic (d : Defect) (w : World) :
    (Action.panic d : Action α).run w = (.error d, w) := rfl

@[simp] theorem run_perform (op : Operation) (next : op.Reply → Action α) (w : World) :
    (Action.perform op next).run w = (next (w.perform op).1).run (w.perform op).2 := rfl

/-- Actions run one after the other; a panic of the first is the end of both. -/
theorem run_bind (a : Action α) (f : α → Action β) (w : World) :
    (a >>= f).run w =
      match a.run w with
      | (.ok x, w) => (f x).run w
      | (.error d, w) => (.error d, w) := by
  induction a generalizing w with
  | done a => rfl
  | panic d => rfl
  | perform op next ih => simp [ih]

/-- If two actions in order end with a result, so does the first. -/
theorem run_bind_ok {a : Action α} {f : α → Action β} {w w'' : World} {b : β}
    (h : (a >>= f).run w = (.ok b, w'')) :
    ∃ x w', a.run w = (.ok x, w') ∧ (f x).run w' = (.ok b, w'') := by
  rw [run_bind] at h
  split at h
  · next x w' heq => exact ⟨x, w', heq, h⟩
  · cases h

/-- A panic is turned into a result where it happens. -/
theorem run_recover (handler : Defect → α) (a : Action α) (w : World) :
    (a.recover handler).run w =
      (match (a.run w).1 with
        | .ok x => .ok x
        | .error d => .ok (handler d), (a.run w).2) := by
  induction a generalizing w with
  | done a => rfl
  | panic d => rfl
  | perform op next ih => exact ih _ _

end Action

end Fibers
