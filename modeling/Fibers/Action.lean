import Fibers.Store

/-!
# Actions

An action is what the synchronous code of a program does: it performs operations
of the runtime one after the other, each of which may depend on the replies to
the earlier ones, and ends with a result or panics.  Actions never wait; waiting
is what effects are for.

An action is a tree, with a branch for every possible reply.  What the
operations do is settled by the runtime that carries the action out, so nothing
an action does can break the rules of the runtime.

## Main definitions

* `Operation`, `Operation.Reply` — the operations and what they reply.
* `Action` — the trees, a monad.
* `Action.recover` — a panic turned into a result.
-/

namespace Fibers

/-- An operation of the runtime. -/
inductive Operation where
  /-- Look at the store, as far as programs can see it. -/
  | observe
  /-- Add an entry to the log. -/
  | log (note : Note)
  /-- Make a cell. -/
  | newCell (v : Value)
  /-- Write to a cell. -/
  | writeCell (cell : CellId) (v : Value)
  /-- Make a channel. -/
  | newChannel (capacity : Option Nat)
  /-- Take the elements of a channel that are there, at most the given number. -/
  | drain (channel : ChannelId) (limit : Option Nat)
  /-- Close a channel on behalf of a fiber. -/
  | close (channel : ChannelId) (source : FiberId)
  /-- Complete a wait. -/
  | complete (waiter : SuspensionId) (outcome : Outcome)
  /-- Keep a waiting place under a name. -/
  | keep (name : String) (waiter : SuspensionId)
  /-- Make a mark for something that may happen once. -/
  | newMark
  /-- Use up a mark. -/
  | useMark (mark : Nat)
  /-- Make a lease with the given release. -/
  | newLease (release : ReleaseId)

/-- What an operation replies. -/
def Operation.Reply : Operation → Type
  | .observe => Store
  | .log _ => Unit
  | .newCell _ => CellId
  | .writeCell _ _ => Unit
  | .newChannel _ => Except ChannelError ChannelId
  | .drain _ _ => Except FiberId (List Value)
  | .close _ _ => Unit
  | .complete _ _ => Bool
  | .keep _ _ => Unit
  | .newMark => Nat
  | .useMark _ => Bool
  | .newLease _ => LeaseId

/-- Synchronous code that ends with an `α`. -/
inductive Action (α : Type) where
  /-- The end, with a result. -/
  | done (a : α)
  /-- The end by a panic. -/
  | panic (d : Defect)
  /-- An operation, and what follows each of its replies. -/
  | perform (op : Operation) (next : op.Reply → Action α)

namespace Action

variable {α β : Type}

/-- One action after the other. -/
def bind : Action α → (α → Action β) → Action β
  | .done a, f => f a
  | .panic d, _ => .panic d
  | .perform op next, f => .perform op fun reply => (next reply).bind f

instance : Monad Action where
  pure := .done
  bind := .bind

instance : Inhabited (Action α) := ⟨.panic default⟩

/-- The action of one operation. -/
def operation (op : Operation) : Action op.Reply := .perform op .done

/-- Look at the store, as far as programs can see it. -/
def observe : Action Store := operation .observe

/-- Add an entry to the log. -/
def log (note : Note) : Action Unit := operation (.log note)

/-- Make a cell. -/
def newCell (v : Value) : Action CellId := operation (.newCell v)

/-- Write to a cell. -/
def writeCell (cell : CellId) (v : Value) : Action Unit := operation (.writeCell cell v)

/-- Make a channel. -/
def newChannel (capacity : Option Nat) : Action (Except ChannelError ChannelId) :=
  operation (.newChannel capacity)

/-- Take the elements of a channel that are there, at most the given number. -/
def drain (channel : ChannelId) (limit : Option Nat) :
    Action (Except FiberId (List Value)) :=
  operation (.drain channel limit)

/-- Close a channel on behalf of a fiber. -/
def close (channel : ChannelId) (source : FiberId) : Action Unit :=
  operation (.close channel source)

/-- Complete a wait; says whether the outcome was accepted. -/
def complete (waiter : SuspensionId) (outcome : Outcome) : Action Bool :=
  operation (.complete waiter outcome)

/-- Keep a waiting place under a name. -/
def keep (name : String) (waiter : SuspensionId) : Action Unit := operation (.keep name waiter)

/-- Make a mark for something that may happen once. -/
def newMark : Action Nat := operation .newMark

/-- Use up a mark; says whether it had not been used. -/
def useMark (mark : Nat) : Action Bool := operation (.useMark mark)

/-- Make a lease with the given release. -/
def newLease (release : ReleaseId) : Action LeaseId := operation (.newLease release)

/-- Panic with a payload. -/
def throw (payload : PanicPayload) : Action α := .panic (.ofPanic payload)

/-- Panic with a message. -/
def fail (message : String) : Action α := throw (.message message)

/-- Ends with the result of `handler` where the action would panic. -/
def recover (handler : Defect → α) : Action α → Action α
  | .done a => .done a
  | .panic d => .done (handler d)
  | .perform op next => .perform op fun reply => (next reply).recover handler

@[simp] theorem pure_eq (a : α) : (pure a : Action α) = .done a := rfl

@[simp] theorem done_bind (a : α) (f : α → Action β) : (Action.done a >>= f) = f a := rfl

@[simp] theorem panic_bind (d : Defect) (f : α → Action β) :
    ((.panic d : Action α) >>= f) = .panic d := rfl

@[simp] theorem perform_bind (op : Operation) (next : op.Reply → Action α)
    (f : α → Action β) :
    (Action.perform op next >>= f) = .perform op fun reply => next reply >>= f := rfl

theorem bind_done (a : Action α) : a.bind .done = a := by
  induction a with
  | done a => rfl
  | panic d => rfl
  | perform op next ih => simp [bind, ih]

theorem bind_assoc {γ : Type} (a : Action α) (f : α → Action β) (g : β → Action γ) :
    (a.bind f).bind g = a.bind fun x => (f x).bind g := by
  induction a with
  | done a => rfl
  | panic d => rfl
  | perform op next ih => simp [bind, ih]

instance : LawfulMonad Action :=
  LawfulMonad.mk' Action (fun a => bind_done a) (fun _ _ => rfl) fun a f g => bind_assoc a f g

end Action

end Fibers
