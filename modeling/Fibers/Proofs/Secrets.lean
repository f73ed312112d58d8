import Fibers.Proofs.Typing

/-!
# Code that has not been told of a fiber

The handle of a fiber is a number, so code could make one up.  A program does not do that: it waits
for no fiber but for those of which it has been told.  This file says what it is for code to keep to
that for one fiber: all that it hands on omits the handle, as long as all that it is handed does,
and it does not wait for the fiber.

The code that starts children of its own and keeps them to itself does have handles of theirs.  What
it may do with them is told by a clearance: whether it may wait for the fiber, and whether it may end
with the handle.  Whoever has no clearance gets nothing that tells of the fiber, whichever clearance
others have.

## Main definitions

* `Value.Omits`, `Exit.Omits`, `Outcome.Omits`, `Store.Omits` — data that does not tell of a fiber.
* `Clearance` — what code may do with the handle of a fiber.
* `Operation.Guards`, `Action.Guards` — actions that do not tell of a fiber.
* `Instruction.Guards`, `Release.Guards` — instructions that keep to their clearance.
-/

namespace Fibers

/-! ### Data -/

/-- A value in which there is no handle of the fiber `c`. -/
inductive Value.Omits (c : FiberId) : Value → Prop where
  | unit : Omits c .unit
  | bool (b : Bool) : Omits c (.bool b)
  | int (n : Int) : Omits c (.int n)
  | text (s : String) : Omits c (.text s)
  | list {items : List Value} : (∀ v ∈ items, Omits c v) → Omits c (.list items)
  | none : Omits c .none
  | some {v : Value} : Omits c v → Omits c (.some v)
  | ok {v : Value} : Omits c v → Omits c (.ok v)
  | err {v : Value} : Omits c v → Omits c (.err v)
  | done {v : Value} : Omits c v → Omits c (.exit (.done v))
  | halt {h : Halt Value} : (∀ v, .fail v ∈ h.leaves → Omits c v) → Omits c (.exit (.halt h))
  | id (fiber : FiberId) : Omits c (.id fiber)
  | fiber {fiber : FiberId} : fiber ≠ c → Omits c (.fiber fiber)
  | cell (cell : CellId) : Omits c (.cell cell)
  | channel (channel : ChannelId) : Omits c (.channel channel)
  | restore (b : Bool) : Omits c (.restore b)
  | lease {v : Value} (lease : LeaseId) : Omits c v → Omits c (.lease lease v)
  | reservation {v : Value} (release : ReleaseId) : Omits c v → Omits c (.reservation v release)

/-- A failure that does not tell of the fiber. -/
def Failure.Omits (c : FiberId) (e : Failure) : Prop := e.value.Omits c

/-- A halt none of whose failures tells of the fiber. -/
def Halt.Omits (c : FiberId) (h : Halt Failure) : Prop :=
  h.Holds (Failure.Omits c) fun _ => True

/-- An outcome that does not tell of the fiber. -/
def Outcome.Omits (c : FiberId) (o : Outcome) : Prop :=
  o.Holds (Failure.Omits c) (fun _ => True) (Value.Omits c)

/-- A halt, as programs see it, that does not tell of the fiber. -/
abbrev Halt.Spares (c : FiberId) (h : Halt Value) : Prop :=
  h.Holds (Value.Omits c) fun _ => True

/-- An exit, as programs see it, that does not tell of the fiber. -/
abbrev Exit.Omits (c : FiberId) (x : Exit Value Value) : Prop :=
  x.Holds (Value.Omits c) (fun _ => True) (Value.Omits c)

/-- An update whose result and new value do not tell of the fiber. -/
structure Update.Omits (c : FiberId) (u : Update Value) : Prop where
  result : u.result.Omits c
  next : ∀ v, u.next = some v → v.Omits c

/-- A channel in which nobody is told of the fiber. -/
structure Channel.Omits (c : FiberId) (ch : Channel Value SuspensionId) : Prop where
  buffer : ∀ v ∈ ch.buffer.toList, v.Omits c
  offerers : ∀ e ∈ ch.offerers, e.2.1.Omits c

/-- A store in which nobody is told of the fiber. -/
structure Store.Omits (c : FiberId) (store : Store) : Prop where
  exits : ∀ {n r o}, store.fibers.get? n = some r → r.exit = some o → Outcome.Omits c o
  cells : ∀ {n cell}, store.cells.get? n = some cell → cell.value.Omits c
  channels : ∀ {n ch}, store.channels.get? n = some ch → ch.Omits c
  reports : ∀ p ∈ store.reports, p.2.Omits c

section Data

variable {c : FiberId} {ε : ErrorType}

theorem Value.Omits.of_exit {x : Exit Value Value} (h : x.Omits c) : (Value.exit x).Omits c := by
  cases x with
  | done v => exact .done h
  | halt failure => exact .halt fun v hv => h _ hv

theorem Exit.Omits.of_value {x : Exit Value Value} (h : (Value.exit x).Omits c) : x.Omits c := by
  cases h with
  | done hv => exact hv
  | halt hh =>
    intro l hl
    cases l with
    | fail v => exact hh v hl
    | die _ | interrupt _ => trivial

theorem Value.Omits.of_list {vs : List Value} (h : (Value.list vs).Omits c) :
    ∀ v ∈ vs, v.Omits c := by
  cases h with
  | list hvs => exact hvs

theorem Outcome.omits_die (c : FiberId) (d : Defect) : Outcome.Omits c (.die d) :=
  Halt.holds_of (Cause.holds_die trivial)

theorem Outcome.omits_interrupt (c source : FiberId) : Outcome.Omits c (.interrupt source) :=
  Halt.holds_of (Cause.holds_interrupt source)

theorem Halt.Omits.untag {h : Halt Failure} (hh : h.Omits c) : (h.untag ε).Spares c := by
  refine Halt.Holds.flatMap hh fun e he => ?_
  split
  · exact Cause.holds_fail he
  · exact Cause.holds_die trivial

theorem Outcome.Omits.untag {o : Outcome} (h : Outcome.Omits c o) : (Exit.untag ε o).Omits c := by
  cases o with
  | done v => exact h
  | halt failure => exact Halt.Omits.untag h

theorem Halt.Spares.tag {h : Halt Value} (hh : h.Spares c) : (h.tag ε).Omits c :=
  Halt.Holds.flatMap hh fun v hv => Cause.holds_fail (e := (⟨ε, v⟩ : Failure)) hv

theorem Exit.Omits.tag {x : Exit Value Value} (h : x.Omits c) : Outcome.Omits c (x.tag ε) := by
  cases x with
  | done v => exact h
  | halt failure => exact Halt.Spares.tag h

/-- Where failures are discarded nothing is told of the fiber. -/
theorem Halt.Omits.discard {h : Halt Failure} {reason : String} (hh : h.Omits c) :
    (h.discard reason).Omits c :=
  Halt.Holds.flatMap hh fun _ _ => Cause.holds_die trivial

/-- What programs see of a store does not tell of the fiber either. -/
theorem Store.Omits.shown {store : Store} (h : store.Omits c) : store.shown.Omits c where
  exits {n r o} hr ho := by
    obtain ⟨r', -, rfl⟩ := Option.map_eq_some_iff.mp ((Numbered.get?_map _ _ _).symm.trans hr)
    cases ho
  cells := h.cells
  channels := h.channels
  reports := h.reports

end Data

/-! ### Actions -/

/-- `op.Guards c R` says that what is asked for in an operation does not tell of the fiber `c`, and
that its reply satisfies `R` if nothing that the runtime keeps tells of it. -/
inductive Operation.Guards (c : FiberId) : (op : Operation) → (op.Reply → Prop) → Prop where
  | observe : Guards c .observe fun store : Store => store.Omits c
  | log (note : Note) : Guards c (.log note) fun _ => True
  | newCell {v : Value} : v.Omits c → Guards c (.newCell v) fun _ => True
  | writeCell {cell : CellId} {v : Value} : v.Omits c → Guards c (.writeCell cell v) fun _ => True
  | newChannel (capacity : Option Nat) : Guards c (.newChannel capacity) fun _ => True
  | drain (channel : ChannelId) (limit : Option Nat) :
      Guards c (.drain channel limit) fun drained : Except FiberId (List Value) =>
        ∀ vs, drained = .ok vs → ∀ v ∈ vs, v.Omits c
  | close (channel : ChannelId) (source : FiberId) : Guards c (.close channel source) fun _ => True
  | complete {waiter : SuspensionId} {outcome : Outcome} : Outcome.Omits c outcome →
      Guards c (.complete waiter outcome) fun _ => True
  | keep (name : String) (waiter : SuspensionId) : Guards c (.keep name waiter) fun _ => True
  | newMark : Guards c .newMark fun _ => True
  | useMark (mark : Nat) : Guards c (.useMark mark) fun _ => True
  | newLease (release : ReleaseId) : Guards c (.newLease release) fun _ => True

/-- An action that tells nobody of the fiber, and ends with something as `Q` says of the index `j`,
if it does not panic. -/
inductive Action.Guards (c : FiberId) {J α : Type} (Q : J → α → Prop) : Action α → J → Prop where
  | done {j : J} {a : α} : Q j a → Guards c Q (.done a) j
  | panic {j : J} (d : Defect) : Guards c Q (.panic d) j
  | perform {j : J} {op : Operation} {next : op.Reply → Action α} {R : op.Reply → Prop} :
      op.Guards c R → (∀ reply, R reply → Guards c Q (next reply) j) →
      Guards c Q (.perform op next) j

/-- An action that tells nobody of the fiber, and may end with anything. -/
abbrev Action.Discreet {α : Type} (c : FiberId) (a : Action α) : Prop :=
  a.Guards c (fun (_ : Unit) _ => True) ()

/-- Code that makes values, and tells nobody of the fiber. -/
abbrev Action.Omits (c : FiberId) (a : Action Value) : Prop :=
  a.Guards c (fun (_ : Unit) v => v.Omits c) ()

namespace Action.Guards

variable {c : FiberId} {J K α β : Type} {Q : J → α → Prop} {Q' : K → β → Prop} {j : J} {k : K}
  {Q'' : K → α → Prop}

/-- One action after the other. -/
theorem bind {a : Action α} {f : α → Action β} (h : a.Guards c Q j)
    (hf : ∀ x, Q j x → (f x).Guards c Q' k) : (a >>= f).Guards c Q' k := by
  induction h with
  | done h => exact hf _ h
  | panic d => exact .panic d
  | perform hop _ ih => exact .perform hop fun reply hreply => ih reply hreply hf

/-- A panic that is turned into a result. -/
theorem recover {a : Action α} {handler : Defect → α} (h : a.Guards c Q j)
    (hhandler : ∀ d, Q j (handler d)) : (a.recover handler).Guards c Q j := by
  induction h with
  | done h => exact .done h
  | panic d => exact .done (hhandler d)
  | perform hop _ ih => exact .perform hop fun reply hreply => ih reply hreply hhandler

/-- What an action ends with that does nothing. -/
theorem of_done {a : α} (h : (Action.done a).Guards c Q j) : Q j a := by
  cases h with
  | done h => exact h

/-- What is known of the first of two actions. -/
theorem of_bind {a : Action α} {f : α → Action β} (h : (a >>= f).Guards c Q' k) :
    a.Guards c (fun (_ : Unit) x => (f x).Guards c Q' k) () := by
  induction a with
  | done a => exact .done h
  | panic d => exact .panic d
  | perform op next ih =>
    cases h with
    | perform hop hnext => exact .perform hop fun reply hreply => ih reply (hnext reply hreply)

/-- Less may be said of what an action ends with. -/
theorem imp {a : Action α} (h : a.Guards c Q j) (hQ : ∀ x, Q j x → Q'' k x) :
    a.Guards c Q'' k := by
  induction h with
  | done h => exact .done (hQ _ h)
  | panic d => exact .panic d
  | perform hop _ ih => exact .perform hop fun reply hreply => ih reply hreply hQ

end Action.Guards

/-! ### Instructions -/

/-- What code may do with the handle of a fiber. -/
structure Clearance where
  /-- It may wait for the fiber. -/
  waits : Bool
  /-- It may end with the handle. -/
  tells : Bool
  deriving DecidableEq, Repr

/-- Nothing: that of code that has not been told of the fiber. -/
def Clearance.none : Clearance := ⟨false, false⟩

/-- A value that is handed on with a clearance. -/
def Value.Cleared (c : FiberId) (tells : Bool) (v : Value) : Prop := tells = true ∨ v.Omits c

/-- An outcome that is handed on with a clearance: the handle may be in the value, and in no
failure. -/
def Outcome.Cleared (c : FiberId) (k : Clearance) (o : Outcome) : Prop :=
  o.Holds (Failure.Omits c) (fun _ => True) (Value.Cleared c k.tells)

/-- A wait that is not for the fiber `c`, unless `waits` says that it may be. -/
inductive Registration.Guards (c : FiberId) (waits : Bool) : Registration → Prop where
  | callback {register : SuspensionId → Action (Action Unit)} :
      (∀ s, (register s).Guards c (fun (_ : Unit) cancel => cancel.Discreet c) ()) →
      Guards c waits (.callback register)
  | sleep (millis : Nat) : Guards c waits (.sleep millis)
  | awaitExit {fiber : FiberId} (type : ErrorType) : (fiber = c → waits = true) →
      Guards c waits (.awaitExit fiber type)
  | firstDone {left right : FiberId} : (left = c → waits = true) → (right = c → waits = true) →
      Guards c waits (.firstDone left right)
  | firstFailure {children : List FiberId} : (c ∈ children → waits = true) →
      Guards c waits (.firstFailure children)
  | offer (channel : ChannelId) {v : Value} : v.Omits c → Guards c waits (.offer channel v)
  | take (channel : ChannelId) : Guards c waits (.take channel)
  | awaitClose (channel : ChannelId) : Guards c waits (.awaitClose channel)

mutual

/-- An instruction that keeps to a clearance.  Who waits is told nothing of the fiber; who may wait
for the fiber may have started it, and then has its handle. -/
inductive Instruction.Guards (c : FiberId) : Clearance → Instruction → Prop where
  | done {k : Clearance} {outcome : Outcome} : Outcome.Cleared c k outcome →
      Instruction.Guards c k (.done outcome)
  | sync {k : Clearance} {action : Action Outcome} : action.Guards c (Outcome.Cleared c) k →
      Instruction.Guards c k (.sync action)
  | wait {k : Clearance} {registration : Registration} : registration.Guards c k.waits →
      Instruction.Guards c k (.wait registration)
  | chain {waits tells tells' : Bool} {first : Instruction} {next : Value → Action Instruction} :
      Instruction.Guards c ⟨waits, tells⟩ first →
      (∀ v, v.Cleared c tells → Action.Guards c (Instruction.Guards c) (next v) ⟨waits, tells'⟩) →
      Instruction.Guards c ⟨waits, tells'⟩ (.chain first next)
  | fold {waits tells tells' : Bool} {first : Instruction}
      {onHalt : Halt Failure → Action Instruction} {onDone : Value → Action Instruction}
      {sameError : Bool} : Instruction.Guards c ⟨waits, tells⟩ first →
      (∀ h : Halt Failure, h.Omits c →
        Action.Guards c (Instruction.Guards c) (onHalt h) ⟨waits, tells'⟩) →
      (∀ v, v.Cleared c tells →
        Action.Guards c (Instruction.Guards c) (onDone v) ⟨waits, tells'⟩) →
      Instruction.Guards c ⟨waits, tells'⟩ (.fold first onHalt onDone sameError)
  | loop {waits tells : Bool} {state : Value} {body : Value → Action Instruction} :
      state.Omits c →
      (∀ v, v.Omits c → Action.Guards c (Instruction.Guards c) (body v) ⟨waits, false⟩) →
      Instruction.Guards c ⟨waits, tells⟩ (.loop state body)
  | mapError {k : Clearance} {first : Instruction} {source target : ErrorType}
      {f : Value → Action Value} : Instruction.Guards c k first →
      (∀ v, v.Omits c → (f v).Omits c) →
      Instruction.Guards c k (.mapError first source target f)
  | fork {k : Clearance} {child : Instruction} {daemon : Bool} :
      Instruction.Guards c .none child → (k.waits = true → k.tells = true) →
      Instruction.Guards c k (.fork child daemon)
  | suspend {k : Clearance} {next : Action Instruction} :
      Action.Guards c (Instruction.Guards c) next k → Instruction.Guards c k (.suspend next)
  | access {k : Clearance} {next : Value → Action Instruction} :
      (∀ v, v.Omits c → Action.Guards c (Instruction.Guards c) (next v) k) →
      Instruction.Guards c k (.access next)
  | provide {k : Clearance} {environment : Value} {body : Instruction} : environment.Omits c →
      Instruction.Guards c k body → Instruction.Guards c k (.provide environment body)
  | setInterruptible {k : Clearance} {body : Instruction} {allowed : Bool} :
      Instruction.Guards c k body → Instruction.Guards c k (.setInterruptible allowed body)
  | interruptStatus {k : Clearance} {next : Bool → Action Instruction} :
      (∀ b, Action.Guards c (Instruction.Guards c) (next b) k) →
      Instruction.Guards c k (.interruptStatus next)
  | descriptor {k : Clearance} {next : FiberId → Action Instruction} :
      (∀ id, Action.Guards c (Instruction.Guards c) (next id) k) →
      Instruction.Guards c k (.descriptor next)
  | signal (k : Clearance) (target : FiberId) : Instruction.Guards c k (.signal target)
  | yield (k : Clearance) : Instruction.Guards c k .yield
  | update {k : Clearance} {cell : CellId} {f : Value → Action (Update Value)} :
      (∀ v, v.Omits c → (f v).Guards c (fun (_ : Unit) u => u.Omits c) ()) →
      Instruction.Guards c k (.update cell f)
  | reserve {k : Clearance} {v : Value} {release : Release} : v.Omits c →
      Release.Guards c release → Instruction.Guards c k (.reserve v release)
  | release {exit : Exit Value Value} (release : ReleaseId) : exit.Omits c →
      Instruction.Guards c .none (.release release exit)
  | releaseLease {exit : Exit Value Value} (lease : LeaseId) : exit.Omits c →
      Instruction.Guards c .none (.releaseLease lease exit)

/-- A release whose code has not been told of the fiber. -/
inductive Release.Guards (c : FiberId) : Release → Prop where
  | code {build : Exit Value Value → Action Instruction} :
      (∀ x : Exit Value Value, x.Omits c →
        Action.Guards c (Instruction.Guards c) (build x) .none) →
      Release.Guards c (.code build)
  | nested (type : ErrorType) (inner outer : ReleaseId) : Release.Guards c (.nested type inner outer)
  | both (type : ErrorType) (left right : ReleaseId) : Release.Guards c (.both type left right)
  | within {environment : Value → Action Value} (release : ReleaseId) :
      (∀ v, v.Omits c → (environment v).Omits c) → Release.Guards c (.within environment release)

end

section Cleared

variable {c : FiberId} {k : Clearance} {tells : Bool}

/-- What omits the handle may be handed on with any clearance. -/
theorem Value.Omits.cleared {v : Value} (h : v.Omits c) : v.Cleared c tells := Or.inr h

theorem Value.Cleared.omits {v : Value} (h : v.Cleared c false) : v.Omits c :=
  h.resolve_left Bool.false_ne_true

theorem Outcome.Omits.cleared {o : Outcome} (h : Outcome.Omits c o) : Outcome.Cleared c k o :=
  Exit.Holds.imp h (fun _ => id) fun _ hv => hv.cleared

/-- The handle of a fiber may be handed on by who has started it. -/
theorem Value.cleared_fiber {id : FiberId} (h : id = c → tells = true) :
    (Value.fiber id).Cleared c tells := by
  by_cases hc : id = c
  · exact Or.inl (h hc)
  · exact Or.inr (.fiber hc)

theorem Instruction.guards_die (d : Defect) : (Instruction.die d).Guards c k :=
  .done (Outcome.omits_die c d).cleared

theorem Instruction.guards_value {v : Value} (h : v.Omits c) : (Instruction.value v).Guards c k :=
  .done (k := k) (Outcome.Omits.cleared (o := .done v) h)

end Cleared

end Fibers
