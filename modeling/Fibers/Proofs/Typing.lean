import Mathlib.Logic.Function.Basic
import Mathlib.Order.Basic
import Fibers.Effect.Basic

/-!
# Types of effects

The interpreter handles values and failures whose types it does not know.  A program whose effects
have types says what it expects of them: which values an effect ends with, of which type its
failures are, and in which environment it runs.  This file says what it is for an instruction to be
typed, and with it for the code that instructions hold.

What a handle stands for is not seen from the handle.  A context tells the types of all that has
been made so far, and code is typed in a context; it has to be in every later one, as more is made
while it waits to be carried out.  An action is typed if each of its operations is asked for
something of the right type, whichever replies of the right types come, and if it ends with
something of the right type or panics with a defect that is allowed.

Which defects are allowed is left open, so that what is said about types can be said of every kind
of defect that comes from the runtime alone.

## Main definitions

* `Ty`, `Ending`, `Signature` — the types of values, of ends, and of effects.
* `Context` — the types of all that handles stand for.
* `Value.HasTy`, `Halt.Fits`, `Outcome.Fits` — values, failures and ends of some types.
* `Operation.Grants`, `Action.Safe` — typed operations and actions.
* `Instruction.Typed`, `Release.Typed` — typed instructions.

## Main results

* `Instruction.Typed.mono` — what is typed stays typed as more is made.
-/

namespace Fibers

/-! ### Leaves -/

section Leaves

variable {ε ε' α : Type} {P : ε → Prop} {P' : ε' → Prop} {D : Defect → Prop}

/-- What a leaf records is as it should be. -/
def Leaf.Holds (P : ε → Prop) (D : Defect → Prop) : Leaf ε → Prop
  | .fail e => P e
  | .die d => D d
  | .interrupt _ => True

/-- All that a cause records is as it should be. -/
def Cause.Holds (P : ε → Prop) (D : Defect → Prop) (c : Cause ε) : Prop :=
  ∀ l ∈ c.leaves, l.Holds P D

/-- All that a halt records is as it should be, in its primary cause and in the others. -/
def Halt.Holds (P : ε → Prop) (D : Defect → Prop) (h : Halt ε) : Prop :=
  ∀ l ∈ h.leaves, l.Holds P D

/-- The value of an exit, or all that it records, is as it should be. -/
def Exit.Holds (P : ε → Prop) (D : Defect → Prop) (Q : α → Prop) : Exit ε α → Prop
  | .done a => Q a
  | .halt h => h.Holds P D

theorem Leaf.Holds.imp {l : Leaf ε} {Q : ε → Prop} (h : l.Holds P D) (hPQ : ∀ e, P e → Q e) :
    l.Holds Q D := by
  cases l with
  | fail e => exact hPQ e h
  | die d => exact h
  | interrupt source => trivial

namespace Cause

theorem holds_fail {e : ε} (h : P e) : (Cause.fail e).Holds P D := by
  intro l hl
  obtain rfl := List.mem_singleton.mp hl
  exact h

theorem holds_die {d : Defect} (h : D d) : (Cause.die d : Cause ε).Holds P D := by
  intro l hl
  obtain rfl := List.mem_singleton.mp hl
  exact h

theorem holds_interrupt (source : FiberId) : (Cause.interrupt source : Cause ε).Holds P D := by
  intro l hl
  obtain rfl := List.mem_singleton.mp hl
  trivial

theorem Holds.andThen {c c' : Cause ε} (h : c.Holds P D) (h' : c'.Holds P D) :
    (c.andThen c').Holds P D := by
  rw [Holds, leaves_andThen, List.forall_mem_append]
  exact ⟨h, h'⟩

theorem Holds.alongside {c c' : Cause ε} (h : c.Holds P D) (h' : c'.Holds P D) :
    (c.alongside c').Holds P D := by
  rw [Holds, leaves_alongside, List.forall_mem_append]
  exact ⟨h, h'⟩

theorem Holds.flatMap {c : Cause ε} {f : ε → Cause ε'} (h : c.Holds P D)
    (hf : ∀ e, P e → (f e).Holds P' D) : (c.flatMap f).Holds P' D := by
  intro l hl
  rw [leaves_flatMap, List.mem_flatMap] at hl
  obtain ⟨l', hl', hmem⟩ := hl
  cases l' with
  | fail e => exact hf e (h _ hl') l hmem
  | die d =>
    obtain rfl := List.mem_singleton.mp hmem
    exact h _ hl'
  | interrupt source =>
    obtain rfl := List.mem_singleton.mp hmem
    trivial

/-- What a program recovers from is a leaf of the cause. -/
theorem Holds.failureOrCause {c : Cause ε} (h : c.Holds P D) :
    match c.failureOrCause with
    | .ok e => P e
    | .error c' => c' = c := by
  have hfirst : seekFailure [c] = c.firstFailure := by
    rw [seekFailure, firstFailure, failures, visited, List.filterMap_filterMap,
      List.head?_filterMap]
  unfold Cause.failureOrCause
  cases hseek : c.firstFailure with
  | none => simp [isFailure, hseek]
  | some e =>
    simp only [isFailure, hseek, hfirst, Option.isSome_some, if_true]
    have hmem : e ∈ c.leaves.filterMap Leaf.failure? := by
      rw [firstFailure, failures, visited_eq_leaves] at hseek
      exact List.mem_of_head? hseek
    obtain ⟨l, hl, hfailure⟩ := List.mem_filterMap.mp hmem
    cases l with
    | fail e' =>
      obtain rfl := Option.some.inj hfailure
      exact h _ hl
    | die _ | interrupt _ => cases hfailure

end Cause

namespace Halt

theorem holds_of {c : Cause ε} (h : c.Holds P D) : (Halt.of c).Holds P D := by
  rw [Holds, leaves, causes, of, List.flatMap_singleton]
  exact h

theorem holds_iff {h : Halt ε} : h.Holds P D ↔ ∀ c ∈ h.causes, c.Holds P D := by
  simp only [Holds, Cause.Holds, leaves, List.mem_flatMap, forall_exists_index, and_imp]
  exact ⟨fun hall c hc l hl => hall l c hc hl, fun hall l c hc hl => hall c hc l hl⟩

theorem Holds.cause {h : Halt ε} (hh : h.Holds P D) : h.cause.Holds P D :=
  holds_iff.mp hh _ List.mem_cons_self

theorem Holds.imp {h : Halt ε} {Q : ε → Prop} (hh : h.Holds P D) (hPQ : ∀ e, P e → Q e) :
    h.Holds Q D := fun l hl => (hh l hl).imp hPQ

theorem Holds.append {h h' : Halt ε} (hh : h.Holds P D) (hh' : h'.Holds P D) :
    (h.append h').Holds P D := by
  rw [Holds, leaves_append, List.forall_mem_append]
  exact ⟨hh, hh'⟩

theorem Holds.withCause {h : Halt ε} {c : Cause ε} (hh : h.Holds P D) (hc : c.Holds P D) :
    ({ h with cause := c } : Halt ε).Holds P D := by
  refine holds_iff.mpr fun c' hc' => ?_
  rcases List.mem_cons.mp hc' with rfl | hmem
  · exact hc
  · exact holds_iff.mp hh c' (List.mem_cons_of_mem _ hmem)

theorem Holds.flatMap {h : Halt ε} {f : ε → Cause ε'} (hh : h.Holds P D)
    (hf : ∀ e, P e → (f e).Holds P' D) : (h.flatMap f).Holds P' D := by
  rw [holds_iff] at hh ⊢
  intro c hc
  rcases List.mem_cons.mp hc with rfl | hmem
  · exact (hh _ List.mem_cons_self).flatMap hf
  · obtain ⟨c', hc', rfl⟩ := List.mem_map.mp hmem
    exact (hh c' (List.mem_cons_of_mem _ hc')).flatMap hf

end Halt

namespace Exit

variable {β : Type} {Q : α → Prop} {Q' : β → Prop}

theorem Holds.imp {x : Exit ε α} {R : ε → Prop} {Q' : α → Prop} (h : x.Holds P D Q)
    (hPR : ∀ e, P e → R e) (hQ : ∀ a, Q a → Q' a) : x.Holds R D Q' := by
  cases x with
  | done a => exact hQ a h
  | halt failure => exact Halt.Holds.imp h hPR

theorem Holds.map {x : Exit ε α} {f : α → β} (h : x.Holds P D Q) (hf : ∀ a, Q a → Q' (f a)) :
    (x.map f).Holds P D Q' := by
  cases x with
  | done a => exact hf a h
  | halt failure => exact h

theorem Holds.withFinalizer {x : Exit ε α} {y : Exit ε β} (hx : x.Holds P D Q)
    (hy : y.Holds P D Q') : (x.withFinalizer y).Holds P D Q := by
  cases x with
  | done a =>
    cases y with
    | done b => exact hx
    | halt h => exact hy
  | halt h =>
    cases y with
    | done b => exact hx
    | halt cleanup => exact Halt.Holds.append hx hy

end Exit

end Leaves

/-! ### Types -/

/-- A type of values. -/
inductive Ty where
  /-- No information. -/
  | unit
  /-- Truth values. -/
  | bool
  /-- Integers. -/
  | int
  /-- Texts. -/
  | text
  /-- Positions below a bound. -/
  | index (bound : Nat)
  /-- Lists. -/
  | list (item : Ty)
  /-- Pairs. -/
  | pair (first second : Ty)
  /-- Something or nothing. -/
  | option (content : Ty)
  /-- Outcomes of attempts. -/
  | result (good bad : Ty)
  /-- Exits. -/
  | exit (error : ErrorType) (value : Ty)
  /-- Identities of fibers. -/
  | id
  /-- Handles of fibers. -/
  | fiber (error : ErrorType) (value : Ty)
  /-- Handles of cells. -/
  | cell (content : Ty)
  /-- Handles of channels. -/
  | channel (content : Ty)
  /-- Interrupt statuses. -/
  | restore
  /-- Leased resources, whose release needs an environment. -/
  | lease (env : Ty) (error : ErrorType) (value : Ty)
  /-- Acquired resources, whose release needs an environment. -/
  | reservation (env : Ty) (error : ErrorType) (value : Ty)
  /-- All of them. -/
  | any
  deriving DecidableEq, Repr, Inhabited

/-- How something ends: with failures of a type, or with values of a type. -/
structure Ending where
  /-- The type of its failures. -/
  error : ErrorType
  /-- The type of its values. -/
  value : Ty
  deriving DecidableEq, Repr, Inhabited

/-- The type of an effect. -/
structure Signature where
  /-- The type of the environment in which it runs. -/
  env : Ty
  /-- The type of its failures. -/
  error : ErrorType
  /-- The type of its values. -/
  value : Ty
  deriving DecidableEq, Repr, Inhabited

namespace Signature

/-- How an effect ends. -/
def ending (σ : Signature) : Ending := ⟨σ.error, σ.value⟩

end Signature

/-- What a program declares once for all. -/
structure Declarations where
  /-- What failures of a type say. -/
  payload : ErrorType → Ty
  /-- How waits end whose places are kept under a name. -/
  named : String → Ending
  /-- The defects that are allowed. -/
  defect : Defect → Prop

/-! ### Contexts -/

/-- The types of all that handles stand for. -/
structure Context where
  /-- How fibers end. -/
  fibers : Nat → Option Ending
  /-- How waits end. -/
  places : Nat → Option Ending
  /-- What cells hold. -/
  cells : Nat → Option Ty
  /-- What channels carry. -/
  channels : Nat → Option Ty
  /-- The environments of releases, and their failures. -/
  releases : Nat → Option (Ty × ErrorType)
  /-- The same for leases. -/
  leases : Nat → Option (Ty × ErrorType)

namespace Context

/-- What a table says another one says too. -/
def Extends {T : Type} (table table' : Nat → Option T) : Prop :=
  ∀ n t, table n = some t → table' n = some t

theorem Extends.refl {T : Type} (table : Nat → Option T) : Extends table table :=
  fun _ _ => id

theorem Extends.trans {T : Type} {table table' table'' : Nat → Option T}
    (h : Extends table table') (h' : Extends table' table'') : Extends table table'' :=
  fun n t ht => h' n t (h n t ht)

/-- A table with one more entry says the same. -/
theorem extends_update {T : Type} {table : Nat → Option T} {n : Nat} (h : table n = none)
    (t : T) : Extends table (Function.update table n (some t)) := by
  intro m t' ht'
  rw [Function.update_of_ne]
  · exact ht'
  · rintro rfl
    rw [h] at ht'
    cases ht'

/-- The later context, in which more has been made. -/
structure Le (Γ Γ' : Context) : Prop where
  fibers : Extends Γ.fibers Γ'.fibers
  places : Extends Γ.places Γ'.places
  cells : Extends Γ.cells Γ'.cells
  channels : Extends Γ.channels Γ'.channels
  releases : Extends Γ.releases Γ'.releases
  leases : Extends Γ.leases Γ'.leases

instance : Preorder Context where
  le := Le
  le_refl Γ := ⟨.refl _, .refl _, .refl _, .refl _, .refl _, .refl _⟩
  le_trans Γ Γ' Γ'' h h' := ⟨h.1.trans h'.1, h.2.trans h'.2, h.3.trans h'.3, h.4.trans h'.4,
    h.5.trans h'.5, h.6.trans h'.6⟩

/-- Nothing has been made. -/
def empty : Context :=
  ⟨fun _ => none, fun _ => none, fun _ => none, fun _ => none, fun _ => none, fun _ => none⟩

end Context

/-! ### Values -/

/-- A value of a type. -/
inductive Value.HasTy (S : Declarations) (Γ : Context) : Ty → Value → Prop where
  | unit : HasTy S Γ .unit .unit
  | bool (b : Bool) : HasTy S Γ .bool (.bool b)
  | int (n : Int) : HasTy S Γ .int (.int n)
  | text (s : String) : HasTy S Γ .text (.text s)
  | index {n bound : Nat} : n < bound → HasTy S Γ (.index bound) (.int n)
  | list {τ : Ty} {items : List Value} : (∀ v ∈ items, HasTy S Γ τ v) →
      HasTy S Γ (.list τ) (.list items)
  | pair {τ τ' : Ty} {a b : Value} : HasTy S Γ τ a → HasTy S Γ τ' b →
      HasTy S Γ (.pair τ τ') (.list [a, b])
  | none (τ : Ty) : HasTy S Γ (.option τ) .none
  | some {τ : Ty} {v : Value} : HasTy S Γ τ v → HasTy S Γ (.option τ) (.some v)
  | ok {τ τ' : Ty} {v : Value} : HasTy S Γ τ v → HasTy S Γ (.result τ τ') (.ok v)
  | err {τ τ' : Ty} {v : Value} : HasTy S Γ τ' v → HasTy S Γ (.result τ τ') (.err v)
  | done {ε : ErrorType} {τ : Ty} {v : Value} : HasTy S Γ τ v →
      HasTy S Γ (.exit ε τ) (.exit (.done v))
  /-- A failed exit says something of the right type in each of its failures. -/
  | halt {ε : ErrorType} {τ : Ty} {h : Halt Value} :
      (∀ v, .fail v ∈ h.leaves → HasTy S Γ (S.payload ε) v) →
      (∀ d, .die d ∈ h.leaves → S.defect d) → HasTy S Γ (.exit ε τ) (.exit (.halt h))
  | id (fiber : FiberId) : HasTy S Γ .id (.id fiber)
  | fiber {ε : ErrorType} {τ : Ty} {fiber : FiberId} : Γ.fibers fiber.raw = Option.some ⟨ε, τ⟩ →
      HasTy S Γ (.fiber ε τ) (.fiber fiber)
  | cell {τ : Ty} {cell : CellId} : Γ.cells cell.index = Option.some τ →
      HasTy S Γ (.cell τ) (.cell cell)
  | channel {τ : Ty} {channel : ChannelId} : Γ.channels channel.index = Option.some τ →
      HasTy S Γ (.channel τ) (.channel channel)
  | restore (b : Bool) : HasTy S Γ .restore (.restore b)
  | lease {ρ : Ty} {ε : ErrorType} {τ : Ty} {lease : LeaseId} {v : Value} :
      Γ.leases lease.index = Option.some (ρ, ε) → HasTy S Γ τ v →
      HasTy S Γ (.lease ρ ε τ) (.lease lease v)
  | reservation {ρ : Ty} {ε : ErrorType} {τ : Ty} {v : Value} {release : ReleaseId} :
      HasTy S Γ τ v → Γ.releases release.index = Option.some (ρ, ε) →
      HasTy S Γ (.reservation ρ ε τ) (.reservation v release)
  | any {τ : Ty} {v : Value} : HasTy S Γ τ v → HasTy S Γ .any v

/-- A failure of a type, which says something of the right type. -/
structure Failure.Fits (S : Declarations) (Γ : Context) (ε : ErrorType) (e : Failure) : Prop where
  type : e.type = ε
  value : e.value.HasTy S Γ (S.payload ε)

/-- A halt all of whose failures have a type. -/
def Halt.Fits (S : Declarations) (Γ : Context) (ε : ErrorType) (h : Halt Failure) : Prop :=
  h.Holds (Failure.Fits S Γ ε) S.defect

/-- An end with a value of a type, or with failures of a type. -/
def Outcome.Fits (S : Declarations) (Γ : Context) (e : Ending) (o : Outcome) : Prop :=
  o.Holds (Failure.Fits S Γ e.error) S.defect (Value.HasTy S Γ e.value)

/-- An exit, as programs see it, of the given types. -/
def Exit.Fits (S : Declarations) (Γ : Context) (ε : ErrorType) (τ : Ty) (x : Exit Value Value) :
    Prop :=
  x.Holds (Value.HasTy S Γ (S.payload ε)) S.defect (Value.HasTy S Γ τ)

/-- What an update makes of a value of a type: a value to write of the same type, and a result. -/
structure Update.Fits (S : Declarations) (Γ : Context) (τs : Ty × Ty) (u : Update Value) :
    Prop where
  result : u.result.HasTy S Γ τs.2
  next : ∀ v, u.next = some v → v.HasTy S Γ τs.1

section Values

variable {S : Declarations} {Γ Γ' : Context} {τ τ' : Ty} {ε ε' : ErrorType} {v : Value}

/-- **A value keeps its type as more is made.** -/
theorem Value.HasTy.mono (hle : Γ ≤ Γ') (h : v.HasTy S Γ τ) : v.HasTy S Γ' τ := by
  induction h with
  | unit => exact .unit
  | bool b => exact .bool b
  | int n => exact .int n
  | text s => exact .text s
  | index h => exact .index h
  | list _ ih => exact .list ih
  | pair _ _ iha ihb => exact .pair iha ihb
  | none τ => exact .none τ
  | some _ ih => exact .some ih
  | ok _ ih => exact .ok ih
  | err _ ih => exact .err ih
  | done _ ih => exact .done ih
  | halt _ hd ih => exact .halt ih hd
  | id fiber => exact .id fiber
  | fiber h => exact .fiber (hle.fibers _ _ h)
  | cell h => exact .cell (hle.cells _ _ h)
  | channel h => exact .channel (hle.channels _ _ h)
  | restore b => exact .restore b
  | lease h _ ih => exact .lease (hle.leases _ _ h) ih
  | reservation _ h ih => exact .reservation ih (hle.releases _ _ h)
  | any _ ih => exact .any ih

theorem Failure.Fits.mono {e : Failure} (hle : Γ ≤ Γ') (h : e.Fits S Γ ε) : e.Fits S Γ' ε :=
  ⟨h.type, h.value.mono hle⟩

theorem Halt.Fits.mono {h : Halt Failure} (hle : Γ ≤ Γ') (hh : h.Fits S Γ ε) : h.Fits S Γ' ε :=
  Halt.Holds.imp hh fun _ he => he.mono hle

theorem Outcome.Fits.mono {o : Outcome} {e : Ending} (hle : Γ ≤ Γ') (h : Outcome.Fits S Γ e o) :
    Outcome.Fits S Γ' e o :=
  Exit.Holds.imp h (fun _ he => he.mono hle) fun _ hv => hv.mono hle

theorem Exit.Fits.mono {x : Exit Value Value} (hle : Γ ≤ Γ') (h : x.Fits S Γ ε τ) :
    x.Fits S Γ' ε τ :=
  Exit.Holds.imp h (fun _ hv => hv.mono hle) fun _ hv => hv.mono hle

theorem Update.Fits.mono {τs : Ty × Ty} {u : Update Value} (hle : Γ ≤ Γ') (h : u.Fits S Γ τs) :
    u.Fits S Γ' τs :=
  ⟨h.result.mono hle, fun v hv => (h.next v hv).mono hle⟩

/-! ### Looking into values -/

theorem Value.HasTy.of_exit {x : Exit Value Value} (h : x.Fits S Γ ε τ) :
    (Value.exit x).HasTy S Γ (.exit ε τ) := by
  cases x with
  | done v => exact .done h
  | halt failure => exact .halt (fun v hv => h _ hv) fun d hd => h _ hd

theorem Value.HasTy.exists_exit (h : v.HasTy S Γ (.exit ε τ)) :
    ∃ x, v = .exit x ∧ x.Fits S Γ ε τ := by
  cases h with
  | done hv => exact ⟨_, rfl, hv⟩
  | halt hfail hdie =>
    refine ⟨_, rfl, fun l hl => ?_⟩
    cases l with
    | fail v => exact hfail v hl
    | die d => exact hdie d hl
    | interrupt source => trivial

/-! ### Ends -/

theorem Outcome.fits_die {d : Defect} (h : S.defect d) (e : Ending) :
    Outcome.Fits S Γ e (.die d) :=
  Halt.holds_of (Cause.holds_die h)

theorem Outcome.fits_interrupt (source : FiberId) (e : Ending) :
    Outcome.Fits S Γ e (.interrupt source) :=
  Halt.holds_of (Cause.holds_interrupt source)

/-- **Failures of one type are found to be of that type.** -/
theorem Halt.Fits.untag {h : Halt Failure} (hh : h.Fits S Γ ε) :
    (h.untag ε).Holds (Value.HasTy S Γ (S.payload ε)) S.defect := by
  refine Halt.Holds.flatMap hh fun e he => ?_
  rw [if_pos he.type]
  exact Cause.holds_fail he.value

theorem Outcome.Fits.untag {o : Outcome} (h : Outcome.Fits S Γ ⟨ε, τ⟩ o) :
    (Exit.untag ε o).Fits S Γ ε τ := by
  cases o with
  | done v => exact h
  | halt failure => exact Halt.Fits.untag h

theorem Halt.fits_tag {h : Halt Value} (hh : h.Holds (Value.HasTy S Γ (S.payload ε)) S.defect) :
    (h.tag ε).Fits S Γ ε :=
  Halt.Holds.flatMap hh fun _ hv => Cause.holds_fail ⟨rfl, hv⟩

theorem Exit.Fits.tag {x : Exit Value Value} (h : x.Fits S Γ ε τ) :
    Outcome.Fits S Γ ⟨ε, τ⟩ (x.tag ε) := by
  cases x with
  | done v => exact h
  | halt failure => exact Halt.fits_tag h

/-- Where failures are discarded, what is left has failures of every type. -/
theorem Halt.Fits.discard {h : Halt Failure} {reason : String} (hh : h.Fits S Γ ε)
    (hreason : S.defect (.runtime reason)) : (h.discard reason).Fits S Γ ε' :=
  Halt.Holds.flatMap hh fun _ _ => Cause.holds_die hreason

end Values

/-! ### Actions -/

/-- What programs can rely on in what they see of a store. -/
structure Store.Shows (S : Declarations) (Γ : Context) (store : Store) : Prop where
  cells : ∀ {n τ}, Γ.cells n = some τ →
    ∃ c, store.cells.get? n = some c ∧ c.value.HasTy S Γ τ
  channels : ∀ {n τ}, Γ.channels n = some τ → ∃ ch, store.channels.get? n = some ch
  handles : ∀ h ∈ store.handles, Γ.places h.2.index = some (S.named h.1)

/-- `op.Grants S Γ R` says that an operation can be asked for, and that its reply satisfies `R`
afterwards. -/
inductive Operation.Grants (S : Declarations) (Γ : Context) :
    (op : Operation) → (Context → op.Reply → Prop) → Prop where
  | observe : Grants S Γ .observe fun Γ' (store : Store) => store.Shows S Γ'
  | log (note : Note) : Grants S Γ (.log note) fun _ _ => True
  | newCell {τ : Ty} {v : Value} : v.HasTy S Γ τ →
      Grants S Γ (.newCell v) fun Γ' (cell : CellId) => Γ'.cells cell.index = some τ
  | writeCell {τ : Ty} {cell : CellId} {v : Value} : Γ.cells cell.index = some τ →
      v.HasTy S Γ τ → Grants S Γ (.writeCell cell v) fun _ _ => True
  | newChannel (τ : Ty) (capacity : Option Nat) :
      Grants S Γ (.newChannel capacity) fun Γ' (made : Except ChannelError ChannelId) =>
        ∀ channel, made = .ok channel → Γ'.channels channel.index = some τ
  | drain {τ : Ty} {channel : ChannelId} (limit : Option Nat) :
      Γ.channels channel.index = some τ →
      Grants S Γ (.drain channel limit) fun Γ' (drained : Except FiberId (List Value)) =>
        ∀ vs, drained = .ok vs → ∀ v ∈ vs, v.HasTy S Γ' τ
  | close (channel : ChannelId) (source : FiberId) :
      Grants S Γ (.close channel source) fun _ _ => True
  | complete {e : Ending} {waiter : SuspensionId} {outcome : Outcome} :
      Γ.places waiter.index = some e → Outcome.Fits S Γ e outcome →
      Grants S Γ (.complete waiter outcome) fun _ _ => True
  | keep {name : String} {waiter : SuspensionId} :
      Γ.places waiter.index = some (S.named name) →
      Grants S Γ (.keep name waiter) fun _ _ => True
  | newMark : Grants S Γ .newMark fun _ _ => True
  | useMark (mark : Nat) : Grants S Γ (.useMark mark) fun _ _ => True
  | newLease {t : Ty × ErrorType} {release : ReleaseId} : Γ.releases release.index = some t →
      Grants S Γ (.newLease release) fun Γ' (lease : LeaseId) => Γ'.leases lease.index = some t

/-- An action all of whose operations are typed, that ends with something as `Q` says of the index
`j`, or panics with a defect that is allowed.  `Q` is told what has been made by then. -/
inductive Action.Safe (S : Declarations) {J α : Type} (Q : Context → J → α → Prop) :
    Context → J → Action α → Prop where
  | done {Γ : Context} {j : J} {a : α} : Q Γ j a → Safe S Q Γ j (.done a)
  | panic {Γ : Context} {j : J} {d : Defect} : S.defect d → Safe S Q Γ j (.panic d)
  | perform {Γ : Context} {j : J} {op : Operation} {next : op.Reply → Action α}
      {R : Context → op.Reply → Prop} : op.Grants S Γ R →
      (∀ Γ', Γ ≤ Γ' → ∀ reply, R Γ' reply → Safe S Q Γ' j (next reply)) →
      Safe S Q Γ j (.perform op next)

/-- An action that may end with anything. -/
def Action.Harmless {α : Type} (S : Declarations) (Γ : Context) (a : Action α) : Prop :=
  a.Safe S (fun _ (_ : Unit) _ => True) Γ ()

section Actions

variable {S : Declarations} {Γ Γ' : Context} {J K α β : Type} {Q : Context → J → α → Prop}
  {Q' : Context → K → β → Prop} {j : J} {k : K}

theorem Operation.Grants.mono {op : Operation} {R : Context → op.Reply → Prop} (hle : Γ ≤ Γ')
    (h : op.Grants S Γ R) : op.Grants S Γ' R := by
  cases h with
  | observe => exact .observe
  | log note => exact .log note
  | newCell hv => exact .newCell (hv.mono hle)
  | writeCell hcell hv => exact .writeCell (hle.cells _ _ hcell) (hv.mono hle)
  | newChannel τ capacity => exact .newChannel τ capacity
  | drain limit hchannel => exact .drain limit (hle.channels _ _ hchannel)
  | close channel source => exact .close channel source
  | complete hplace ho => exact .complete (hle.places _ _ hplace) (ho.mono hle)
  | keep hplace => exact .keep (hle.places _ _ hplace)
  | newMark => exact .newMark
  | useMark mark => exact .useMark mark
  | newLease hrelease => exact .newLease (hle.releases _ _ hrelease)

namespace Action.Safe

theorem mono {a : Action α} (hQ : ∀ {Γ Γ' a}, Γ ≤ Γ' → Q Γ j a → Q Γ' j a) (hle : Γ ≤ Γ')
    (h : a.Safe S Q Γ j) : a.Safe S Q Γ' j := by
  cases h with
  | done h => exact .done (hQ hle h)
  | panic h => exact .panic h
  | perform hop hnext =>
    exact .perform (hop.mono hle) fun Γ'' hle' => hnext Γ'' (hle.trans hle')

/-- One action after the other. -/
theorem bind {a : Action α} {f : α → Action β} (h : a.Safe S Q Γ j)
    (hf : ∀ Γ', Γ ≤ Γ' → ∀ x, Q Γ' j x → (f x).Safe S Q' Γ' k) : (a >>= f).Safe S Q' Γ k := by
  induction h with
  | done h => exact hf _ le_rfl _ h
  | panic h => exact .panic h
  | perform hop _ ih =>
    exact .perform hop fun Γ' hle reply hreply =>
      ih Γ' hle reply hreply fun Γ'' hle' => hf Γ'' (hle.trans hle')

theorem imp {Q' : Context → K → α → Prop} {a : Action α} (h : a.Safe S Q Γ j)
    (hQ : ∀ Γ', Γ ≤ Γ' → ∀ x, Q Γ' j x → Q' Γ' k x) : a.Safe S Q' Γ k := by
  induction h with
  | done h => exact .done (hQ _ le_rfl _ h)
  | panic h => exact .panic h
  | perform hop _ ih =>
    exact .perform hop fun Γ' hle reply hreply =>
      ih Γ' hle reply hreply fun Γ'' hle' => hQ Γ'' (hle.trans hle')

/-- A panic that is turned into a result. -/
theorem recover {a : Action α} {handler : Defect → α} (h : a.Safe S Q Γ j)
    (hhandler : ∀ Γ', Γ ≤ Γ' → ∀ d, S.defect d → Q Γ' j (handler d)) :
    (a.recover handler).Safe S Q Γ j := by
  induction h with
  | done h => exact .done h
  | panic h => exact .done (hhandler _ le_rfl _ h)
  | perform hop _ ih =>
    exact .perform hop fun Γ' hle reply hreply =>
      ih Γ' hle reply hreply fun Γ'' hle' => hhandler Γ'' (hle.trans hle')

end Action.Safe

/-- The action of one operation ends with its reply. -/
theorem Action.safe_operation {op : Operation} {R : Context → op.Reply → Prop}
    (h : op.Grants S Γ R) :
    (Action.operation op).Safe S (fun Γ' (_ : Unit) reply => R Γ' reply) Γ () :=
  .perform h fun _ _ _ hreply => .done hreply

end Actions

/-! ### Instructions -/

/-- A wait that ends in the given way. -/
inductive Registration.Typed (S : Declarations) (Γ : Context) : Ending → Registration → Prop where
  /-- Whoever is handed the place completes the wait in this way. -/
  | callback {e : Ending} {register : SuspensionId → Action (Action Unit)} :
      (∀ Γ', Γ ≤ Γ' → ∀ s : SuspensionId, Γ'.places s.index = some e →
        (register s).Safe S (fun Γ' (_ : Unit) cancel => cancel.Harmless S Γ') Γ' ()) →
      Typed S Γ e (.callback register)
  | sleep (ε : ErrorType) (millis : Nat) : Typed S Γ ⟨ε, .unit⟩ (.sleep millis)
  | awaitExit {ε ε' : ErrorType} {τ : Ty} {fiber : FiberId} :
      Γ.fibers fiber.raw = some ⟨ε', τ⟩ → Typed S Γ ⟨ε, .exit ε' τ⟩ (.awaitExit fiber ε')
  | firstDone {e e' : Ending} {left right : FiberId} (ε : ErrorType) :
      Γ.fibers left.raw = some e → Γ.fibers right.raw = some e' →
      Typed S Γ ⟨ε, .bool⟩ (.firstDone left right)
  | firstFailure {children : List FiberId} (ε : ErrorType) :
      (∀ c ∈ children, ∃ e, Γ.fibers c.raw = some e) →
      Typed S Γ ⟨ε, .option (.index children.length)⟩ (.firstFailure children)
  | offer {ε : ErrorType} {τ : Ty} {channel : ChannelId} {v : Value} :
      Γ.channels channel.index = some τ → v.HasTy S Γ τ →
      Typed S Γ ⟨ε, .unit⟩ (.offer channel v)
  | take {ε : ErrorType} {τ : Ty} {channel : ChannelId} :
      Γ.channels channel.index = some τ → Typed S Γ ⟨ε, τ⟩ (.take channel)
  | awaitClose (ε : ErrorType) (channel : ChannelId) :
      Typed S Γ ⟨ε, .unit⟩ (.awaitClose channel)

mutual

/-- A typed instruction.  The code it holds is typed in every later context, on arguments of the
right types. -/
inductive Instruction.Typed (S : Declarations) : Context → Signature → Instruction → Prop where
  | done {Γ : Context} {σ : Signature} {outcome : Outcome} :
      Outcome.Fits S Γ σ.ending outcome → Instruction.Typed S Γ σ (.done outcome)
  | sync {Γ : Context} {σ : Signature} {action : Action Outcome} :
      (∀ Γ', Γ ≤ Γ' → action.Safe S (Outcome.Fits S) Γ' σ.ending) →
      Instruction.Typed S Γ σ (.sync action)
  | wait {Γ : Context} {σ : Signature} {registration : Registration} :
      registration.Typed S Γ σ.ending → Instruction.Typed S Γ σ (.wait registration)
  | chain {Γ : Context} {ρ : Ty} {ε : ErrorType} {τ τ' : Ty} {first : Instruction}
      {next : Value → Action Instruction} :
      Instruction.Typed S Γ ⟨ρ, ε, τ⟩ first →
      (∀ Γ', Γ ≤ Γ' → ∀ v, v.HasTy S Γ' τ →
        Action.Safe S (Instruction.Typed S) Γ' ⟨ρ, ε, τ'⟩ (next v)) →
      Instruction.Typed S Γ ⟨ρ, ε, τ'⟩ (.chain first next)
  /-- A fold may change the type of failures, but not if it is said not to. -/
  | fold {Γ : Context} {ρ : Ty} {ε ε' : ErrorType} {τ τ' : Ty} {first : Instruction}
      {onHalt : Halt Failure → Action Instruction} {onDone : Value → Action Instruction}
      {sameError : Bool} :
      Instruction.Typed S Γ ⟨ρ, ε, τ⟩ first →
      (∀ Γ', Γ ≤ Γ' → ∀ h, h.Fits S Γ' ε →
        Action.Safe S (Instruction.Typed S) Γ' ⟨ρ, ε', τ'⟩ (onHalt h)) →
      (∀ Γ', Γ ≤ Γ' → ∀ v, v.HasTy S Γ' τ →
        Action.Safe S (Instruction.Typed S) Γ' ⟨ρ, ε', τ'⟩ (onDone v)) →
      (sameError = true → ε = ε') →
      Instruction.Typed S Γ ⟨ρ, ε', τ'⟩ (.fold first onHalt onDone sameError)
  | loop {Γ : Context} {ρ : Ty} {ε : ErrorType} {τ τ' : Ty} {state : Value}
      {body : Value → Action Instruction} : state.HasTy S Γ τ →
      (∀ Γ', Γ ≤ Γ' → ∀ v, v.HasTy S Γ' τ →
        Action.Safe S (Instruction.Typed S) Γ' ⟨ρ, ε, .result τ' τ⟩ (body v)) →
      Instruction.Typed S Γ ⟨ρ, ε, τ'⟩ (.loop state body)
  | mapError {Γ : Context} {ρ : Ty} {ε ε' : ErrorType} {τ : Ty} {first : Instruction}
      {f : Value → Action Value} :
      Instruction.Typed S Γ ⟨ρ, ε, τ⟩ first →
      (∀ Γ', Γ ≤ Γ' → ∀ v, v.HasTy S Γ' (S.payload ε) →
        (f v).Safe S (Value.HasTy S) Γ' (S.payload ε')) →
      Instruction.Typed S Γ ⟨ρ, ε', τ⟩ (.mapError first ε ε' f)
  | fork {Γ : Context} {ρ : Ty} {ε ε' : ErrorType} {τ : Ty} {child : Instruction}
      (daemon : Bool) : Instruction.Typed S Γ ⟨ρ, ε', τ⟩ child →
      Instruction.Typed S Γ ⟨ρ, ε, .fiber ε' τ⟩ (.fork child daemon)
  | suspend {Γ : Context} {σ : Signature} {next : Action Instruction} :
      (∀ Γ', Γ ≤ Γ' → Action.Safe S (Instruction.Typed S) Γ' σ next) →
      Instruction.Typed S Γ σ (.suspend next)
  | access {Γ : Context} {σ : Signature} {next : Value → Action Instruction} :
      (∀ Γ', Γ ≤ Γ' → ∀ v, v.HasTy S Γ' σ.env →
        Action.Safe S (Instruction.Typed S) Γ' σ (next v)) →
      Instruction.Typed S Γ σ (.access next)
  | provide {Γ : Context} {ρ ρ' : Ty} {ε : ErrorType} {τ : Ty} {environment : Value}
      {body : Instruction} : environment.HasTy S Γ ρ' →
      Instruction.Typed S Γ ⟨ρ', ε, τ⟩ body →
      Instruction.Typed S Γ ⟨ρ, ε, τ⟩ (.provide environment body)
  | setInterruptible {Γ : Context} {σ : Signature} {body : Instruction} (allowed : Bool) :
      Instruction.Typed S Γ σ body → Instruction.Typed S Γ σ (.setInterruptible allowed body)
  | interruptStatus {Γ : Context} {σ : Signature} {next : Bool → Action Instruction} :
      (∀ Γ', Γ ≤ Γ' → ∀ b, Action.Safe S (Instruction.Typed S) Γ' σ (next b)) →
      Instruction.Typed S Γ σ (.interruptStatus next)
  | descriptor {Γ : Context} {σ : Signature} {next : FiberId → Action Instruction} :
      (∀ Γ', Γ ≤ Γ' → ∀ id, Action.Safe S (Instruction.Typed S) Γ' σ (next id)) →
      Instruction.Typed S Γ σ (.descriptor next)
  | signal (Γ : Context) (ρ : Ty) (ε : ErrorType) (target : FiberId) :
      Instruction.Typed S Γ ⟨ρ, ε, .unit⟩ (.signal target)
  | yield (Γ : Context) (ρ : Ty) (ε : ErrorType) : Instruction.Typed S Γ ⟨ρ, ε, .unit⟩ .yield
  | update {Γ : Context} {ρ : Ty} {ε : ErrorType} {τ τ' : Ty} {cell : CellId}
      {f : Value → Action (Update Value)} : Γ.cells cell.index = some τ →
      (∀ Γ', Γ ≤ Γ' → ∀ v, v.HasTy S Γ' τ → (f v).Safe S (Update.Fits S) Γ' (τ, τ')) →
      Instruction.Typed S Γ ⟨ρ, ε, τ'⟩ (.update cell f)
  | reserve {Γ : Context} {ρ : Ty} {ε : ErrorType} {τ : Ty} {v : Value} {release : Release} :
      v.HasTy S Γ τ → Release.Typed S Γ (ρ, ε) release →
      Instruction.Typed S Γ ⟨ρ, ε, .reservation ρ ε τ⟩ (.reserve v release)
  | release {Γ : Context} {ρ : Ty} {ε : ErrorType} {release : ReleaseId}
      {exit : Exit Value Value} : Γ.releases release.index = some (ρ, ε) →
      exit.Fits S Γ ε .unit → Instruction.Typed S Γ ⟨ρ, ε, .unit⟩ (.release release exit)
  | releaseLease {Γ : Context} {ρ : Ty} {ε : ErrorType} {lease : LeaseId}
      {exit : Exit Value Value} : Γ.leases lease.index = some (ρ, ε) →
      exit.Fits S Γ ε .unit → Instruction.Typed S Γ ⟨ρ, ε, .unit⟩ (.releaseLease lease exit)
  /-- What may be carried out once is typed as what is carried out then. -/
  | once {Γ : Context} {σ : Signature} {e : Instruction} (mark : Nat) :
      Instruction.Typed S Γ σ e → Instruction.Typed S Γ σ (@Effect.once σ.error mark e)

/-- A typed release, which is carried out in an environment of a type and for exits with failures
of a type, and has failures of that type itself. -/
inductive Release.Typed (S : Declarations) : Context → Ty × ErrorType → Release → Prop where
  | code {Γ : Context} {ρ : Ty} {ε : ErrorType} {build : Exit Value Value → Action Instruction} :
      (∀ Γ', Γ ≤ Γ' → ∀ x, x.Fits S Γ' ε .unit →
        Action.Safe S (Instruction.Typed S) Γ' ⟨ρ, ε, .unit⟩ (build x)) →
      Release.Typed S Γ (ρ, ε) (.code build)
  | nested {Γ : Context} {ρ : Ty} {ε : ErrorType} {inner outer : ReleaseId} :
      Γ.releases inner.index = some (ρ, ε) → Γ.releases outer.index = some (ρ, ε) →
      Release.Typed S Γ (ρ, ε) (.nested ε inner outer)
  | both {Γ : Context} {ρ : Ty} {ε : ErrorType} {left right : ReleaseId} :
      Γ.releases left.index = some (ρ, ε) → Γ.releases right.index = some (ρ, ε) →
      Release.Typed S Γ (ρ, ε) (.both ε left right)
  | within {Γ : Context} {ρ ρ' : Ty} {ε : ErrorType} {environment : Value → Action Value}
      {release : ReleaseId} :
      (∀ Γ', Γ ≤ Γ' → ∀ v, v.HasTy S Γ' ρ → (environment v).Safe S (Value.HasTy S) Γ' ρ') →
      Γ.releases release.index = some (ρ', ε) →
      Release.Typed S Γ (ρ, ε) (.within environment release)

end

section Instructions

variable {S : Declarations} {Γ Γ' : Context}

theorem Registration.Typed.mono {e : Ending} {r : Registration} (hle : Γ ≤ Γ')
    (h : r.Typed S Γ e) : r.Typed S Γ' e := by
  cases h with
  | callback h => exact .callback fun Γ'' hle' => h Γ'' (hle.trans hle')
  | sleep ε millis => exact .sleep ε millis
  | awaitExit h => exact .awaitExit (hle.fibers _ _ h)
  | firstDone ε hleft hright =>
    exact .firstDone ε (hle.fibers _ _ hleft) (hle.fibers _ _ hright)
  | firstFailure ε hchildren =>
    refine .firstFailure ε fun c hc => ?_
    obtain ⟨e', he'⟩ := hchildren c hc
    exact ⟨e', hle.fibers _ _ he'⟩
  | offer h hv => exact .offer (hle.channels _ _ h) (hv.mono hle)
  | take h => exact .take (hle.channels _ _ h)
  | awaitClose ε channel => exact .awaitClose ε channel

theorem Release.Typed.mono {t : Ty × ErrorType} {r : Release} (hle : Γ ≤ Γ')
    (h : r.Typed S Γ t) : r.Typed S Γ' t := by
  cases h with
  | code h => exact .code fun Γ'' hle' => h Γ'' (hle.trans hle')
  | nested hinner houter =>
    exact .nested (hle.releases _ _ hinner) (hle.releases _ _ houter)
  | both hleft hright => exact .both (hle.releases _ _ hleft) (hle.releases _ _ hright)
  | within h hrelease =>
    exact .within (fun Γ'' hle' => h Γ'' (hle.trans hle')) (hle.releases _ _ hrelease)

/-- **What is typed stays typed as more is made.** -/
theorem Instruction.Typed.mono : ∀ {Γ Γ' : Context} {σ : Signature} {i : Instruction},
    Γ ≤ Γ' → i.Typed S Γ σ → i.Typed S Γ' σ
  | _, _, _, _, hle, .done h => .done (h.mono hle)
  | _, _, _, _, hle, .sync h => .sync fun Γ'' hle' => h Γ'' (hle.trans hle')
  | _, _, _, _, hle, .wait h => .wait (h.mono hle)
  | _, _, _, _, hle, .chain h hnext =>
    .chain (h.mono hle) fun Γ'' hle' => hnext Γ'' (hle.trans hle')
  | _, _, _, _, hle, .fold h hhalt hdone hsame =>
    .fold (h.mono hle) (fun Γ'' hle' => hhalt Γ'' (hle.trans hle'))
      (fun Γ'' hle' => hdone Γ'' (hle.trans hle')) hsame
  | _, _, _, _, hle, .loop hv hbody =>
    .loop (hv.mono hle) fun Γ'' hle' => hbody Γ'' (hle.trans hle')
  | _, _, _, _, hle, .mapError h hf =>
    .mapError (h.mono hle) fun Γ'' hle' => hf Γ'' (hle.trans hle')
  | _, _, _, _, hle, .fork daemon h => .fork daemon (h.mono hle)
  | _, _, _, _, hle, .suspend h => .suspend fun Γ'' hle' => h Γ'' (hle.trans hle')
  | _, _, _, _, hle, .access h => .access fun Γ'' hle' => h Γ'' (hle.trans hle')
  | _, _, _, _, hle, .provide hv h => .provide (hv.mono hle) (h.mono hle)
  | _, _, _, _, hle, .setInterruptible allowed h => .setInterruptible allowed (h.mono hle)
  | _, _, _, _, hle, .interruptStatus h =>
    .interruptStatus fun Γ'' hle' => h Γ'' (hle.trans hle')
  | _, _, _, _, hle, .descriptor h => .descriptor fun Γ'' hle' => h Γ'' (hle.trans hle')
  | _, _, _, _, _, .signal _ ρ ε target => .signal _ ρ ε target
  | _, _, _, _, _, .yield _ ρ ε => .yield _ ρ ε
  | _, _, _, _, hle, .update hcell hf =>
    .update (hle.cells _ _ hcell) fun Γ'' hle' => hf Γ'' (hle.trans hle')
  | _, _, _, _, hle, .reserve hv hrelease => .reserve (hv.mono hle) (hrelease.mono hle)
  | _, _, _, _, hle, .release hrelease hx => .release (hle.releases _ _ hrelease) (hx.mono hle)
  | _, _, _, _, hle, .releaseLease hlease hx =>
    .releaseLease (hle.leases _ _ hlease) (hx.mono hle)
  | _, _, _, _, hle, .once mark h => .once mark (h.mono hle)

end Instructions

end Fibers
