import Fibers.Machine.Releasing
import Fibers.Machine.Waiting
import Fibers.Proofs.TypedResources

/-!
# Typed worlds

A world is typed in a context if all that handles stand for is there, and is as the context says:
cells hold values of their types, lines of channels are made up of those who wait for what they
will be told, fibers end as they should, and the rest of every fiber accepts what the fiber goes on
with.  Whatever the runtime does for a fiber, for a program or for the clock leaves a typed world,
in a context that says of new handles what they stand for.

## Main definitions

* `Numbered.Keeps` — a table whose entries are as declared.
* `RunState.Accepts`, `Step.Typed`, `Runs` — the rest of a fiber, and what it goes on with.
* `World.Typed` — a typed world.

## Main results

* `World.Typed.run` — a typed action leaves a typed world.
* `World.Typed.interrupt`, `World.Typed.complete`, `World.Typed.park` — so does what the runtime
  does by itself.
-/

namespace Fibers

/-! ### Tables -/

/-- Every entry has been declared, every declared entry is there, and all are as declared. -/
structure Numbered.Keeps {α T : Type} (t : Numbered α) (declared : Nat → Option T)
    (holds : T → α → Prop) : Prop where
  there : ∀ {n d}, declared n = some d → ∃ a, t.get? n = some a ∧ holds d a
  known : ∀ {n a}, t.get? n = some a → ∃ d, declared n = some d

namespace Numbered.Keeps

variable {α T : Type} {t : Numbered α} {declared : Nat → Option T} {holds holds' : T → α → Prop}

theorem of_get? (h : t.Keeps declared holds) {n : Nat} {a : α} (ha : t.get? n = some a) :
    ∃ d, declared n = some d ∧ holds d a := by
  obtain ⟨d, hd⟩ := h.known ha
  obtain ⟨a', ha', hholds⟩ := h.there hd
  exact ⟨d, hd, Option.some.inj (ha'.symm.trans ha) ▸ hholds⟩

theorem imp (h : t.Keeps declared holds) (himp : ∀ d a, holds d a → holds' d a) :
    t.Keeps declared holds' where
  there hd := by
    obtain ⟨a, ha, hholds⟩ := h.there hd
    exact ⟨a, ha, himp _ a hholds⟩
  known := h.known

/-- Nothing has been declared under the next number. -/
theorem next_eq_none (h : t.Keeps declared holds) : declared t.next = none := by
  cases hd : declared t.next with
  | none => rfl
  | some d =>
    obtain ⟨a, ha, -⟩ := h.there hd
    rw [get?_next] at ha
    cases ha

/-- An empty table keeps what has not been declared. -/
theorem nothing (first : Nat) : (Numbered.startingAt first : Numbered α).Keeps
    (fun _ => (none : Option T)) holds where
  there hd := by cases hd
  known {n a} ha := by simp [Numbered.get?, Numbered.startingAt] at ha

/-- A new entry is declared. -/
theorem declare (h : t.Keeps declared holds) {d : T} {a : α} (ha : holds d a) :
    (t.push a).Keeps (Function.update declared t.next (some d)) holds where
  there {n d'} hd' := by
    rw [get?_push]
    by_cases hn : n = t.next
    · subst hn
      rw [Function.update_self] at hd'
      exact ⟨a, if_pos rfl, Option.some.inj hd' ▸ ha⟩
    · rw [Function.update_of_ne hn] at hd'
      rw [if_neg hn]
      exact h.there hd'
  known {n a'} ha' := by
    rw [get?_push] at ha'
    by_cases hn : n = t.next
    · subst hn
      exact ⟨d, Function.update_self _ _ _⟩
    · rw [if_neg hn] at ha'
      rw [Function.update_of_ne hn]
      exact h.known ha'

theorem modify (h : t.Keeps declared holds) {n : Nat} {f : α → α}
    (hf : ∀ d a, declared n = some d → t.get? n = some a → holds d a → holds d (f a)) :
    (t.modify n f).Keeps declared holds where
  there {m d} hd := by
    obtain ⟨a, ha, hholds⟩ := h.there hd
    rw [get?_modify, ha]
    by_cases hm : m = n
    · subst hm
      exact ⟨f a, if_pos rfl, hf d a hd ha hholds⟩
    · exact ⟨a, if_neg hm, hholds⟩
  known {m a} ha := by
    rw [get?_modify] at ha
    split at ha
    · obtain ⟨a', ha', -⟩ := Option.map_eq_some_iff.mp ha
      exact h.known ha'
    · exact h.known ha

end Numbered.Keeps

/-! ### The rest of a fiber -/

/-- `Accepts S Γ root stack environments σ` says that a continuation stack goes on with how an
effect of type `σ` ends, in whose environment it runs, and ends as `root` says. -/
inductive Accepts (S : Declarations) (Γ : Context) (root : Ending) :
    List Frame → List Value → Signature → Prop where
  | bottom {ρ : Ty} {v : Value} : v.HasTy S Γ ρ → Accepts S Γ root [] [v] ⟨ρ, root.error, root.value⟩
  | chain {ρ : Ty} {ε : ErrorType} {τ τ' : Ty} {next : Value → Action Instruction}
      {stack : List Frame} {environments : List Value} :
      (∀ Γ', Γ ≤ Γ' → ∀ v, v.HasTy S Γ' τ →
        Action.Safe S (Instruction.Typed S) Γ' ⟨ρ, ε, τ'⟩ (next v)) →
      Accepts S Γ root stack environments ⟨ρ, ε, τ'⟩ →
      Accepts S Γ root (.chain next :: stack) environments ⟨ρ, ε, τ⟩
  | fold {ρ : Ty} {ε ε' : ErrorType} {τ τ' : Ty} {onHalt : Halt Failure → Action Instruction}
      {onDone : Value → Action Instruction} {sameError : Bool} {stack : List Frame}
      {environments : List Value} :
      (∀ Γ', Γ ≤ Γ' → ∀ h, h.Fits S Γ' ε →
        Action.Safe S (Instruction.Typed S) Γ' ⟨ρ, ε', τ'⟩ (onHalt h)) →
      (∀ Γ', Γ ≤ Γ' → ∀ v, v.HasTy S Γ' τ →
        Action.Safe S (Instruction.Typed S) Γ' ⟨ρ, ε', τ'⟩ (onDone v)) →
      (sameError = true → ε = ε') → Accepts S Γ root stack environments ⟨ρ, ε', τ'⟩ →
      Accepts S Γ root (.fold onHalt onDone sameError :: stack) environments ⟨ρ, ε, τ⟩
  | mapError {ρ : Ty} {ε ε' : ErrorType} {τ : Ty} {f : Value → Action Value}
      {stack : List Frame} {environments : List Value} :
      (∀ Γ', Γ ≤ Γ' → ∀ v, v.HasTy S Γ' (S.payload ε) →
        (f v).Safe S (Value.HasTy S) Γ' (S.payload ε')) →
      Accepts S Γ root stack environments ⟨ρ, ε', τ⟩ →
      Accepts S Γ root (.mapError ε ε' f :: stack) environments ⟨ρ, ε, τ⟩
  | popEnvironment {ρ ρ' : Ty} {ε : ErrorType} {τ : Ty} {v : Value} {stack : List Frame}
      {environments : List Value} : v.HasTy S Γ ρ →
      Accepts S Γ root stack environments ⟨ρ', ε, τ⟩ →
      Accepts S Γ root (.popEnvironment :: stack) (v :: environments) ⟨ρ, ε, τ⟩
  | popStatus {σ : Signature} {stack : List Frame} {environments : List Value} :
      Accepts S Γ root stack environments σ →
      Accepts S Γ root (.popStatus :: stack) environments σ

/-- The rest of a fiber goes on with how an effect ends. -/
def RunState.Accepts (S : Declarations) (Γ : Context) (root : Ending) (σ : Signature)
    (run : RunState) : Prop :=
  Fibers.Accepts S Γ root run.stack run.environments σ

/-- What a fiber does next is part of an effect of a type. -/
def Step.Typed (S : Declarations) (Γ : Context) (σ : Signature) : Step → Prop
  | .eval i => i.Typed S Γ σ
  | .value v => v.HasTy S Γ σ.value
  | .halt h => h.Fits S Γ σ.error
  | .attempt cell f => ∃ τ, Γ.cells cell.index = some τ ∧
      ∀ Γ', Γ ≤ Γ' → ∀ v, v.HasTy S Γ' τ → (f v).Safe S (Update.Fits S) Γ' (τ, σ.value)

/-- A fiber goes on with something that the rest of it accepts, and ends as it should. -/
def Runs (S : Declarations) (Γ : Context) (fiber : FiberId) (run : RunState) (step : Step) : Prop :=
  ∃ root σ, Γ.fibers fiber.raw = some root ∧ run.Accepts S Γ root σ ∧ step.Typed S Γ σ

section Rest

variable {S : Declarations} {Γ Γ' : Context} {root : Ending} {σ : Signature}

theorem Accepts.mono (hle : Γ ≤ Γ') {stack : List Frame} {environments : List Value}
    (h : Accepts S Γ root stack environments σ) : Accepts S Γ' root stack environments σ := by
  induction h with
  | bottom hv => exact .bottom (hv.mono hle)
  | chain hnext _ ih => exact .chain (fun Γ'' hle' => hnext Γ'' (hle.trans hle')) ih
  | fold hhalt hdone hsame _ ih =>
    exact .fold (fun Γ'' hle' => hhalt Γ'' (hle.trans hle'))
      (fun Γ'' hle' => hdone Γ'' (hle.trans hle')) hsame ih
  | mapError hf _ ih => exact .mapError (fun Γ'' hle' => hf Γ'' (hle.trans hle')) ih
  | popEnvironment hv _ ih => exact .popEnvironment (hv.mono hle) ih
  | popStatus _ ih => exact .popStatus ih

/-- The environment in force has the type that is needed. -/
theorem Accepts.environment {stack : List Frame} {environments : List Value}
    (h : Accepts S Γ root stack environments σ) :
    (environments.headD .unit).HasTy S Γ σ.env := by
  induction h with
  | bottom hv => exact hv
  | chain _ _ ih | fold _ _ _ _ ih | mapError _ _ ih | popStatus _ ih => exact ih
  | popEnvironment hv _ _ => exact hv

theorem RunState.Accepts.mono {run : RunState} (hle : Γ ≤ Γ') (h : run.Accepts S Γ root σ) :
    run.Accepts S Γ' root σ :=
  Fibers.Accepts.mono hle h

theorem RunState.accepts_start {ρ : Ty} {v : Value} (hv : v.HasTy S Γ ρ) (allowed : Bool) :
    (RunState.start v allowed).Accepts S Γ root ⟨ρ, root.error, root.value⟩ :=
  .bottom hv

theorem Step.Typed.mono {step : Step} (hle : Γ ≤ Γ') (h : step.Typed S Γ σ) :
    step.Typed S Γ' σ := by
  cases step with
  | eval i => exact Instruction.Typed.mono hle h
  | value v => exact Value.HasTy.mono hle h
  | halt failure => exact Halt.Fits.mono hle h
  | attempt cell f =>
    obtain ⟨τ, hcell, hf⟩ := h
    exact ⟨τ, hle.cells _ _ hcell, fun Γ'' hle' => hf Γ'' (hle.trans hle')⟩

theorem Step.typed_ofOutcome {o : Outcome} (h : Outcome.Fits S Γ σ.ending o) :
    (Step.ofOutcome o).Typed S Γ σ := by
  cases o with
  | done v => exact h
  | halt failure => exact h

theorem Step.typed_die {d : Defect} (h : S.defect d) : (Step.die d).Typed S Γ σ :=
  Halt.holds_of (Cause.holds_die h)

theorem Step.typed_interrupt (source : FiberId) : (Step.interrupt source).Typed S Γ σ :=
  Halt.holds_of (Cause.holds_interrupt source)

theorem Runs.mono {fiber : FiberId} {run : RunState} {step : Step} (hle : Γ ≤ Γ')
    (h : Runs S Γ fiber run step) : Runs S Γ' fiber run step := by
  obtain ⟨root, σ, hroot, hrun, hstep⟩ := h
  exact ⟨root, σ, hle.fibers _ _ hroot, hrun.mono hle, hstep.mono hle⟩

end Rest

/-! ### What a runtime keeps -/

/-- Who waits at a place is told a value of a type. -/
def Context.Tells (Γ : Context) (s : SuspensionId) (τ : Ty) : Prop :=
  ∃ ε, Γ.places s.index = some ⟨ε, τ⟩

/-- A channel for values of a type: whoever waits there is told what he waits for. -/
structure Channel.Typed (S : Declarations) (Γ : Context) (τ : Ty)
    (ch : Channel Value SuspensionId) : Prop where
  buffer : ∀ v ∈ ch.buffer.toList, v.HasTy S Γ τ
  takers : ∀ e ∈ ch.takers, Γ.Tells e.2 τ
  offerers : ∀ e ∈ ch.offerers, e.2.1.HasTy S Γ τ ∧ Γ.Tells e.2.2 .unit
  watchers : ∀ e ∈ ch.watchers, Γ.Tells e.2 .unit

/-- An observer of a fiber that ends in a way. -/
def Observer.Typed (Γ : Context) (e : Ending) : Observer → Prop
  | .report type => type = e.error
  | .exitTo waiter type => type = e.error ∧ Γ.Tells waiter (.exit e.error e.value)
  | .firstDone waiter _ => Γ.Tells waiter .bool
  | .firstFailure waiter children position =>
    position < children.length ∧ Γ.Tells waiter (.option (.index children.length))

/-- What is known of a fiber that ends in a way. -/
structure FiberRecord.Typed (S : Declarations) (Γ : Context) (e : Ending) (r : FiberRecord) :
    Prop where
  exit : ∀ o, r.exit = some o → Outcome.Fits S Γ e o
  observers : ∀ o ∈ r.observers, o.Typed Γ e

/-- What is to be done when a wait is interrupted. -/
def Canceler.Typed (S : Declarations) (Γ : Context) : Canceler → Prop
  | .nothing => True
  | .alarm _ => True
  | .leave _ _ _ => True
  | .action a => a.Harmless S Γ

/-- A wait that ends in a way. -/
def Suspension.Typed (S : Declarations) (Γ : Context) (e : Ending) (p : Suspension) : Prop :=
  match p.state with
  | .registering => True
  | .waiting run onInterrupt => onInterrupt.Typed S Γ ∧
      ∃ root ρ, Γ.fibers p.fiber.raw = some root ∧ run.Accepts S Γ root ⟨ρ, e.error, e.value⟩
  | .early outcome => Outcome.Fits S Γ e outcome
  | .over => True

/-- All that has been made by `Δ` is in the store, and has the types that `Γ` tells. -/
structure Store.Keeps (S : Declarations) (Δ Γ : Context) (store : Store) : Prop where
  fibers : store.fibers.Keeps Δ.fibers (FiberRecord.Typed S Γ)
  cells : store.cells.Keeps Δ.cells fun τ c => c.value.HasTy S Γ τ
  channels : store.channels.Keeps Δ.channels (Channel.Typed S Γ)
  leases : store.leases.Keeps Δ.leases fun t l => Γ.releases l.release.index = some t
  alarms : ∀ a ∈ store.alarms.pending, Γ.Tells a.payload .unit
  handles : ∀ h ∈ store.handles, Γ.places h.2.index = some (S.named h.1)
  reports : ∀ p ∈ store.reports, ∃ e, Γ.fibers p.1.raw = some e ∧ p.2.Fits S Γ e.error e.value

/-- All that has been made by `Δ` is in the world, and has the types that `Γ` tells. -/
structure World.Keeps (S : Declarations) (Δ Γ : Context) (w : World) : Prop where
  store : w.store.Keeps S Δ Γ
  places : w.suspensions.Keeps Δ.places (Suspension.Typed S Γ)
  tasks : ∀ t ∈ w.tasks.toList, Runs S Γ t.fiber t.run t.step
  releases : w.releases.Keeps Δ.releases fun t r => r.Typed S Γ t
  /-- The place known of a fiber is its own. -/
  owner : ∀ {fiber r s}, w.store.fiber? fiber = some r → r.suspension = some s →
    ∃ p, w.suspension? s = some p ∧ p.fiber = fiber

/-- All that has been made is there, and has the right type. -/
abbrev World.Typed (S : Declarations) (Γ : Context) (w : World) : Prop := w.Keeps S Γ Γ

section Later

variable {S : Declarations} {Δ Γ Γ' : Context}

theorem Context.Tells.mono {s : SuspensionId} {τ : Ty} (hle : Γ ≤ Γ') (h : Γ.Tells s τ) :
    Γ'.Tells s τ := by
  obtain ⟨ε, hs⟩ := h
  exact ⟨ε, hle.places _ _ hs⟩

theorem Channel.Typed.mono {τ : Ty} {ch : Channel Value SuspensionId} (hle : Γ ≤ Γ')
    (h : ch.Typed S Γ τ) : ch.Typed S Γ' τ where
  buffer v hv := (h.buffer v hv).mono hle
  takers e he := (h.takers e he).mono hle
  offerers e he := ⟨(h.offerers e he).1.mono hle, (h.offerers e he).2.mono hle⟩
  watchers e he := (h.watchers e he).mono hle

theorem Observer.Typed.mono {e : Ending} {o : Observer} (hle : Γ ≤ Γ') (h : o.Typed Γ e) :
    o.Typed Γ' e := by
  cases o with
  | report type => exact h
  | exitTo waiter type => exact ⟨h.1, h.2.mono hle⟩
  | firstDone waiter left => exact Context.Tells.mono hle h
  | firstFailure waiter children position => exact ⟨h.1, h.2.mono hle⟩

theorem FiberRecord.Typed.mono {e : Ending} {r : FiberRecord} (hle : Γ ≤ Γ')
    (h : r.Typed S Γ e) : r.Typed S Γ' e :=
  ⟨fun o ho => (h.exit o ho).mono hle, fun o ho => (h.observers o ho).mono hle⟩

theorem Canceler.Typed.mono {c : Canceler} (hle : Γ ≤ Γ') (h : c.Typed S Γ) : c.Typed S Γ' := by
  cases c with
  | nothing | alarm _ | leave _ _ _ => trivial
  | action a => exact Action.Safe.mono (fun _ _ => trivial) hle h

theorem Suspension.Typed.mono {e : Ending} {p : Suspension} (hle : Γ ≤ Γ') (h : p.Typed S Γ e) :
    p.Typed S Γ' e := by
  unfold Suspension.Typed at h ⊢
  cases hstate : p.state with
  | waiting run onInterrupt =>
    simp only [hstate] at h
    obtain ⟨hcancel, root, ρ, hroot, hrun⟩ := h
    exact ⟨hcancel.mono hle, root, ρ, hle.fibers _ _ hroot, hrun.mono hle⟩
  | early outcome =>
    simp only [hstate] at h
    exact h.mono hle
  | _ => trivial

theorem Store.Keeps.mono {store : Store} (hle : Γ ≤ Γ') (h : store.Keeps S Δ Γ) :
    store.Keeps S Δ Γ' where
  fibers := h.fibers.imp fun _ _ hr => hr.mono hle
  cells := h.cells.imp fun _ _ hv => hv.mono hle
  channels := h.channels.imp fun _ _ hch => hch.mono hle
  leases := h.leases.imp fun _ _ hl => hle.releases _ _ hl
  alarms a ha := (h.alarms a ha).mono hle
  handles p hp := hle.places _ _ (h.handles p hp)
  reports p hp := by
    obtain ⟨e, he, hx⟩ := h.reports p hp
    exact ⟨e, hle.fibers _ _ he, hx.mono hle⟩

theorem World.Keeps.mono {w : World} (hle : Γ ≤ Γ') (h : w.Keeps S Δ Γ) : w.Keeps S Δ Γ' where
  store := h.store.mono hle
  places := h.places.imp fun _ _ hp => hp.mono hle
  tasks t ht := (h.tasks t ht).mono hle
  releases := h.releases.imp fun _ _ hr => hr.mono hle
  owner := h.owner

end Later

end Fibers
