import Fibers.Effect.Retry
import Fibers.Effect.Shared
import Fibers.Proofs.Typing

/-!
# Typing rules for effects

The instructions of typed effects are typed.  There is one rule for each way to make an effect: it
tells the types of what is made from the types of the parts, and it asks code of the program for
nothing but that it respects its own types.  A handler may have failures of another type than those
that it handles.

The rules hold whichever defects are allowed, as long as those are that a program may always die of
and those that the runtime reports by itself.

## Main definitions

* `Effect.Typed`, `Describes`, `Continues`, `Computes` — typed effects and typed code.
* `Ty.Reads` — data of other types that travels as values.
* `Declarations.Allows` — the defects that are always allowed.

## Main results

* `Effect.Typed.chain`, `Effect.Typed.foldHalt`, `Effect.Typed.foldFailure`,
  `Effect.Typed.mapError`, `Effect.Typed.fork`, `Effect.Typed.bracketExit` and the other rules.
-/

namespace Fibers

/-- An effect that runs in an environment of a type and ends with values of a type. -/
abbrev Effect.Typed (S : Declarations) (Γ : Context) (ρ τ : Ty) {ε : ErrorType} (e : Effect ε) :
    Prop :=
  Instruction.Typed S Γ ⟨ρ, ε, τ⟩ e

/-- An action that describes such an effect. -/
abbrev Describes (S : Declarations) (Γ : Context) (ρ τ : Ty) {ε : ErrorType}
    (a : Action (Effect ε)) : Prop :=
  Action.Safe S (Instruction.Typed S) Γ ⟨ρ, ε, τ⟩ a

/-- A continuation, from values of one type to effects with values of another type. -/
abbrev Continues (S : Declarations) (Γ : Context) (ρ τ τ' : Ty) {ε : ErrorType}
    (next : Value → Action (Effect ε)) : Prop :=
  ∀ Γ', Γ ≤ Γ' → ∀ v, v.HasTy S Γ' τ → Describes S Γ' ρ τ' (next v)

/-- A function of the program, from values of one type to values of another. -/
abbrev Computes (S : Declarations) (Γ : Context) (τ τ' : Ty) (f : Value → Action Value) : Prop :=
  ∀ Γ', Γ ≤ Γ' → ∀ v, v.HasTy S Γ' τ → (f v).Safe S (Value.HasTy S) Γ' τ'

/-- A function of the program that says of values of a type something of any kind. -/
abbrev Judges {α : Type} (S : Declarations) (Γ : Context) (τ : Ty) (f : Value → Action α) :
    Prop :=
  ∀ Γ', Γ ≤ Γ' → ∀ v, v.HasTy S Γ' τ → (f v).Harmless S Γ'

/-- The failures of a halt, as programs see it, have a type. -/
abbrev Halt.Says (S : Declarations) (Γ : Context) (ε : ErrorType) (h : Halt Value) : Prop :=
  h.Holds (Value.HasTy S Γ (S.payload ε)) S.defect

/-- Values of a type stand for data of which `P` holds. -/
def Ty.Reads (S : Declarations) (τ : Ty) {α : Type} [Carried α] (P : Context → α → Prop) : Prop :=
  ∀ {Γ : Context} {v : Value}, v.HasTy S Γ τ → ∃ a, Carried.ofValue? v = some a ∧ P Γ a

/-- The defects that a program may always die of, and those that the runtime reports by itself. -/
structure Declarations.Allows (S : Declarations) : Prop where
  explicit : ∀ message, S.defect (.explicit message)
  panic : ∀ payload, S.defect (.ofPanic payload)
  taken : ∀ (names : FiberNames) fiber,
    S.defect (.runtime s!"exit of {names.display fiber} was already observed")
  missing : ∀ (names : FiberNames) fiber,
    S.defect (.runtime s!"{names.display fiber} has not finished")
  twice : S.defect (.runtime "suspension completed twice during registration")
  skipped :
    S.defect (.runtime "typed failure discarded: its handler was skipped by interruption")
  held : ∀ source target : String,
    S.defect (.runtime s!"typed failure of {source} cannot be held by a handler of {target}")
  succeeded : S.defect (.runtime "failed child reported success")

variable {S : Declarations} {Γ : Context} {ρ ρ' τ τ' τ'' : Ty} {ε ε' : ErrorType}

theorem Halt.Says.mono {h : Halt Value} {Γ' : Context} (hle : Γ ≤ Γ') (hh : h.Says S Γ ε) :
    h.Says S Γ' ε :=
  Halt.Holds.imp hh fun _ hv => hv.mono hle

/-! ### Data that travels as values -/

theorem reads_bool : Ty.bool.Reads S fun _ (_ : Bool) => True := by
  intro Γ v hv
  cases hv with
  | bool b => exact ⟨b, rfl, trivial⟩

theorem reads_exit : (Ty.exit ε τ).Reads S fun Γ (x : Exit Value Value) => x.Fits S Γ ε τ := by
  intro Γ v hv
  obtain ⟨x, rfl, hx⟩ := hv.exists_exit
  exact ⟨x, rfl, hx⟩

theorem reads_list : (Ty.list τ).Reads S fun Γ (vs : List Value) => ∀ v ∈ vs, v.HasTy S Γ τ := by
  intro Γ v hv
  cases hv with
  | list hitems => exact ⟨_, rfl, hitems⟩

theorem reads_pair : (Ty.pair τ τ').Reads S fun Γ (vs : List Value) =>
    ∃ a b, vs = [a, b] ∧ a.HasTy S Γ τ ∧ b.HasTy S Γ τ' := by
  intro Γ v hv
  cases hv with
  | pair ha hb => exact ⟨_, rfl, _, _, rfl, ha, hb⟩

theorem reads_fiber :
    (Ty.fiber ε τ).Reads S fun Γ (f : Fiber ε) => Γ.fibers f.id.raw = some ⟨ε, τ⟩ := by
  intro Γ v hv
  cases hv with
  | @fiber _ _ fiber hfiber => exact ⟨⟨fiber⟩, rfl, hfiber⟩

/-- A continuation on data that travels as a value. -/
theorem Continues.expecting {α : Type} [Carried α] {P : Context → α → Prop}
    {next : α → Action (Effect ε)} (hreads : τ.Reads S P)
    (hnext : ∀ Γ', Γ ≤ Γ' → ∀ a, P Γ' a → Describes S Γ' ρ τ' (next a)) :
    Continues S Γ ρ τ τ' (Effect.expecting next) := by
  intro Γ' hle v hv
  obtain ⟨a, ha, hP⟩ := hreads hv
  rw [Effect.expecting, ha]
  exact hnext Γ' hle a hP

namespace Effect.Typed

variable {e : Effect ε} {e' : Effect ε'}

/-! ### Effects that do not depend on others -/

theorem succeed {v : Value} (hv : v.HasTy S Γ τ) :
    (Effect.succeed v : Effect ε).Typed S Γ ρ τ :=
  Instruction.Typed.done hv

theorem unit : (Effect.unit : Effect ε).Typed S Γ ρ .unit := succeed .unit

theorem ofExit {x : Exit Value Value} (hx : x.Fits S Γ ε τ) :
    (Effect.ofExit x : Effect ε).Typed S Γ ρ τ :=
  Instruction.Typed.done hx.tag

theorem halt {h : Halt Value} (hh : h.Says S Γ ε) : (Effect.halt h : Effect ε).Typed S Γ ρ τ :=
  ofExit (x := .halt h) hh

theorem haltCause {c : Cause Value} (hc : c.Holds (Value.HasTy S Γ (S.payload ε)) S.defect) :
    (Effect.haltCause c : Effect ε).Typed S Γ ρ τ :=
  halt (Halt.holds_of hc)

theorem fail {v : Value} (hv : v.HasTy S Γ (S.payload ε)) :
    (Effect.fail v : Effect ε).Typed S Γ ρ τ :=
  haltCause (Cause.holds_fail hv)

theorem die {d : Defect} (hd : S.defect d) : (Effect.die d : Effect ε).Typed S Γ ρ τ :=
  Instruction.Typed.done (Outcome.fits_die hd _)

theorem dieMessage (hS : S.Allows) (message : String) :
    (Effect.dieMessage message : Effect ε).Typed S Γ ρ τ :=
  die (hS.explicit message)

theorem ofExcept {r : Except Value Value} (hr : (Exit.ofExcept r).Fits S Γ ε τ) :
    (Effect.ofExcept r : Effect ε).Typed S Γ ρ τ :=
  ofExit hr

theorem sync {action : Action Value}
    (h : ∀ Γ', Γ ≤ Γ' → action.Safe S (Value.HasTy S) Γ' τ) :
    (Effect.sync action : Effect ε).Typed S Γ ρ τ :=
  Instruction.Typed.sync fun Γ' hle => (h Γ' hle).bind fun _ _ _ hv => .done hv

theorem trySync {action : Action (Except Value Value)}
    (h : ∀ Γ', Γ ≤ Γ' → action.Safe S
      (fun Γ' (e : Ending) r => (Exit.ofExcept r).Fits S Γ' e.error e.value) Γ' ⟨ε, τ⟩) :
    (Effect.trySync action : Effect ε).Typed S Γ ρ τ :=
  Instruction.Typed.sync fun Γ' hle =>
    (h Γ' hle).bind fun _ _ _ hr => .done (Exit.Fits.tag hr)

theorem suspend {build : Action (Effect ε)} (h : ∀ Γ', Γ ≤ Γ' → Describes S Γ' ρ τ build) :
    (Effect.suspend build).Typed S Γ ρ τ :=
  Instruction.Typed.suspend h

theorem fiberId : (Effect.fiberId : Effect ε).Typed S Γ ρ .id :=
  Instruction.Typed.descriptor fun _ _ id => .done (.done (.id id))

theorem yieldNow : (Effect.yieldNow : Effect ε).Typed S Γ ρ .unit :=
  Instruction.Typed.yield Γ ρ ε

theorem once (mark : Nat) (he : e.Typed S Γ ρ τ) : (Effect.once mark e).Typed S Γ ρ τ :=
  Instruction.Typed.once mark he

/-! ### Sequences -/

theorem chain {next : Value → Action (Effect ε)} (he : e.Typed S Γ ρ τ)
    (hnext : Continues S Γ ρ τ τ' next) : (e.chain next).Typed S Γ ρ τ' :=
  Instruction.Typed.chain he hnext

theorem chainAs {α : Type} [Carried α] {P : Context → α → Prop} {next : α → Action (Effect ε)}
    (he : e.Typed S Γ ρ τ) (hreads : τ.Reads S P)
    (hnext : ∀ Γ', Γ ≤ Γ' → ∀ a, P Γ' a → Describes S Γ' ρ τ' (next a)) :
    (e.chainAs next).Typed S Γ ρ τ' :=
  he.chain (.expecting hreads hnext)

theorem map {f : Value → Action Value} (he : e.Typed S Γ ρ τ) (hf : Computes S Γ τ τ' f) :
    (e.map f).Typed S Γ ρ τ' :=
  he.chain fun Γ' hle v hv => (hf Γ' hle v hv).bind fun _ _ _ hb => .done (succeed hb)

theorem as {v : Value} (he : e.Typed S Γ ρ τ) (hv : v.HasTy S Γ τ') :
    (e.as v).Typed S Γ ρ τ' :=
  he.map fun _ hle _ _ => .done (hv.mono hle)

theorem asUnit (he : e.Typed S Γ ρ τ) : e.asUnit.Typed S Γ ρ .unit := he.as .unit

theorem zipWith {a b : Effect ε} {f : Value → Value → Action Value} (ha : a.Typed S Γ ρ τ)
    (hb : b.Typed S Γ ρ τ')
    (hf : ∀ Γ', Γ ≤ Γ' → ∀ x, x.HasTy S Γ' τ → Computes S Γ' τ' τ'' (f x)) :
    (a.zipWith b f).Typed S Γ ρ τ'' :=
  ha.chain fun Γ' hle x hx => .done (map (hb.mono hle) (hf Γ' hle x hx))

theorem zip {a b : Effect ε} (ha : a.Typed S Γ ρ τ) (hb : b.Typed S Γ ρ τ') :
    (a.zip b).Typed S Γ ρ (.pair τ τ') :=
  ha.zipWith hb fun _ _ _ hx _ hle _ hy => .done (.pair (hx.mono hle) hy)

theorem zipLeft {a b : Effect ε} (ha : a.Typed S Γ ρ τ) (hb : b.Typed S Γ ρ τ') :
    (a.zipLeft b).Typed S Γ ρ τ :=
  ha.zipWith hb fun _ _ _ hx _ hle _ _ => .done (hx.mono hle)

theorem zipRight {a b : Effect ε} (ha : a.Typed S Γ ρ τ) (hb : b.Typed S Γ ρ τ') :
    (a.zipRight b).Typed S Γ ρ τ' :=
  ha.chain fun _ hle _ _ => .done (hb.mono hle)

theorem tap {next : Value → Action (Effect ε)} (he : e.Typed S Γ ρ τ)
    (hnext : Continues S Γ ρ τ τ' next) : (e.tap next).Typed S Γ ρ τ :=
  he.chain fun Γ' hle v hv => (hnext Γ' hle v hv).bind fun _ hle' _ hafter =>
    .done (as hafter (hv.mono hle'))

theorem forever (he : e.Typed S Γ ρ τ) : e.forever.Typed S Γ ρ τ' :=
  Instruction.Typed.loop .unit fun _ hle _ _ => .done (as (he.mono hle) (.err .unit))

theorem repeatN (he : e.Typed S Γ ρ τ) (n : Nat) : (e.repeatN n).Typed S Γ ρ τ := by
  induction n generalizing Γ with
  | zero => exact he
  | succ n ih =>
    exact he.chain fun Γ' hle _ _ => .done <| suspend fun Γ'' hle' =>
      .done (ih (he.mono (hle.trans hle')))

theorem collectAfter {es : List (Effect ε)} {values : List Value}
    (hvalues : ∀ v ∈ values, v.HasTy S Γ τ) (hes : ∀ e ∈ es, Effect.Typed S Γ ρ τ e) :
    (Effect.collectAfter values es).Typed S Γ ρ (.list τ) := by
  induction es generalizing Γ values with
  | nil => exact succeed (.list hvalues)
  | cons e es ih =>
    obtain ⟨he, hes⟩ := List.forall_mem_cons.mp hes
    refine chain he fun Γ' hle v hv => .done (ih ?_ fun e' he' => (hes e' he').mono hle)
    rw [List.forall_mem_append]
    exact ⟨fun v' hv' => (hvalues v' hv').mono hle, List.forall_mem_singleton.mpr hv⟩

theorem collectAll {es : List (Effect ε)} (hes : ∀ e ∈ es, Effect.Typed S Γ ρ τ e) :
    (Effect.collectAll es).Typed S Γ ρ (.list τ) :=
  suspend fun _ hle => .done (collectAfter nofun fun e he => (hes e he).mono hle)

/-- Describing an effect may panic with a defect that is allowed. -/
theorem guarded {build : Action (Effect ε)} (h : Describes S Γ ρ τ build) :
    Describes S Γ ρ τ (Effect.guarded build) :=
  h.recover fun _ _ _ hd => die hd

/-! ### Recovery -/

/-- A handler of the whole failure, which may have failures of another type. -/
theorem foldHalt {onHalt : Halt Value → Action (Effect ε')} {onDone : Value → Action (Effect ε')}
    (he : e.Typed S Γ ρ τ)
    (hhalt : ∀ Γ', Γ ≤ Γ' → ∀ h, h.Says S Γ' ε → Describes S Γ' ρ τ' (onHalt h))
    (hdone : Continues S Γ ρ τ τ' onDone) : (e.foldHalt onHalt onDone).Typed S Γ ρ τ' :=
  Instruction.Typed.fold he (fun Γ' hle _ hh => hhalt Γ' hle _ hh.untag) hdone beq_iff_eq.mp

/-- A handler of the leftmost failure.  What it does not look at passes by, and has been made to
have failures of its type. -/
theorem recovering {onFail : Value → Action (Effect ε')} (hS : S.Allows)
    (honFail : Continues S Γ ρ (S.payload ε) τ onFail) {h : Halt Failure} {Γ' : Context}
    (hle : Γ ≤ Γ') (hh : h.Fits S Γ' ε) :
    Describes S Γ' ρ τ (Effect.recovering (ε := ε) onFail h) := by
  have hfirst := hh.cause.failureOrCause
  unfold Effect.recovering
  split at hfirst
  · next failure heq =>
    simp only [heq, if_pos hfirst.type]
    exact honFail Γ' hle _ hfirst.value
  · next cause heq =>
    subst hfirst
    simp only [heq]
    refine .done (Instruction.Typed.done ?_)
    change Halt.Fits S Γ' ε' (Halt.retype ε ε' h)
    unfold Halt.retype
    split
    · next hsame => exact hsame ▸ hh
    · exact hh.discard (hS.held _ _)

theorem foldFailure {onFail onDone : Value → Action (Effect ε')} (hS : S.Allows)
    (he : e.Typed S Γ ρ τ) (honFail : Continues S Γ ρ (S.payload ε) τ' onFail)
    (hdone : Continues S Γ ρ τ τ' onDone) : (e.foldFailure onFail onDone).Typed S Γ ρ τ' :=
  Instruction.Typed.fold he (fun _ hle _ hh => recovering hS honFail hle hh) hdone beq_iff_eq.mp

theorem fold {onFail onDone : Value → Action Value} (hS : S.Allows) (he : e.Typed S Γ ρ τ)
    (honFail : Computes S Γ (S.payload ε) τ' onFail) (hdone : Computes S Γ τ τ' onDone) :
    (e.fold onFail onDone : Effect ε').Typed S Γ ρ τ' :=
  he.foldFailure hS
    (fun Γ' hle v hv => (honFail Γ' hle v hv).bind fun _ _ _ hb => .done (succeed hb))
    fun Γ' hle v hv => (hdone Γ' hle v hv).bind fun _ _ _ hb => .done (succeed hb)

theorem catchFailure {handler : Value → Action (Effect ε')} (hS : S.Allows)
    (he : e.Typed S Γ ρ τ) (hhandler : Continues S Γ ρ (S.payload ε) τ handler) :
    (e.catchFailure handler).Typed S Γ ρ τ :=
  he.foldFailure hS hhandler fun _ _ _ hv => .done (succeed hv)

theorem catchHalt {handler : Halt Value → Action (Effect ε')} (he : e.Typed S Γ ρ τ)
    (hhandler : ∀ Γ', Γ ≤ Γ' → ∀ h, h.Says S Γ' ε → Describes S Γ' ρ τ (handler h)) :
    (e.catchHalt handler).Typed S Γ ρ τ :=
  he.foldHalt hhandler fun _ _ _ hv => .done (succeed hv)

theorem orElse {other : Effect ε'} (hS : S.Allows) (he : e.Typed S Γ ρ τ)
    (hother : other.Typed S Γ ρ τ) : (e.orElse other).Typed S Γ ρ τ :=
  he.catchFailure hS fun _ hle _ _ => .done (hother.mono hle)

theorem either (hS : S.Allows) (he : e.Typed S Γ ρ τ) :
    (e.either : Effect ε').Typed S Γ ρ (.result τ (S.payload ε)) :=
  he.fold hS (fun _ _ _ hv => .done (.err hv)) fun _ _ _ hv => .done (.ok hv)

theorem result (he : e.Typed S Γ ρ τ) : (e.result : Effect ε').Typed S Γ ρ (.exit ε τ) :=
  he.foldHalt (fun _ _ h hh => .done (succeed (.of_exit (x := .halt h) hh)))
    fun _ _ v hv => .done (succeed (.of_exit (x := .done v) hv))

theorem orDie {message : Value → Action String} (hS : S.Allows) (he : e.Typed S Γ ρ τ)
    (hmessage : Judges S Γ (S.payload ε) message) :
    (e.orDie message : Effect ε').Typed S Γ ρ τ :=
  he.catchFailure hS fun Γ' hle v hv => (hmessage Γ' hle v hv).bind fun _ _ text _ =>
    .done (dieMessage hS text)

/-- The type of failures changes with what they say. -/
theorem mapError {f : Value → Action Value} (he : e.Typed S Γ ρ τ)
    (hf : Computes S Γ (S.payload ε) (S.payload ε') f) :
    (e.mapError f : Effect ε').Typed S Γ ρ τ :=
  Instruction.Typed.mapError he hf

/-! ### Regions -/

theorem accessM {next : Value → Action (Effect ε)} (hnext : Continues S Γ ρ ρ τ next) :
    (Effect.accessM next).Typed S Γ ρ τ :=
  Instruction.Typed.access hnext

theorem access {f : Value → Action Value} (hf : Computes S Γ ρ τ f) :
    (Effect.access f : Effect ε).Typed S Γ ρ τ :=
  accessM fun Γ' hle v hv => (hf Γ' hle v hv).bind fun _ _ _ hb => .done (succeed hb)

theorem environment : (Effect.environment : Effect ε).Typed S Γ ρ ρ :=
  access fun _ _ _ hv => .done hv

theorem provide {v : Value} (hv : v.HasTy S Γ ρ') (he : e.Typed S Γ ρ' τ) :
    (e.provide v).Typed S Γ ρ τ :=
  Instruction.Typed.provide hv he

theorem provideSome {f : Value → Action Value} (hf : Computes S Γ ρ ρ' f)
    (he : e.Typed S Γ ρ' τ) : (e.provideSome f).Typed S Γ ρ τ :=
  accessM fun Γ' hle v hv => (hf Γ' hle v hv).bind fun _ hle' _ hinner =>
    .done (provide hinner (he.mono (hle.trans hle')))

theorem interruptible (he : e.Typed S Γ ρ τ) : e.interruptible.Typed S Γ ρ τ :=
  Instruction.Typed.setInterruptible true he

theorem uninterruptible (he : e.Typed S Γ ρ τ) : e.uninterruptible.Typed S Γ ρ τ :=
  Instruction.Typed.setInterruptible false he

theorem restored (he : e.Typed S Γ ρ τ) (restore : Restore) :
    (restore.apply e).Typed S Γ ρ τ :=
  Instruction.Typed.setInterruptible restore.interruptible he

theorem mask {body : Restore → Action (Effect ε)}
    (hbody : ∀ Γ', Γ ≤ Γ' → ∀ restore, Describes S Γ' ρ τ (body restore)) :
    (Effect.mask body).Typed S Γ ρ τ :=
  Instruction.Typed.interruptStatus fun Γ' hle status => (hbody Γ' hle ⟨status⟩).bind
    fun _ _ _ he => .done (uninterruptible he)

/-! ### Finalization -/

theorem finishWith {x : Exit Value Value} {finalizer : Effect ε} (hx : x.Fits S Γ ε τ)
    (hfinalizer : finalizer.Typed S Γ ρ τ') :
    (Effect.finishWith x finalizer).Typed S Γ ρ τ :=
  (result hfinalizer).chainAs reads_exit fun _ hle _ hreleased =>
    .done (ofExit (Exit.Holds.withFinalizer (hx.mono hle) hreleased))

theorem settleUse {held : Value} {release : Value → Exit Value Value → Action (Effect ε)}
    {x : Exit Value Value} (hx : x.Fits S Γ ε τ)
    (hrelease : Describes S Γ ρ τ' (release held x)) :
    Describes S Γ ρ τ (Effect.settleUse held release x) :=
  (guarded hrelease).bind fun _ hle _ hfinalizer => .done (finishWith (hx.mono hle) hfinalizer)

theorem bracketExit {acquire : Effect ε} {use : Value → Action (Effect ε)}
    {release : Value → Exit Value Value → Action (Effect ε)} (hacquire : acquire.Typed S Γ ρ τ)
    (huse : Continues S Γ ρ τ τ' use)
    (hrelease : ∀ Γ', Γ ≤ Γ' → ∀ held x, held.HasTy S Γ' τ → x.Fits S Γ' ε τ' →
      Describes S Γ' ρ τ'' (release held x)) :
    (Effect.bracketExit acquire use release).Typed S Γ ρ τ' :=
  mask fun _ h₁ restore => .done <| chain (hacquire.mono h₁) fun Γ₂ h₂ held hheld =>
    (guarded (huse Γ₂ (h₁.trans h₂) held hheld)).bind fun _ h₃ _ hused =>
      .done <| (result (restored hused restore)).chainAs reads_exit fun Γ₄ h₄ x hx =>
        settleUse hx (hrelease Γ₄ (h₁.trans (h₂.trans (h₃.trans h₄))) held x
          (hheld.mono (h₃.trans h₄)) hx)

theorem bracket {acquire : Effect ε} {use release : Value → Action (Effect ε)}
    (hacquire : acquire.Typed S Γ ρ τ) (huse : Continues S Γ ρ τ τ' use)
    (hrelease : Continues S Γ ρ τ τ'' release) :
    (Effect.bracket acquire use release).Typed S Γ ρ τ' :=
  bracketExit hacquire huse fun Γ' hle held _ hheld _ => hrelease Γ' hle held hheld

theorem onExit {cleanup : Exit Value Value → Action (Effect ε)} (he : e.Typed S Γ ρ τ)
    (hcleanup : ∀ Γ', Γ ≤ Γ' → ∀ x, x.Fits S Γ' ε τ → Describes S Γ' ρ τ' (cleanup x)) :
    (e.onExit cleanup).Typed S Γ ρ τ :=
  bracketExit unit (fun _ hle _ _ => .done (he.mono hle)) fun Γ' hle _ x _ hx =>
    hcleanup Γ' hle x hx

theorem ensuring {finalizer : Effect ε} (he : e.Typed S Γ ρ τ)
    (hfinalizer : finalizer.Typed S Γ ρ τ') : (e.ensuring finalizer).Typed S Γ ρ τ :=
  he.onExit fun _ hle _ _ => .done (hfinalizer.mono hle)

theorem onInterrupt {cleanup : Effect ε} (he : e.Typed S Γ ρ τ)
    (hcleanup : cleanup.Typed S Γ ρ .unit) : (e.onInterrupt cleanup).Typed S Γ ρ τ := by
  have hbuilt : ∀ Γ', Γ ≤ Γ' → ∀ x : Exit Value Value, x.Fits S Γ' ε τ → Describes S Γ' ρ .unit
      (pure (if x.isInterrupted then cleanup else Effect.unit)) := by
    refine fun Γ' hle x _ => .done ?_
    split
    · exact hcleanup.mono hle
    · exact unit
  exact he.onExit hbuilt

/-! ### Fibers -/

theorem fork (he : e.Typed S Γ ρ τ) : (e.fork : Effect ε').Typed S Γ ρ (.fiber ε τ) :=
  Instruction.Typed.fork false he

theorem forkDaemon (he : e.Typed S Γ ρ τ) :
    (e.forkDaemon : Effect ε').Typed S Γ ρ (.fiber ε τ) :=
  Instruction.Typed.fork true he

theorem signal (f : Fiber ε) : (f.signal : Effect ε').Typed S Γ ρ .unit :=
  Instruction.Typed.signal Γ ρ ε' f.id

theorem interrupt : (Effect.interrupt : Effect ε).Typed S Γ ρ τ :=
  Instruction.Typed.descriptor fun _ _ id => .done <|
    chain (Instruction.Typed.signal _ _ _ id) fun _ _ _ _ =>
      .done (haltCause (Cause.holds_interrupt id))

theorem async {register : SuspensionId → Action (Action Unit)}
    (hregister : ∀ Γ', Γ ≤ Γ' → ∀ s : SuspensionId, Γ'.places s.index = some ⟨ε, τ⟩ →
      (register s).Safe S (fun Γ' (_ : Unit) cancel => cancel.Harmless S Γ') Γ' ()) :
    (Effect.async register : Effect ε).Typed S Γ ρ τ :=
  Instruction.Typed.wait (.callback hregister)

theorem never : (Effect.never : Effect ε).Typed S Γ ρ τ :=
  async fun _ _ _ _ => .done (.done trivial)

theorem sleep (millis : Nat) : (Effect.sleep millis : Effect ε).Typed S Γ ρ .unit :=
  Instruction.Typed.wait (.sleep ε millis)

theorem delay (millis : Nat) (he : e.Typed S Γ ρ τ) : (e.delay millis).Typed S Γ ρ τ :=
  (sleep millis).zipRight he

theorem awaitExit {f : Fiber ε} (hf : Γ.fibers f.id.raw = some ⟨ε, τ⟩) :
    (f.awaitExit : Effect ε').Typed S Γ ρ (.exit ε τ) :=
  Instruction.Typed.wait (.awaitExit hf)

theorem adopt {f : Fiber ε} (hf : Γ.fibers f.id.raw = some ⟨ε, τ⟩) :
    f.adopt.Typed S Γ ρ τ :=
  chainAs (awaitExit hf) reads_exit fun _ _ _ hx => .done (ofExit hx)

theorem join {f : Fiber ε} (hf : Γ.fibers f.id.raw = some ⟨ε, τ⟩) : Describes S Γ ρ τ f.join :=
  (Action.safe_operation .newMark).bind fun _ hle mark _ =>
    .done (once mark (adopt (hle.fibers _ _ hf)))

theorem interruptFiber {f : Fiber ε} (hf : Γ.fibers f.id.raw = some ⟨ε, τ⟩) :
    (f.interrupt : Effect ε').Typed S Γ ρ (.exit ε τ) :=
  (signal f).zipRight (awaitExit hf)

/-! ### Retrying -/

/-- What a program retries for is a leaf of the cause. -/
theorem firstFailure_hasTy {c : Cause Value} {v : Value}
    (hc : c.Holds (Value.HasTy S Γ (S.payload ε)) S.defect) (hv : c.firstFailure = some v) :
    v.HasTy S Γ (S.payload ε) := by
  rw [Cause.firstFailure, Cause.failures, Cause.visited_eq_leaves] at hv
  obtain ⟨l, hl, hfailure⟩ := List.mem_filterMap.mp (List.mem_of_head? hv)
  cases l with
  | fail v' =>
    obtain rfl := Option.some.inj hfailure
    exact hc _ hl
  | die _ | interrupt _ => cases hfailure

theorem retryWhileM {test : Value → Action (Effect ε)} (he : e.Typed S Γ ρ τ)
    (htest : Continues S Γ ρ (S.payload ε) .bool test) :
    (e.retryWhileM test).Typed S Γ ρ τ := by
  refine Instruction.Typed.loop .unit fun Γ₁ h₁ _ _ => .done <|
    foldHalt (he.mono h₁) (fun Γ₂ h₂ h hh => ?_) fun _ _ _ hv => .done (succeed (.ok hv))
  unfold Effect.decideRetry
  split
  · exact .done (halt hh)
  · next failure hfailure =>
    refine (htest Γ₂ (h₁.trans h₂) _ (firstFailure_hasTy hh.cause hfailure)).bind
      fun Γ₃ h₃ _ hdecision => .done <| chainAs hdecision reads_bool fun Γ₄ h₄ again _ =>
        .done ?_
    split
    · exact succeed (.err .unit)
    · exact halt (hh.mono (h₃.trans h₄))

theorem retryWhile {test : Value → Action Bool} (he : e.Typed S Γ ρ τ)
    (htest : Judges S Γ (S.payload ε) test) : (e.retryWhile test).Typed S Γ ρ τ :=
  he.retryWhileM fun Γ' hle v hv => (htest Γ' hle v hv).bind fun _ _ again _ =>
    .done (succeed (.bool again))

theorem retryUntil {test : Value → Action Bool} (he : e.Typed S Γ ρ τ)
    (htest : Judges S Γ (S.payload ε) test) : (e.retryUntil test).Typed S Γ ρ τ :=
  he.retryWhile fun Γ' hle v hv => (htest Γ' hle v hv).bind fun _ _ _ _ => .done trivial

theorem retryN (he : e.Typed S Γ ρ τ) (n : Nat) : (e.retryN n).Typed S Γ ρ τ := by
  induction n generalizing Γ with
  | zero => exact he
  | succ n ih =>
    refine he.catchHalt fun Γ' hle h hh => .done ?_
    split
    · exact suspend fun Γ'' hle' => .done (ih (he.mono (hle.trans hle')))
    · exact halt hh

theorem retryable {test : Value → Action Bool} (htest : Judges S Γ (S.payload ε) test)
    {c : Cause Value} (hc : c.Holds (Value.HasTy S Γ (S.payload ε)) S.defect) :
    (Effect.retryable test c).Harmless S Γ := by
  unfold Effect.retryable
  split
  · exact .done trivial
  · next failure hfailure => exact htest Γ le_rfl _ (firstFailure_hasTy hc hfailure)

theorem retryFrom {policy : Backoff} {test : Value → Action Bool} (he : e.Typed S Γ ρ τ)
    (htest : Judges S Γ (S.payload ε) test) (attempt : UInt32) (left : Nat) :
    (Effect.retryFrom policy test e attempt left).Typed S Γ ρ τ := by
  induction left generalizing Γ attempt with
  | zero =>
    exact he.catchHalt fun Γ' hle h hh =>
      (retryable (fun Γ'' hle' => htest Γ'' (hle.trans hle')) hh.cause).bind fun _ hle' _ _ =>
        .done (halt (hh.mono hle'))
  | succ left ih =>
    refine he.catchHalt fun Γ₁ h₁ h hh =>
      (retryable (fun Γ' hle => htest Γ' (h₁.trans hle)) hh.cause).bind fun Γ₂ h₂ again _ => ?_
    have hgivesUp : Describes S Γ₂ ρ τ (pure (Effect.halt h : Effect ε)) :=
      .done (halt (hh.mono h₂))
    split
    · split
      · exact .done <| zipRight (sleep _) <| suspend fun Γ₃ h₃ => .done <|
          ih (he.mono (h₁.trans (h₂.trans h₃)))
            (fun Γ' hle => htest Γ' (h₁.trans (h₂.trans (h₃.trans hle)))) _
      · exact hgivesUp
    · exact hgivesUp

theorem retryPolicy {policy : Backoff} {test : Value → Action Bool} (he : e.Typed S Γ ρ τ)
    (htest : Judges S Γ (S.payload ε) test) : (e.retryPolicy policy test).Typed S Γ ρ τ :=
  he.retryFrom htest 0 policy.maxRetries.toNat

end Effect.Typed

/-! ### Cells -/

namespace CellId

variable {cell : CellId}

theorem typed_make {v : Value} (hv : v.HasTy S Γ τ) :
    (make v : Effect ε).Typed S Γ ρ (.cell τ) :=
  .sync fun _ hle => (Action.safe_operation (.newCell (hv.mono hle))).bind
    fun _ _ _ hcell => .done (.cell hcell)

theorem safe_read (hcell : Γ.cells cell.index = some τ) :
    cell.read.Safe S (Value.HasTy S) Γ τ :=
  (Action.safe_operation .observe).bind fun Γ' hle (store : Store) hstore => by
    obtain ⟨c, hc, hv⟩ := hstore.cells (hle.cells _ _ hcell)
    have hread : ((store.cell? cell).map Cell.value).getD .unit = c.value := by
      rw [Store.cell?, hc]
      rfl
    exact .done (hread ▸ hv)

theorem typed_get (hcell : Γ.cells cell.index = some τ) :
    (cell.get : Effect ε).Typed S Γ ρ τ :=
  .sync fun _ hle => safe_read (hle.cells _ _ hcell)

theorem typed_set {v : Value} (hcell : Γ.cells cell.index = some τ) (hv : v.HasTy S Γ τ) :
    (cell.set v : Effect ε).Typed S Γ ρ .unit :=
  .sync fun _ hle =>
    (Action.safe_operation (.writeCell (hle.cells _ _ hcell) (hv.mono hle))).bind
      fun _ _ _ _ => .done .unit

theorem typed_modify {f : Value → Action (Value × Value)} (hcell : Γ.cells cell.index = some τ)
    (hf : ∀ Γ', Γ ≤ Γ' → ∀ v, v.HasTy S Γ' τ → (f v).Safe S
      (fun Γ' (_ : Unit) p => p.1.HasTy S Γ' τ' ∧ p.2.HasTy S Γ' τ) Γ' ()) :
    (cell.modify f : Effect ε).Typed S Γ ρ τ' :=
  Instruction.Typed.update hcell fun Γ' hle v hv => (hf Γ' hle v hv).bind fun _ _ _ hp =>
    .done ⟨hp.1, fun _ heq => Option.some.inj heq ▸ hp.2⟩

theorem typed_modifySome {default : Value} {f : Value → Action (Option (Value × Value))}
    (hcell : Γ.cells cell.index = some τ) (hdefault : default.HasTy S Γ τ')
    (hf : ∀ Γ', Γ ≤ Γ' → ∀ v, v.HasTy S Γ' τ → (f v).Safe S (fun Γ' (_ : Unit) o =>
      ∀ p, o = some p → p.1.HasTy S Γ' τ' ∧ p.2.HasTy S Γ' τ) Γ' ()) :
    (cell.modifySome default f : Effect ε).Typed S Γ ρ τ' :=
  Instruction.Typed.update hcell fun Γ' hle v hv => (hf Γ' hle v hv).bind fun Γ'' hle' o ho => by
    cases o with
    | none => exact .done ⟨hdefault.mono (hle.trans hle'), nofun⟩
    | some p =>
      obtain ⟨hresult, hnext⟩ := ho p rfl
      exact .done ⟨hresult, fun _ heq => Option.some.inj heq ▸ hnext⟩

theorem typed_update {f : Value → Action Value} (hcell : Γ.cells cell.index = some τ)
    (hf : Computes S Γ τ τ f) : (cell.update f : Effect ε).Typed S Γ ρ .unit :=
  typed_modify hcell fun Γ' hle v hv => (hf Γ' hle v hv).bind fun _ _ _ hnext =>
    .done ⟨.unit, hnext⟩

theorem typed_updateAndGet {f : Value → Action Value} (hcell : Γ.cells cell.index = some τ)
    (hf : Computes S Γ τ τ f) : (cell.updateAndGet f : Effect ε).Typed S Γ ρ τ :=
  typed_modify hcell fun Γ' hle v hv => (hf Γ' hle v hv).bind fun _ _ _ hnext =>
    .done ⟨hnext, hnext⟩

theorem typed_getAndUpdate {f : Value → Action Value} (hcell : Γ.cells cell.index = some τ)
    (hf : Computes S Γ τ τ f) : (cell.getAndUpdate f : Effect ε).Typed S Γ ρ τ :=
  typed_modify hcell fun Γ' hle v hv => (hf Γ' hle v hv).bind fun _ hle' _ hnext =>
    .done ⟨hv.mono hle', hnext⟩

theorem typed_getAndSet {next : Value} (hcell : Γ.cells cell.index = some τ)
    (hnext : next.HasTy S Γ τ) : (cell.getAndSet next : Effect ε).Typed S Γ ρ τ :=
  typed_modify hcell fun _ hle _ hv => .done ⟨hv, hnext.mono hle⟩

theorem typed_updateSome {f : Value → Action (Option Value)}
    (hcell : Γ.cells cell.index = some τ)
    (hf : ∀ Γ', Γ ≤ Γ' → ∀ v, v.HasTy S Γ' τ → (f v).Safe S (fun Γ' (_ : Unit) o =>
      ∀ next, o = some next → next.HasTy S Γ' τ) Γ' ()) :
    (cell.updateSome f : Effect ε).Typed S Γ ρ .unit :=
  typed_modifySome hcell .unit fun Γ' hle v hv => (hf Γ' hle v hv).bind fun _ _ o ho => by
    refine .done fun p hp => ?_
    obtain ⟨next, hnext, rfl⟩ := Option.map_eq_some_iff.mp hp
    exact ⟨.unit, ho next hnext⟩

end CellId

/-! ### Channels -/

namespace ChannelId

variable {channel : ChannelId}

theorem typed_make (capacity : Option Nat) (hpayload : S.payload ε = .text) :
    (make capacity : Effect ε).Typed S Γ ρ (.channel τ) :=
  .trySync fun _ _ => (Action.safe_operation (.newChannel τ capacity)).bind fun _ _ made hmade => by
    cases made with
    | ok channel => exact .done (.channel (hmade channel rfl))
    | error e =>
      refine .done (Halt.holds_of (Cause.holds_fail ?_))
      rw [hpayload]
      exact .text e.message

theorem typed_offer {v : Value} (hchannel : Γ.channels channel.index = some τ)
    (hv : v.HasTy S Γ τ) : (channel.offer v : Effect ε).Typed S Γ ρ .unit :=
  Instruction.Typed.wait (.offer hchannel hv)

theorem typed_take (hchannel : Γ.channels channel.index = some τ) :
    (channel.take : Effect ε).Typed S Γ ρ τ :=
  Instruction.Typed.wait (.take hchannel)

theorem typed_awaitClose (channel : ChannelId) :
    (channel.awaitClose : Effect ε).Typed S Γ ρ .unit :=
  Instruction.Typed.wait (.awaitClose ε channel)

theorem typed_unlessClosed {found : Action (Except FiberId Value)}
    (hfound : ∀ Γ', Γ ≤ Γ' → found.Safe S (fun Γ' (_ : Unit) r =>
      ∀ v, r = .ok v → v.HasTy S Γ' τ) Γ' ()) :
    (unlessClosed found : Effect ε).Typed S Γ ρ τ :=
  Instruction.Typed.sync fun Γ' hle => (hfound Γ' hle).bind fun _ _ r hr => by
    cases r with
    | ok v => exact .done (hr v rfl)
    | error source => exact .done (Outcome.fits_interrupt source _)

theorem typed_drain (limit : Option Nat) (hchannel : Γ.channels channel.index = some τ) :
    (channel.drain limit : Effect ε).Typed S Γ ρ (.list τ) :=
  typed_unlessClosed fun _ hle =>
    (Action.safe_operation (.drain limit (hle.channels _ _ hchannel))).bind fun _ _ r hr => by
      refine .done fun v hv => ?_
      cases r with
      | ok vs =>
        obtain rfl := Except.ok.inj hv
        exact .list (hr vs rfl)
      | error source => cases hv

theorem typed_takeUpTo (limit : Nat) (hchannel : Γ.channels channel.index = some τ) :
    (channel.takeUpTo limit : Effect ε).Typed S Γ ρ (.list τ) :=
  typed_drain (some limit) hchannel

theorem typed_takeAll (hchannel : Γ.channels channel.index = some τ) :
    (channel.takeAll : Effect ε).Typed S Γ ρ (.list τ) :=
  typed_drain none hchannel

theorem typed_poll (hchannel : Γ.channels channel.index = some τ) :
    (channel.poll : Effect ε).Typed S Γ ρ (.option τ) :=
  typed_unlessClosed fun _ hle =>
    (Action.safe_operation (.drain (some 1) (hle.channels _ _ hchannel))).bind fun _ _ r hr => by
      refine .done fun v hv => ?_
      cases r with
      | ok vs =>
        obtain rfl := Except.ok.inj hv
        cases vs with
        | nil => exact .none τ
        | cons first rest => exact .some (hr _ rfl first List.mem_cons_self)
      | error source => cases hv

theorem typed_size (hchannel : Γ.channels channel.index = some τ) :
    (channel.size : Effect ε).Typed S Γ ρ .int :=
  typed_unlessClosed fun _ hle => (Action.safe_operation .observe).bind
    fun Γ' hle' (store : Store) hstore => by
      obtain ⟨ch, hch⟩ := hstore.channels ((hle.trans hle').channels _ _ hchannel)
      have hfound : store.channel? channel = some ch := hch
      simp only [hfound]
      split
      · exact .done nofun
      · refine .done fun v hv => ?_
        obtain rfl := Except.ok.inj hv
        exact .int _

theorem typed_isClosed (channel : ChannelId) :
    (channel.isClosed : Effect ε).Typed S Γ ρ .bool :=
  .sync fun _ _ => (Action.safe_operation .observe).bind fun _ _ _ _ => .done (.bool _)

theorem typed_close (channel : ChannelId) : (channel.close : Effect ε).Typed S Γ ρ .unit :=
  Instruction.Typed.descriptor fun _ _ id =>
    (Action.safe_operation (.close channel id)).bind fun _ _ _ _ => .done (.done .unit)

end ChannelId

end Fibers
