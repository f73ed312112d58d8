import Fibers.Proofs.SecretEffects
import Fibers.Resource

/-!
# Resources that keep a fiber secret

What holds of effects holds of the resources that are put together of them: if no code that acquires
or releases the parts has been told of a fiber, then no code of the whole has.

## Main definitions

* `Resource.Guards` — a resource whose code has not been told of a fiber.

## Main results

* `Resource.Guards.chain`, `Resource.Guards.parZipWith` — several as one.
* `Resource.Guards.use`, `Resource.Guards.allocate` — effects that use such a resource.
-/

namespace Fibers

/-- A resource whose code has not been told of the fiber. -/
abbrev Resource.Guards (c : FiberId) {ε : ErrorType} (m : Resource ε) : Prop :=
  m.reserve.Guards c .none

variable {c : FiberId} {ε : ErrorType}

theorem reads_reservations : Reads c false fun r : Reservation => r.value.Omits c := by
  intro v r hv hr
  cases v with
  | reservation v' release =>
    obtain rfl := Option.some.inj hr
    cases hv.omits with
    | reservation _ hv' => exact hv'
  | _ => cases hr

theorem Value.Omits.pair {a b : Value} (ha : a.Omits c) (hb : b.Omits c) :
    (Value.pair a b).Omits c :=
  .list (List.forall_mem_cons.mpr ⟨ha, List.forall_mem_singleton.mpr hb⟩)

/-- An exit without its value does not tell of the fiber if its failure does not. -/
theorem Exit.Omits.withoutValue {x : Exit Value Value} (h : x.Omits c) :
    x.withoutValue.Omits c := by
  cases x with
  | done _ => exact .unit
  | halt _ => exact h

theorem ReleaseId.guards_runInto (release : ReleaseId) {x : Exit Value Value} (hx : x.Omits c) :
    (release.runInto x : Effect ε).Guards c .none :=
  Effect.Guards.finishWith hx (Instruction.Guards.release release hx.withoutValue)

namespace Resource.Guards

variable {m a b : Resource ε}

/-! ### Simple resources -/

theorem bracketExit {acquire : Effect ε} {release : Value → Exit Value Value → Action (Effect ε)}
    (hacquire : acquire.Guards c .none)
    (hrelease : ∀ (v : Value) (x : Exit Value Value), v.Omits c → x.Omits c →
      Builds c .none (release v x)) : (Resource.bracketExit acquire release).Guards c :=
  Effect.Guards.chain hacquire fun v hv => .done <|
    Instruction.Guards.reserve hv.omits (.code fun x hx => hrelease v x hv.omits hx)

theorem bracket {acquire : Effect ε} {release : Value → Action (Effect ε)}
    (hacquire : acquire.Guards c .none)
    (hrelease : ∀ v : Value, v.Omits c → Builds c .none (release v)) :
    (Resource.bracket acquire release).Guards c :=
  bracketExit hacquire fun v _ hv _ => hrelease v hv

theorem fiber {e : Effect ε} (he : e.Guards c .none) : (Resource.fiber e).Guards c := by
  have hforks : (e.interruptible.fork : Effect ε).Guards c ⟨false, false⟩ :=
    Effect.Guards.fork (Instruction.Guards.setInterruptible he)
  have hreads : Reads c false fun f : Fiber ε => f.Waited c false := reads_fibers
  refine bracket hforks fun v hv => Effect.Guards.expecting hreads (fun f hf => .done ?_) hv.cleared
  exact Effect.Guards.as (Effect.Guards.interrupt (t := false) hf) .unit

/-! ### Several resources as one -/

theorem onReserved {f : Reservation → Action (Effect ε)} (hm : m.Guards c)
    (hf : ∀ r : Reservation, r.value.Omits c → Builds c .none (f r)) :
    (m.onReserved f).Guards c :=
  Effect.Guards.chainAs hm reads_reservations hf

theorem map {f : Value → Action Value} (hm : m.Guards c) (hf : ∀ v, v.Omits c → (f v).Omits c) :
    (m.map f).Guards c :=
  hm.onReserved fun r hr => (hf r.value hr).bind fun _ hv =>
    .done (Effect.Guards.succeed (.reservation _ hv))

theorem settleInner {outer : Reservation} {x : Exit Value Value} (hx : x.Omits c) :
    Builds c .none (Resource.settleInner outer x : Action (Effect ε)) := by
  cases x with
  | done inner =>
    exact Effect.Guards.expecting reads_reservations (fun r hr => .done <|
      Instruction.Guards.reserve hr (.nested ε _ _)) (Value.Omits.cleared hx)
  | halt h => exact .done (outer.release.guards_runInto hx)

/-- **A resource inside another one.** -/
theorem chain {f : Value → Action (Resource ε)} (hm : m.Guards c)
    (hf : ∀ v, v.Omits c → (f v).Guards c (fun (_ : Unit) (m : Resource ε) => m.Guards c) ()) :
    (m.chain f).Guards c :=
  hm.onReserved fun outer houter => by
    have hinner : Builds c .none (do
        let m ← f outer.value
        pure m.reserve) := (hf _ houter).bind fun _ hm => .done hm
    exact (Effect.Guards.guarded hinner).bind fun _ he => .done <|
      (Effect.Guards.result (t := false) he).chainAs reads_exits fun _ hx => settleInner hx

theorem zipWith {f : Value → Value → Action Value} (ha : a.Guards c) (hb : b.Guards c)
    (hf : ∀ x y, x.Omits c → y.Omits c → (f x y).Omits c) : (a.zipWith b f).Guards c :=
  ha.chain fun x hx => .done (hb.map fun y hy => hf x y hx hy)

theorem zip (ha : a.Guards c) (hb : b.Guards c) : (a.zip b).Guards c :=
  ha.zipWith hb fun _ _ hx hy => .done (hx.pair hy)

theorem settleBoth {f : Value → Value → Action Value} {x y : Exit Value Value} (hx : x.Omits c)
    (hy : y.Omits c) (hf : ∀ x y, x.Omits c → y.Omits c → (f x y).Omits c) :
    Builds c .none (Resource.settleBoth f x y : Action (Effect ε)) := by
  cases x with
  | done v =>
    cases y with
    | done v' =>
      exact Effect.Guards.expecting reads_reservations (fun left hleft =>
        Effect.Guards.expecting reads_reservations (fun right hright =>
          (hf _ _ hleft hright).bind fun _ hv => .done <|
            Instruction.Guards.reserve hv (.both ε _ _)) (Value.Omits.cleared hy))
        (Value.Omits.cleared hx)
    | halt h' =>
      exact Effect.Guards.expecting reads_reservations (fun left _ =>
        .done (left.release.guards_runInto hy)) (Value.Omits.cleared hx)
  | halt h =>
    cases y with
    | done v' =>
      exact Effect.Guards.expecting reads_reservations (fun right _ =>
        .done (right.release.guards_runInto hx)) (Value.Omits.cleared hy)
    | halt h' => exact .done (Effect.Guards.halt (Halt.Spares.keepSibling hx hy))

/-- **Two resources at once.** -/
theorem parZipWith {f : Value → Value → Action Value} (ha : a.Guards c) (hb : b.Guards c)
    (hf : ∀ x y, x.Omits c → y.Omits c → (f x y).Omits c) : (a.parZipWith b f).Guards c := by
  refine Instruction.Guards.setInterruptible (Effect.Guards.raceFold ha hb
    (fun x other hx hother => .done ?_) fun y other hy hother => .done ?_)
  · exact (Effect.Guards.awaitExit (t := false) hother).chainAs reads_exits fun _ hy =>
      settleBoth hx hy hf
  · exact (Effect.Guards.awaitExit (t := false) hother).chainAs reads_exits fun _ hx =>
      settleBoth hx hy hf

theorem parZip (ha : a.Guards c) (hb : b.Guards c) : (a.parZip b).Guards c :=
  ha.parZipWith hb fun _ _ hx hy => .done (hx.pair hy)

/-! ### Consumers -/

theorem use {g : Value → Action (Effect ε)} (hm : m.Guards c)
    (hg : ∀ v, v.Omits c → Builds c .none (g v)) : (m.use g).Guards c .none :=
  Effect.Guards.bracketExit hm
    (fun _ hv => Effect.Guards.expecting reads_reservations (fun r hr => hg r.value hr) hv.cleared)
    fun _ _ hv hx => Effect.Guards.expecting reads_reservations
      (fun r _ => .done (Instruction.Guards.release r.release hx.withoutValue)) hv.cleared

theorem allocate (hm : m.Guards c) : m.allocate.Guards c .none := by
  refine Effect.Guards.mask fun restore => .done <| hm.chainAs reads_reservations fun r hr =>
    .done <| (Effect.Guards.result (t := false)
      (Effect.Guards.restored Effect.Guards.unit restore)).chainAs reads_exits fun x hx => ?_
  cases x with
  | done _ =>
    exact .perform (.newLease r.release) fun lease _ =>
      .done (Effect.Guards.succeed (.lease lease hr))
  | halt h => exact .done (r.release.guards_runInto hx)

end Resource.Guards

end Fibers
