import Fibers.Proofs.Iteration
import Fibers.Proofs.Operations
import Fibers.Proofs.Preservation

/-!
# Typed iterations

An iteration of a fiber that runs in a typed world leaves a typed world, and the fiber goes on with
something that the rest of it accepts.  What the iteration is going to do is decided by the rest of
the fiber and by its next step; the rest accepts what is handed to it, and an interruption that
takes the place of a step, or that passes by a handler, is a failure of every type.

## Main definitions

* `Plan.Typed` — a plan that leaves a typed world.

## Main results

* `World.Typed.complete` — the end of a fiber leaves a typed world.
* `World.Typed.park` — so does a wait, and the fiber goes on as its wait has ended.
* `RunState.Accepts.planValue`, `RunState.Accepts.planHalt`, `RunState.Accepts.planEval` — what is
  planned for something that the rest of a fiber accepts.
* `World.Typed.iterate` — **an iteration of a typed fiber in a typed world.**
-/

namespace Fibers

variable {S : Declarations} {Γ : Context} {τ : Ty} {w : World}

namespace World.Typed

/-! ### The exit of a fiber -/

/-- An exit that is taken is that of the fiber, or tells that there is none to take. -/
theorem takeExit {fiber : FiberId} {e : Ending} (hS : S.Allows) (h : w.Typed S Γ)
    (he : Γ.fibers fiber.raw = some e) :
    (w.takeExit fiber).2.Typed S Γ ∧ Outcome.Fits S Γ e (w.takeExit fiber).1 := by
  unfold World.takeExit
  split
  · next outcome hout =>
    obtain ⟨r, hr, hexit⟩ := Option.bind_eq_some_iff.mp hout
    obtain ⟨e', he', htyped⟩ := h.store.fibers.of_get? hr
    obtain rfl := Option.some.inj (he.symm.trans he')
    exact ⟨h.modifyFiber (fun _ _ _ hr => ⟨nofun, hr.observers⟩) fun _ => Or.inl rfl,
      htyped.exit outcome hexit⟩
  · refine ⟨h, ?_⟩
    split
    · exact Outcome.fits_die (hS.taken _ _) e
    · exact Outcome.fits_die (hS.missing _ _) e

theorem restoreExit {fiber : FiberId} {o : Outcome} {e : Ending} (h : w.Typed S Γ)
    (he : Γ.fibers fiber.raw = some e) (ho : Outcome.Fits S Γ e o) :
    (w.restoreExit fiber o).Typed S Γ := by
  refine h.modifyFiber (fun e' r he' hr => ⟨fun o' ho' => ?_, hr.observers⟩) fun _ => Or.inl rfl
  obtain rfl := Option.some.inj (he.symm.trans he')
  rcases Option.or_eq_some_iff.mp ho' with hold | ⟨-, hnew⟩
  · exact hr.exit o' hold
  · exact Option.some.inj hnew ▸ ho

/-! ### Observers -/

/-- The verdict on some children is the position of one of them, or nothing. -/
theorem failureVerdict {children : List FiberId} {fiber : FiberId} {position : Nat} {v : Value}
    (hposition : position < children.length)
    (hv : w.failureVerdict children fiber position = some v) :
    v.HasTy S Γ (.option (.index children.length)) := by
  unfold World.failureVerdict at hv
  split at hv
  · obtain rfl := Option.some.inj hv
    exact .some (.index hposition)
  · split at hv
    · obtain rfl := Option.some.inj hv
      exact .none _
    · cases hv

/-- Whoever asked for the end of a fiber is told something of the type that he waits for. -/
theorem notify {fiber : FiberId} {e : Ending} {observer : Observer} (hS : S.Allows)
    (h : w.Typed S Γ) (he : Γ.fibers fiber.raw = some e) (ho : observer.Typed Γ e) :
    (w.notify fiber observer).Typed S Γ := by
  cases observer with
  | report type =>
    obtain rfl : type = e.error := ho
    obtain ⟨htaken, hexit⟩ := h.takeExit hS he
    refine htaken.withStore { htaken.store with reports := ?_ } rfl
    exact List.forall_mem_append.mpr
      ⟨htaken.store.reports, List.forall_mem_singleton.mpr ⟨e, he, Outcome.Fits.untag hexit⟩⟩
  | exitTo waiter type =>
    obtain ⟨rfl, hwaiter⟩ := ho
    obtain ⟨htaken, hexit⟩ := h.takeExit hS he
    have huntagged := Outcome.Fits.untag hexit
    have htold := htaken.tell hwaiter (.of_exit huntagged)
    unfold World.notify
    simp only
    split
    · next w' heq =>
      rw [heq] at htold
      exact htold
    · next w' heq =>
      rw [heq] at htold
      exact htold.restoreExit he huntagged.tag
  | firstDone waiter left => exact h.tell ho (.bool left)
  | firstFailure waiter children position =>
    obtain ⟨hposition, hwaiter⟩ := ho
    unfold World.notify
    simp only
    split
    · next verdict hv => exact h.tell hwaiter (failureVerdict hposition hv)
    · exact h

theorem notifyAll {fiber : FiberId} {e : Ending} {observers : List Observer} (hS : S.Allows)
    (h : w.Typed S Γ) (he : Γ.fibers fiber.raw = some e) (ho : ∀ o ∈ observers, o.Typed Γ e) :
    (observers.foldl (fun w observer => w.notify fiber observer) w).Typed S Γ := by
  induction observers generalizing w with
  | nil => exact h
  | cons o observers ih =>
    obtain ⟨hfirst, hrest⟩ := List.forall_mem_cons.mp ho
    exact ih (h.notify hS he hfirst) hrest

theorem observe {fiber : FiberId} {e : Ending} {observer : Observer} (hS : S.Allows)
    (h : w.Typed S Γ) (he : Γ.fibers fiber.raw = some e) (ho : observer.Typed Γ e) :
    (w.observe fiber observer).Typed S Γ := by
  unfold World.observe
  split
  · exact h.notify hS he ho
  · refine h.modifyFiber (fun e' r he' hr => ⟨hr.exit, ?_⟩) fun _ => Or.inl rfl
    obtain rfl := Option.some.inj (he.symm.trans he')
    exact List.forall_mem_append.mpr ⟨hr.observers, List.forall_mem_singleton.mpr ho⟩

/-! ### The end of a fiber -/

/-- **The end of a fiber leaves a typed world.** -/
theorem complete {fiber : FiberId} {o : Outcome} {e : Ending} (hS : S.Allows) (h : w.Typed S Γ)
    (he : Γ.fibers fiber.raw = some e) (ho : Outcome.Fits S Γ e o) :
    ∃ Γ', Γ ≤ Γ' ∧ (w.complete fiber o).Typed S Γ' := by
  unfold World.complete
  split
  · exact ⟨Γ, le_rfl, h⟩
  · next record hrecord =>
    have hchildless : (w.modifyFiber fiber fun f => { f with children := [] }).Typed S Γ :=
      h.modifyFiber (fun _ _ _ hr => ⟨hr.exit, hr.observers⟩) fun _ => Or.inl rfl
    obtain ⟨Γ', hle, hquiet⟩ := hchildless.interruptUnfinished record.children fiber
    refine ⟨Γ', hle, ?_⟩
    simp only
    generalize (w.modifyFiber fiber fun f => { f with children := [] }).interruptUnfinished
      record.children fiber = w' at hquiet
    have he' : Γ'.fibers fiber.raw = some e := hle.fibers _ _ he
    refine World.Typed.notifyAll hS (hquiet.modifyFiber (fun e₁ r he₁ hr => ⟨fun o' ho' => ?_, nofun⟩)
      fun _ => Or.inr rfl) he' ?_
    · obtain rfl := Option.some.inj (he'.symm.trans he₁)
      exact Option.some.inj ho' ▸ ho.mono hle
    · obtain ⟨r, hr, htyped⟩ := hquiet.store.fibers.there he'
      have hfound : w'.store.fiber? fiber = some r := hr
      rw [hfound]
      exact htyped.observers

/-! ### Registration -/

theorem registerOffer {c : ChannelId} {v : Value} {s : SuspensionId} (h : w.Typed S Γ)
    (hc : Γ.channels c.index = some τ) (hv : v.HasTy S Γ τ) (hs : Γ.Tells s .unit) :
    (w.registerOffer c v s).2.Typed S Γ ∧ (w.registerOffer c v s).1.Typed S Γ := by
  obtain ⟨ch, hch, htyped⟩ := h.store.channels.there hc
  have hfound : w.store.channel? c = some ch := hch
  obtain ⟨hoffered, htells⟩ := htyped.offer? w.isLive hv
  have hset : ∀ {ch' : Channel Value SuspensionId}, ch'.Typed S Γ τ →
      ({ w with store := w.store.setChannel c ch' } : World).Typed S Γ := fun hch' =>
    h.setChannel fun τ' hτ' => Option.some.inj (hc.symm.trans hτ') ▸ hch'
  simp only [World.registerOffer, hfound]
  split
  · exact ⟨h.refuse _, trivial⟩
  · next taker ch' heq =>
    rw [heq] at hoffered htells
    exact ⟨((hset hoffered).tell (htells taker rfl) hv).tell hs .unit, trivial⟩
  · next ch' heq =>
    rw [heq] at hoffered
    exact ⟨(hset hoffered).tell hs .unit, trivial⟩
  · next ch' heq =>
    rw [heq] at hoffered
    exact ⟨hset (hoffered.enqueueOfferer hv hs), trivial⟩

theorem registerTake {c : ChannelId} {s : SuspensionId} (h : w.Typed S Γ)
    (hc : Γ.channels c.index = some τ) (hs : Γ.Tells s τ) :
    (w.registerTake c s).2.Typed S Γ ∧ (w.registerTake c s).1.Typed S Γ := by
  obtain ⟨ch, hch, htyped⟩ := h.store.channels.there hc
  have hfound : w.store.channel? c = some ch := hch
  obtain ⟨htaken, helement⟩ := h.takeElement hc htyped
  simp only [World.registerTake, hfound]
  split
  · exact ⟨h.refuse _, trivial⟩
  · split
    · next v w' heq =>
      rw [heq] at htaken helement
      exact ⟨htaken.tell hs (helement v rfl), trivial⟩
    · next w' heq =>
      rw [heq] at htaken
      refine ⟨htaken.setChannel fun τ' hτ' => ?_, trivial⟩
      exact Option.some.inj (hc.symm.trans hτ') ▸ htyped.enqueueTaker hs

theorem registerClose {c : ChannelId} {s : SuspensionId} (h : w.Typed S Γ)
    (hs : Γ.Tells s .unit) :
    (w.registerClose c s).2.Typed S Γ ∧ (w.registerClose c s).1.Typed S Γ := by
  unfold World.registerClose
  split
  · exact ⟨h, trivial⟩
  · next ch hch =>
    split
    · exact ⟨h.tell hs .unit, trivial⟩
    · obtain ⟨τ, hτ, htyped⟩ := h.store.channels.of_get? hch
      refine ⟨h.setChannel fun τ' hτ' => ?_, trivial⟩
      exact Option.some.inj (hτ.symm.trans hτ') ▸ htyped.enqueueWatcher hs

theorem observeChildren {s : SuspensionId} {children : List FiberId} (hS : S.Allows)
    (h : w.Typed S Γ) (hs : Γ.Tells s (.option (.index children.length)))
    (hchildren : ∀ c ∈ children, ∃ e, Γ.fibers c.raw = some e) :
    (w.observeChildren s children).Typed S Γ := by
  unfold World.observeChildren
  -- every position is that of a child
  have hall : ∀ c ∈ children.zipIdx, c.1 ∈ children ∧ c.2 < children.length := by
    rintro ⟨c, i⟩ hc
    obtain ⟨hi, heq⟩ := List.mem_zipIdx' hc
    exact ⟨heq ▸ List.getElem_mem hi, hi⟩
  generalize children.zipIdx = positions at hall
  induction positions generalizing w with
  | nil => exact h
  | cons c positions ih =>
    obtain ⟨⟨hc, hposition⟩, hrest⟩ := List.forall_mem_cons.mp hall
    obtain ⟨e, he⟩ := hchildren c.1 hc
    exact ih (h.observe hS he ⟨hposition, hs⟩) hrest

/-- **Asking for the end of a wait leaves a typed world.** -/
theorem register {s : SuspensionId} {e : Ending} {registration : Registration} (hS : S.Allows)
    (h : w.Typed S Γ) (hs : Γ.places s.index = some e) (hr : registration.Typed S Γ e) :
    ∃ Γ', Γ ≤ Γ' ∧ (w.register s registration).2.Typed S Γ' ∧
      Action.Yields S (fun Γ' (_ : Unit) c => Canceler.Typed S Γ' c) Γ' ()
        (w.register s registration).1 := by
  cases hr with
  | callback hregister =>
    obtain ⟨Γ', hle, hworld, hyields⟩ := run (hregister Γ le_rfl s hs) h
    refine ⟨Γ', hle, ?_⟩
    simp only [World.register]
    split
    · next cancel w' heq =>
      rw [heq] at hworld hyields
      exact ⟨hworld, hyields⟩
    · next d w' heq =>
      rw [heq] at hworld hyields
      exact ⟨hworld, hyields⟩
  | sleep ε millis =>
    refine ⟨Γ, le_rfl, h.withStore { h.store with alarms := fun a ha => ?_ } rfl, trivial⟩
    rcases Alarms.of_mem_schedule ha with rfl | hold
    · exact ⟨ε, hs⟩
    · exact h.store.alarms a hold
  | awaitExit hfiber => exact ⟨Γ, le_rfl, h.observe hS hfiber ⟨rfl, _, hs⟩, trivial⟩
  | firstDone ε hleft hright =>
    have htells : Γ.Tells s .bool := ⟨ε, hs⟩
    have hobserved : (w.observe _ (.firstDone s true)).Typed S Γ := h.observe hS hleft htells
    have hboth : ((w.observe _ (.firstDone s true)).observe _ (.firstDone s false)).Typed S Γ :=
      hobserved.observe hS hright htells
    exact ⟨Γ, le_rfl, hboth, trivial⟩
  | firstFailure ε hchildren =>
    exact ⟨Γ, le_rfl, h.observeChildren hS ⟨ε, hs⟩ hchildren, trivial⟩
  | offer hc hv => exact ⟨Γ, le_rfl, h.registerOffer hc hv ⟨_, hs⟩⟩
  | take hc => exact ⟨Γ, le_rfl, h.registerTake hc ⟨_, hs⟩⟩
  | awaitClose ε c => exact ⟨Γ, le_rfl, h.registerClose ⟨ε, hs⟩⟩

/-! ### Parking -/

/-- A place is made for a fiber to wait at, and it is known how the wait ends. -/
theorem newSuspension (fiber : FiberId) (allowed : Bool) (registration : Registration)
    (e : Ending) (h : w.Typed S Γ) :
    ∃ Γ', Γ ≤ Γ' ∧ (w.newSuspension fiber allowed registration).2.Typed S Γ' ∧
      Γ'.places (w.newSuspension fiber allowed registration).1.index = some e ∧
      ∃ p, (w.newSuspension fiber allowed registration).2.suspension?
        (w.newSuspension fiber allowed registration).1 = some p ∧ p.fiber = fiber := by
  have hfresh := h.places.next_eq_none
  have hle : Γ ≤ { Γ with places := Function.update Γ.places w.suspensions.next (some e) } :=
    ⟨.refl _, Context.extends_update hfresh e, .refl _, .refl _, .refl _, .refl _⟩
  have hlater := h.mono hle
  have hmade : (w.suspensions.push { fiber, interruptible := allowed, registration }).get?
      w.suspensions.next = some { fiber, interruptible := allowed, registration } :=
    Numbered.get?_push_next _ _
  refine ⟨_, hle, ?_, Function.update_self .., _, hmade, rfl⟩
  exact {
    store := { hlater.store with
      fibers := hlater.store.fibers.modify fun _ _ _ _ hr => ⟨hr.exit, hr.observers⟩ }
    places := hlater.places.declare trivial
    tasks := hlater.tasks
    releases := hlater.releases
    owner := fun {id r t} hr ht => by
      simp only [World.newSuspension, World.modifyFiber, Store.fiber?_modifyFiber] at hr
      split at hr
      · next heq =>
        subst heq
        obtain ⟨r', -, rfl⟩ := Option.map_eq_some_iff.mp hr
        obtain rfl := Option.some.inj ht
        exact ⟨_, hmade, rfl⟩
      · obtain ⟨p, hp, hfiber⟩ := h.owner hr ht
        refine ⟨p, ?_, hfiber⟩
        rw [World.suspension?, World.newSuspension, World.modifyFiber, Numbered.get?_push,
          if_neg]
        · exact hp
        · rintro heq
          rw [World.suspension?, heq, Numbered.get?_next] at hp
          cases hp }

/-- A fiber is parked, or interrupted as soon as it is. -/
theorem parkAt {fiber : FiberId} {s : SuspensionId} {run : RunState} {onInterrupt : Canceler}
    {root : Ending} {σ : Signature} (h : w.Typed S Γ) (hs : Γ.places s.index = some σ.ending)
    (hplace : ∃ p, w.suspension? s = some p ∧ p.fiber = fiber)
    (hroot : Γ.fibers fiber.raw = some root) (hrun : run.Accepts S Γ root σ)
    (hcancel : onInterrupt.Typed S Γ) :
    ∃ Γ', Γ ≤ Γ' ∧ (w.parkAt fiber s run onInterrupt).Typed S Γ' := by
  obtain ⟨p, hp, rfl⟩ := hplace
  have hparked : (w.setSuspension s (.waiting run onInterrupt)).Typed S Γ := by
    refine h.setSuspension fun e p' he hp' => ?_
    obtain rfl := Option.some.inj (hs.symm.trans he)
    obtain rfl := Option.some.inj (hp.symm.trans hp')
    exact ⟨hcancel, root, σ.env, hroot, hrun⟩
  unfold World.parkAt
  simp only
  split
  · refine hparked.interruptAt (fun p' hp' => ?_) _
    rw [World.suspension?_setSuspension, if_pos rfl, hp] at hp'
    exact Option.some.inj hp' ▸ rfl
  · exact ⟨Γ, le_rfl, hparked⟩

/-- **A wait leaves a typed world, and a fiber goes on as its wait has ended.** -/
theorem park {fiber : FiberId} {run : RunState} {registration : Registration} {root : Ending}
    {σ : Signature} (hS : S.Allows) (h : w.Typed S Γ) (hroot : Γ.fibers fiber.raw = some root)
    (hrun : run.Accepts S Γ root σ) (hr : registration.Typed S Γ σ.ending) :
    ∃ Γ', Γ ≤ Γ' ∧ (w.park fiber run registration).2.Typed S Γ' ∧
      ∀ step, (w.park fiber run registration).1 = some step → step.Typed S Γ' σ := by
  obtain ⟨Γ₁, h₁, hmade, hplace, p, hp, hfiber⟩ :=
    h.newSuspension fiber run.interruptible registration σ.ending
  unfold World.park
  simp only
  generalize w.newSuspension fiber run.interruptible registration = made at *
  obtain ⟨s, w₁⟩ := made
  obtain ⟨Γ₂, h₂, hregistered, hyields⟩ := hmade.register hS hplace (hr.mono h₁)
  obtain ⟨events, hinfluence⟩ := w₁.influences_register s registration
  obtain ⟨p', hp', hkeeps⟩ := hinfluence.place hp
  generalize w₁.register s registration = registered at *
  obtain ⟨result, w₂⟩ := registered
  have hplace₂ := h₂.places _ _ hplace
  have hle := h₁.trans h₂
  have hover : (w₂.setSuspension s .over).Typed S Γ₂ :=
    hregistered.setSuspension fun _ _ _ _ => trivial
  cases result with
  | error d =>
    exact ⟨Γ₂, hle, hover, fun step hstep => Option.some.inj hstep ▸ Step.typed_die hyields⟩
  | ok onInterrupt =>
    split
    · next heq _ =>
      obtain rfl := Except.ok.inj heq
      obtain ⟨Γ₃, h₃, hparked⟩ := hregistered.parkAt hplace₂
        ⟨p', hp', hkeeps.fiber.trans hfiber⟩ (hle.fibers _ _ hroot) (hrun.mono hle) hyields
      exact ⟨Γ₃, hle.trans h₃, hparked, nofun⟩
    · next hstate =>
      obtain ⟨q, hq, hearly⟩ := Option.map_eq_some_iff.mp hstate
      obtain ⟨e, he, htyped⟩ := hregistered.places.of_get? hq
      obtain rfl := Option.some.inj (hplace₂.symm.trans he)
      rw [Suspension.Typed, hearly] at htyped
      refine ⟨Γ₂, hle, hover, fun step hstep => ?_⟩
      exact Option.some.inj hstep ▸ Step.typed_ofOutcome htyped
    · exact ⟨Γ₂, hle, hover, fun step hstep =>
        Option.some.inj hstep ▸ Step.typed_die hS.twice⟩
    · next heq => cases heq

end World.Typed

/-! ### The translation of failures -/

/-- The failures of a cause, as programs see it, are of a type. -/
abbrev Cause.Bears (S : Declarations) (Γ : Context) (τ : Ty) (c : Cause Value) : Prop :=
  c.Holds (Value.HasTy S Γ τ) S.defect

theorem Cause.Bears.mono {c : Cause Value} {Γ' : Context} (hle : Γ ≤ Γ') (h : c.Bears S Γ τ) :
    c.Bears S Γ' τ := fun l hl => (h l hl).imp fun _ hv => hv.mono hle

section Translation

variable {τ' : Ty} {f : Value → Action (Cause Value)}

/-- Code that translates failures of one type into those of another translates causes. -/
theorem Cause.safe_flatMapM {c : Cause Value} (hc : c.Bears S Γ τ)
    (hf : ∀ Γ', Γ ≤ Γ' → ∀ v, v.HasTy S Γ' τ → (f v).Safe S (Cause.Bears S) Γ' τ') :
    (c.flatMapM f).Safe S (Cause.Bears S) Γ τ' := by
  induction c generalizing Γ with
  | empty => exact .done nofun
  | fail v => exact hf Γ le_rfl v (hc (.fail v) List.mem_cons_self)
  | die d => exact .done (Cause.holds_die (hc (.die d) List.mem_cons_self))
  | interrupt source => exact .done (Cause.holds_interrupt source)
  | seq left right ihl ihr =>
    obtain ⟨hl, hr⟩ := List.forall_mem_append.mp hc
    refine (ihl hl hf).bind fun Γ₁ h₁ l hl' => ?_
    refine (ihr (Cause.Bears.mono h₁ hr) fun Γ' hle => hf Γ' (h₁.trans hle)).bind
      fun Γ₂ h₂ r hr' => .done ?_
    exact (hl'.mono h₂).andThen hr'
  | par left right ihl ihr =>
    obtain ⟨hl, hr⟩ := List.forall_mem_append.mp hc
    refine (ihl hl hf).bind fun Γ₁ h₁ l hl' => ?_
    refine (ihr (Cause.Bears.mono h₁ hr) fun Γ' hle => hf Γ' (h₁.trans hle)).bind
      fun Γ₂ h₂ r hr' => .done ?_
    exact (hl'.mono h₂).alongside hr'

/-- The same for all causes of a list. -/
theorem Cause.safe_mapM_flatMapM {cs : List (Cause Value)} (hcs : ∀ c ∈ cs, c.Bears S Γ τ)
    (hf : ∀ Γ', Γ ≤ Γ' → ∀ v, v.HasTy S Γ' τ → (f v).Safe S (Cause.Bears S) Γ' τ') :
    (List.mapM (Cause.flatMapM f) cs).Safe S (fun Γ' (τ' : Ty) cs => ∀ c ∈ cs, c.Bears S Γ' τ') Γ τ' := by
  induction cs generalizing Γ with
  | nil => exact .done nofun
  | cons c cs ih =>
    obtain ⟨hc, hrest⟩ := List.forall_mem_cons.mp hcs
    rw [List.mapM_cons]
    refine (Cause.safe_flatMapM hc hf).bind fun Γ₁ h₁ c' hc' => ?_
    refine (ih (fun c hmem => (hrest c hmem).mono h₁) fun Γ' hle => hf Γ' (h₁.trans hle)).bind
      fun Γ₂ h₂ cs' hcs' => .done ?_
    exact List.forall_mem_cons.mpr ⟨hc'.mono h₂, hcs'⟩

/-- **Failures that are translated are of the type that is declared.** -/
theorem Halt.safe_translate {h : Halt Failure} {source target : ErrorType}
    {f : Value → Action Value} (hh : h.Fits S Γ source)
    (hf : Computes S Γ (S.payload source) (S.payload target) f) :
    (h.translate source target f).Safe S (Halt.Fits S) Γ target := by
  have huntagged := Halt.holds_iff.mp hh.untag
  have hbears : ∀ Γ', Γ ≤ Γ' → ∀ v, v.HasTy S Γ' (S.payload source) →
      (do let b ← f v; pure (Cause.fail b) : Action (Cause Value)).Safe S (Cause.Bears S) Γ'
        (S.payload target) := fun Γ' hle v hv =>
    (hf Γ' hle v hv).bind fun _ _ _ hb => .done (Cause.holds_fail hb)
  have hmapped : ((h.untag source).flatMapM fun v => do
      let b ← f v
      pure (Cause.fail b)).Safe S (Halt.Says S) Γ target := by
    refine (Cause.safe_flatMapM (huntagged _ List.mem_cons_self) hbears).bind fun Γ₁ h₁ c hc => ?_
    refine (Cause.safe_mapM_flatMapM
      (fun c' hc' => Cause.Bears.mono h₁ (huntagged c' (List.mem_cons_of_mem _ hc')))
      fun Γ' hle => hbears Γ' (h₁.trans hle)).bind fun Γ₂ h₂ cs hcs => .done ?_
    exact Halt.holds_iff.mpr (List.forall_mem_cons.mpr ⟨hc.mono h₂, hcs⟩)
  exact hmapped.bind fun _ _ _ hmapped => .done (Halt.fits_tag hmapped)

end Translation

/-- What a handler that is passed by would have handled has failures of every type, if it is not
said that the handler keeps their type. -/
theorem Halt.Fits.pastFold {h : Halt Failure} {ε ε' : ErrorType} {sameError : Bool}
    (hS : S.Allows) (hh : h.Fits S Γ ε) (hsame : sameError = true → ε = ε') (source : FiberId) :
    (h.pastFold sameError source).Fits S Γ ε' := by
  have hheld : (if sameError then h
      else h.discard "typed failure discarded: its handler was skipped by interruption").Fits
        S Γ ε' := by
    split
    · next hsameError => exact hsame hsameError ▸ hh
    · exact hh.discard hS.skipped
  unfold Halt.pastFold
  simp only
  generalize (if sameError then h else _ : Halt Failure) = held at hheld
  split
  · exact hheld
  · exact Halt.Holds.withCause hheld (hheld.cause.alongside (Cause.holds_interrupt source))

/-! ### Plans -/

/-- A plan that leaves a typed world, for a fiber that ends as `root` says. -/
inductive Plan.Typed (S : Declarations) (Γ : Context) (root : Ending) : Plan → Prop where
  | proceed {run : RunState} {step : Step} {σ : Signature} : run.Accepts S Γ root σ →
      step.Typed S Γ σ → Typed S Γ root (.proceed run step)
  | finish {outcome : Outcome} : Outcome.Fits S Γ root outcome →
      Typed S Γ root (.finish outcome)
  | build {run : RunState} {code : Action Instruction} {σ : Signature} :
      run.Accepts S Γ root σ → code.Safe S (Instruction.Typed S) Γ σ →
      Typed S Γ root (.build run code)
  | translate {run : RunState} {code : Action (Halt Failure)} {σ : Signature} :
      run.Accepts S Γ root σ → code.Safe S (Halt.Fits S) Γ σ.error →
      Typed S Γ root (.translate run code)
  | compute {run : RunState} {code : Action Outcome} {σ : Signature} :
      run.Accepts S Γ root σ → code.Safe S (Outcome.Fits S) Γ σ.ending →
      Typed S Γ root (.compute run code)
  | update {run : RunState} {cell : CellId} {f : Value → Action (Update Value)}
      {σ : Signature} : run.Accepts S Γ root σ → (Step.attempt cell f).Typed S Γ σ →
      Typed S Γ root (.update run cell f)
  | release {run : RunState} {release : ReleaseId} {exit : Exit Value Value} {ρ : Ty}
      {ε : ErrorType} : run.Accepts S Γ root ⟨ρ, ε, .unit⟩ →
      Γ.releases release.index = some (ρ, ε) → exit.Fits S Γ ε .unit →
      Typed S Γ root (.release run release exit)
  | releaseLease {run : RunState} {lease : LeaseId} {exit : Exit Value Value} {ρ : Ty}
      {ε : ErrorType} : run.Accepts S Γ root ⟨ρ, ε, .unit⟩ →
      Γ.leases lease.index = some (ρ, ε) → exit.Fits S Γ ε .unit →
      Typed S Γ root (.releaseLease run lease exit)
  | reserve {run : RunState} {v : Value} {release : Release} {ρ : Ty} {ε : ErrorType} {τ : Ty} :
      run.Accepts S Γ root ⟨ρ, ε, .reservation ρ ε τ⟩ → v.HasTy S Γ τ →
      release.Typed S Γ (ρ, ε) → Typed S Γ root (.reserve run v release)
  | fork {run : RunState} {child : Instruction} {ρ : Ty} {ε ε' : ErrorType} {τ : Ty}
      (daemon : Bool) : run.Accepts S Γ root ⟨ρ, ε, .fiber ε' τ⟩ →
      child.Typed S Γ ⟨ρ, ε', τ⟩ → Typed S Γ root (.fork run child daemon)
  | signal {run : RunState} {ρ : Ty} {ε : ErrorType} (target : FiberId) :
      run.Accepts S Γ root ⟨ρ, ε, .unit⟩ → Typed S Γ root (.signal run target)
  | wait {run : RunState} {registration : Registration} {σ : Signature} :
      run.Accepts S Γ root σ → registration.Typed S Γ σ.ending →
      Typed S Γ root (.wait run registration)
  | makeWay {run : RunState} {ρ : Ty} {ε : ErrorType} : run.Accepts S Γ root ⟨ρ, ε, .unit⟩ →
      Typed S Γ root (.makeWay run)

/-- A round of a loop ends with the value of the loop, or with the state of the next round. -/
theorem Instruction.safe_nextRound {ρ : Ty} {ε : ErrorType} {τ τ' : Ty}
    {body : Value → Action Instruction}
    (hbody : ∀ Γ', Γ ≤ Γ' → ∀ v, v.HasTy S Γ' τ →
      Action.Safe S (Instruction.Typed S) Γ' ⟨ρ, ε, .result τ' τ⟩ (body v)) :
    ∀ Γ', Γ ≤ Γ' → ∀ v, v.HasTy S Γ' (.result τ' τ) →
      Action.Safe S (Instruction.Typed S) Γ' ⟨ρ, ε, τ'⟩ (Instruction.nextRound body v) := by
  intro Γ' hle v hv
  cases hv with
  | ok hv => exact .done (.done hv)
  | err hv => exact .done (.loop hv fun Γ'' hle' => hbody Γ'' (hle.trans hle'))

namespace RunState.Accepts

variable {root : Ending} {σ : Signature} {run : RunState}

/-- **The plan for a value of the type that is accepted.** -/
theorem planValue {v : Value} (hrun : run.Accepts S Γ root σ) (hv : v.HasTy S Γ σ.value) :
    (run.planValue v).Typed S Γ root := by
  obtain ⟨stack, environments, statuses⟩ := run
  unfold RunState.Accepts at hrun
  cases hrun with
  | bottom _ => exact .finish hv
  | chain hnext hrest => exact .build hrest (hnext Γ le_rfl v hv)
  | fold _ hdone _ hrest => exact .build hrest (hdone Γ le_rfl v hv)
  | mapError _ hrest => exact .proceed (σ := ⟨_, _, _⟩) hrest hv
  | popEnvironment _ hrest => exact .proceed (σ := ⟨_, _, _⟩) hrest hv
  | popStatus hrest => exact .proceed hrest hv

/-- **The plan for failures of the type that is accepted.** -/
theorem planHalt {h : Halt Failure} (hS : S.Allows) (hrun : run.Accepts S Γ root σ)
    (hh : h.Fits S Γ σ.error) (pending : Option FiberId) :
    (run.planHalt pending h).Typed S Γ root := by
  obtain ⟨stack, environments, statuses⟩ := run
  unfold RunState.Accepts at hrun
  cases hrun with
  | bottom _ => exact .finish hh
  | chain _ hrest => exact .proceed (σ := ⟨_, _, _⟩) hrest hh
  | fold hhalt _ hsame hrest =>
    simp only [RunState.planHalt]
    split
    · next source _ => exact .proceed (σ := ⟨_, _, _⟩) hrest (hh.pastFold hS hsame source)
    · exact .build hrest (hhalt Γ le_rfl h hh)
  | mapError hf hrest => exact .translate (σ := ⟨_, _, _⟩) hrest (Halt.safe_translate hh hf)
  | popEnvironment _ hrest => exact .proceed (σ := ⟨_, _, _⟩) hrest hh
  | popStatus hrest => exact .proceed hrest hh

/-- **The plan for an instruction of the type that is accepted**, unless it is one that may be
carried out once only. -/
theorem planEval {i : Instruction} (hrun : run.Accepts S Γ root σ) (hi : i.Typed S Γ σ)
    (fiber : FiberId) :
    (run.planEval fiber i).Typed S Γ root ∨
      ∃ mark e, i = @Effect.once σ.error mark e ∧ Instruction.Typed S Γ σ e := by
  cases hi with
  | once mark he => exact Or.inr ⟨mark, _, rfl, he⟩
  | done ho => exact Or.inl (.proceed hrun (Step.typed_ofOutcome ho))
  | sync haction => exact Or.inl (.compute hrun (haction Γ le_rfl))
  | wait hregistration => exact Or.inl (.wait hrun hregistration)
  | chain hfirst hnext => exact Or.inl (.proceed (σ := ⟨_, _, _⟩) (Fibers.Accepts.chain hnext hrun) hfirst)
  | fold hfirst hhalt hdone hsame =>
    exact Or.inl (.proceed (σ := ⟨_, _, _⟩) (Fibers.Accepts.fold hhalt hdone hsame hrun) hfirst)
  | loop hstate hbody =>
    exact Or.inl (.build (Fibers.Accepts.chain (Instruction.safe_nextRound hbody) hrun)
      (hbody Γ le_rfl _ hstate))
  | mapError hfirst hf =>
    exact Or.inl (.proceed (σ := ⟨_, _, _⟩) (Fibers.Accepts.mapError hf hrun) hfirst)
  | fork daemon hchild => exact Or.inl (.fork daemon hrun hchild)
  | suspend hnext => exact Or.inl (.build hrun (hnext Γ le_rfl))
  | access hnext => exact Or.inl (.build hrun (hnext Γ le_rfl _ (Fibers.Accepts.environment hrun)))
  | provide hv hbody =>
    exact Or.inl (.proceed (σ := ⟨_, _, _⟩) (Fibers.Accepts.popEnvironment hv hrun) hbody)
  | setInterruptible allowed hbody =>
    exact Or.inl (.proceed (Fibers.Accepts.popStatus hrun) hbody)
  | interruptStatus hnext => exact Or.inl (.build hrun (hnext Γ le_rfl _))
  | descriptor hnext => exact Or.inl (.build hrun (hnext Γ le_rfl _))
  | signal Γ ρ ε target => exact Or.inl (.signal target hrun)
  | yield Γ ρ ε => exact Or.inl (.makeWay hrun)
  | update hcell hf => exact Or.inl (.update (σ := ⟨_, _, _⟩) hrun ⟨_, hcell, hf⟩)
  | reserve hv hrelease => exact Or.inl (.reserve hrun hv hrelease)
  | release hrelease hx => exact Or.inl (.release hrun hrelease hx)
  | releaseLease hlease hx => exact Or.inl (.releaseLease hrun hlease hx)

end RunState.Accepts

/-! ### Carrying out a plan -/

/-- What a fiber goes on with at once, if it does, is typed. -/
def Progress.Typed (S : Declarations) (Γ : Context) (fiber : FiberId) (p : Progress) : Prop :=
  ∀ next, p = some next → Runs S Γ fiber next.1 next.2

section Steps

variable {σ : Signature}

theorem Step.typed_ofBuilt {built : Except Defect Instruction}
    (h : Action.Yields S (Instruction.Typed S) Γ σ built) : (Step.ofBuilt built).Typed S Γ σ := by
  cases built with
  | ok i => exact h
  | error d => exact Step.typed_die h

theorem Step.typed_ofTranslated {translated : Except Defect (Halt Failure)}
    (h : Action.Yields S (Halt.Fits S) Γ σ.error translated) :
    (Step.ofTranslated translated).Typed S Γ σ := by
  cases translated with
  | ok halt => exact h
  | error d => exact Step.typed_die h

theorem Step.typed_ofComputed {computed : Except Defect Outcome}
    (h : Action.Yields S (Outcome.Fits S) Γ σ.ending computed) :
    (Step.ofComputed computed).Typed S Γ σ := by
  cases computed with
  | ok outcome => exact Step.typed_ofOutcome h
  | error d => exact Step.typed_die h

theorem Step.typed_ofAttempt {cell : CellId} {f : Value → Action (Update Value)}
    {attempt : Attempt} (h : attempt.Fits S Γ σ.value) (hagain : (Step.attempt cell f).Typed S Γ σ) :
    (Step.ofAttempt cell f attempt).Typed S Γ σ := by
  cases attempt with
  | finished v => exact h
  | panicked d => exact Step.typed_die h
  | overtaken => exact hagain

end Steps

namespace World.Typed

variable {fiber : FiberId} {run : RunState} {root : Ending} {σ : Signature}

/-- A fiber that goes on with a step of the type that the rest of it accepts. -/
theorem progress_some {Γ' : Context} {step : Step} (hroot : Γ.fibers fiber.raw = some root)
    (hrun : run.Accepts S Γ root σ) (hle : Γ ≤ Γ') (hstep : step.Typed S Γ' σ) :
    Progress.Typed S Γ' fiber (some (run, step)) := by
  intro next hnext
  obtain rfl := Option.some.inj hnext
  exact ⟨root, σ, hle.fibers _ _ hroot, hrun.mono hle, hstep⟩

/-- A fiber that stands still goes on with nothing. -/
theorem progress_none : Progress.Typed S Γ fiber none := by
  intro next hnext
  cases hnext

/-- A release is made known. -/
theorem addRelease {v : Value} {release : Release} {ρ : Ty} {ε : ErrorType} (h : w.Typed S Γ)
    (hv : v.HasTy S Γ τ) (hrelease : release.Typed S Γ (ρ, ε)) :
    ∃ Γ', Γ ≤ Γ' ∧ (w.addRelease run v release).2.Typed S Γ' ∧
      (Value.reservation v ⟨w.releases.next⟩).HasTy S Γ' (.reservation ρ ε τ) := by
  have hfresh := h.releases.next_eq_none
  have hle : Γ ≤ { Γ with
      releases := Function.update Γ.releases w.releases.next (some (ρ, ε)) } :=
    ⟨.refl _, .refl _, .refl _, .refl _, Context.extends_update hfresh _, .refl _⟩
  have hlater := h.mono hle
  refine ⟨_, hle, ?_, .reservation (hv.mono hle) (Function.update_self ..)⟩
  exact ⟨{ hlater.store with leases := hlater.store.leases }, hlater.places, hlater.tasks,
    hlater.releases.declare (hrelease.mono hle), hlater.owner⟩

/-- A fiber comes to be, and it is known how it ends. -/
theorem born {record : FiberRecord} {e : Ending} {ρ : Ty} {environment : Value}
    {effect : Instruction} (allowed : Bool) (h : w.Typed S Γ)
    (hrecord : record.Typed S Γ e) (hplace : record.suspension = none)
    (henvironment : environment.HasTy S Γ ρ) (heffect : effect.Typed S Γ ⟨ρ, e.error, e.value⟩) :
    ∃ Γ', Γ ≤ Γ' ∧ Γ'.fibers w.store.nextFiber.raw = some e ∧
      (({ w with store := { w.store with fibers := w.store.fibers.push record } } : World).schedule
        w.store.nextFiber (.start environment allowed) (.eval effect)).Typed S Γ' := by
  have hfresh := h.store.fibers.next_eq_none
  have hle : Γ ≤ { Γ with fibers := Function.update Γ.fibers w.store.fibers.next (some e) } :=
    ⟨Context.extends_update hfresh e, .refl _, .refl _, .refl _, .refl _, .refl _⟩
  have hlater := h.mono hle
  have hself : Function.update Γ.fibers w.store.fibers.next (some e) w.store.nextFiber.raw =
      some e := Function.update_self ..
  refine ⟨_, hle, hself, World.Typed.schedule ?_ ⟨e, _, hself,
    RunState.accepts_start (henvironment.mono hle) allowed, heffect.mono hle⟩⟩
  exact {
    store := { hlater.store with fibers := hlater.store.fibers.declare (hrecord.mono hle) }
    places := hlater.places
    tasks := hlater.tasks
    releases := hlater.releases
    owner := fun {id r s} hr hs => by
      rw [Store.fiber?, Numbered.get?_push] at hr
      split at hr
      · obtain rfl := Option.some.inj hr
        rw [hplace] at hs
        cases hs
      · exact h.owner hr hs }

theorem addChild (h : w.Typed S Γ) (parent child : FiberId) :
    (w.addChild parent child).Typed S Γ :=
  h.modifyFiber (fun _ _ _ hr => ⟨hr.exit, hr.observers⟩) fun _ => Or.inl rfl

theorem fork {child : Instruction} {ρ : Ty} {ε ε' : ErrorType} {parent : FiberId}
    (daemon : Bool) (h : w.Typed S Γ) (hrun : run.Accepts S Γ root ⟨ρ, ε, .fiber ε' τ⟩)
    (hchild : child.Typed S Γ ⟨ρ, ε', τ⟩) :
    ∃ Γ', Γ ≤ Γ' ∧ (w.fork parent run child daemon).2.Typed S Γ' ∧
      (Value.fiber (w.fork parent run child daemon).1).HasTy S Γ' (.fiber ε' τ) := by
  have hnew : ({} : FiberRecord).Typed S Γ ⟨ε', τ⟩ := ⟨nofun, nofun⟩
  obtain ⟨Γ', hle, hself, hborn⟩ := h.born run.interruptible hnew rfl
    (Fibers.Accepts.environment hrun) hchild
  refine ⟨Γ', hle, ?_, .fiber hself⟩
  unfold World.fork
  simp only
  split
  · exact hborn
  · exact hborn.addChild parent w.store.nextFiber

/-- A lease is released at most once, by the release that it holds. -/
theorem releaseLease {lease : LeaseId} {x : Exit Value Value} {ρ : Ty} {ε : ErrorType}
    (h : w.Typed S Γ) (hroot : Γ.fibers fiber.raw = some root)
    (hrun : run.Accepts S Γ root ⟨ρ, ε, .unit⟩) (hlease : Γ.leases lease.index = some (ρ, ε))
    (hx : x.Fits S Γ ε .unit) :
    ∃ Γ', Γ ≤ Γ' ∧ (w.evaluate fiber run (.releaseLease lease x)).2.Typed S Γ' ∧
      Progress.Typed S Γ' fiber (w.evaluate fiber run (.releaseLease lease x)).1 := by
  obtain ⟨l, hl, hrelease⟩ := h.store.leases.there hlease
  have hfound : w.store.lease? lease = some l := hl
  simp only [World.evaluate, hfound]
  split
  · exact ⟨Γ, le_rfl, h, progress_some (σ := ⟨_, _, _⟩) hroot hrun le_rfl .unit⟩
  · have hstore : ({ w.store with
        leases := w.store.leases.modify lease.index fun l => { l with released := true } } :
          Store).Keeps S Γ Γ :=
      { h.store with leases := h.store.leases.modify fun _ _ _ _ hr => hr }
    have hreleased := h.withStore hstore rfl
    obtain ⟨Γ', hle, hworld, hbuilt⟩ := hreleased.buildRelease l.release hrelease hx
    exact ⟨Γ', hle, hworld, progress_some hroot hrun hle (Step.typed_ofBuilt hbuilt)⟩

/-- **A typed plan leaves a typed world, and the fiber goes on as it should.** -/
theorem carryOut {plan : Plan} (hS : S.Allows) (h : w.Typed S Γ)
    (hroot : Γ.fibers fiber.raw = some root) (hplan : plan.Typed S Γ root) :
    ∃ Γ', Γ ≤ Γ' ∧ (w.carryOut fiber plan).2.Typed S Γ' ∧
      Progress.Typed S Γ' fiber (w.carryOut fiber plan).1 := by
  cases hplan with
  | proceed hrun hstep => exact ⟨Γ, le_rfl, h, progress_some hroot hrun le_rfl hstep⟩
  | finish ho =>
    obtain ⟨Γ', hle, hworld⟩ := h.complete hS hroot ho
    exact ⟨Γ', hle, hworld, progress_none⟩
  | build hrun hcode =>
    obtain ⟨Γ', hle, hworld, hyields⟩ := World.Typed.run hcode h
    exact ⟨Γ', hle, hworld, progress_some hroot hrun hle (Step.typed_ofBuilt hyields)⟩
  | translate hrun hcode =>
    obtain ⟨Γ', hle, hworld, hyields⟩ := World.Typed.run hcode h
    exact ⟨Γ', hle, hworld, progress_some hroot hrun hle (Step.typed_ofTranslated hyields)⟩
  | compute hrun hcode =>
    obtain ⟨Γ', hle, hworld, hyields⟩ := World.Typed.run hcode h
    exact ⟨Γ', hle, hworld, progress_some hroot hrun hle (Step.typed_ofComputed hyields)⟩
  | update hrun hstep =>
    obtain ⟨τ, hcell, hf⟩ := id hstep
    obtain ⟨Γ', hle, hworld, hattempt⟩ := h.attemptUpdate hcell hf
    exact ⟨Γ', hle, hworld,
      progress_some hroot hrun hle (Step.typed_ofAttempt hattempt (hstep.mono hle))⟩
  | release hrun hrelease hx =>
    obtain ⟨Γ', hle, hworld, hbuilt⟩ := h.buildRelease _ hrelease hx
    exact ⟨Γ', hle, hworld, progress_some hroot hrun hle (Step.typed_ofBuilt hbuilt)⟩
  | releaseLease hrun hlease hx => exact h.releaseLease hroot hrun hlease hx
  | reserve hrun hv hrelease =>
    obtain ⟨Γ', hle, hworld, hpair⟩ := h.addRelease hv hrelease
    exact ⟨Γ', hle, hworld, progress_some (σ := ⟨_, _, _⟩) hroot hrun hle hpair⟩
  | fork daemon hrun hchild =>
    obtain ⟨Γ', hle, hworld, hhandle⟩ := h.fork daemon hrun hchild
    exact ⟨Γ', hle, hworld, progress_some (σ := ⟨_, _, _⟩) hroot hrun hle hhandle⟩
  | signal target hrun =>
    obtain ⟨Γ', hle, hworld⟩ := h.interrupt target fiber
    exact ⟨Γ', hle, hworld, progress_some (σ := ⟨_, _, _⟩) hroot hrun hle .unit⟩
  | @wait run registration σ hrun hregistration =>
    obtain ⟨Γ', hle, hworld, hstep⟩ := h.park hS hroot hrun hregistration
    refine ⟨Γ', hle, ?_⟩
    simp only [World.carryOut]
    split
    · next step w' heq =>
      rw [heq] at hworld hstep
      exact ⟨hworld, progress_some hroot hrun hle (hstep step rfl)⟩
    · next w' heq =>
      rw [heq] at hworld
      exact ⟨hworld, progress_none⟩
  | makeWay hrun => exact ⟨Γ, le_rfl, h.schedule ⟨root, _, hroot, hrun, .unit⟩, progress_none⟩

end World.Typed

/-! ### Iterations -/

/-- An interruption that takes the place of a step is a failure of every type. -/
theorem Step.Typed.divert {σ : Signature} {step : Step} (hstep : step.Typed S Γ σ) (w : World)
    (fiber : FiberId) (run : RunState) : (w.divert fiber run step).Typed S Γ σ := by
  rw [World.divert_eq]
  split
  · exact Step.typed_interrupt _
  · exact hstep

/-- The defect of what is carried out again though it may be carried out once. -/
def Defect.oneShot : Defect := .runtime "one-shot effect evaluated more than once"

/-- A step that carries out what may be carried out once does so for the first time. -/
def Step.IsFirst (w : World) (step : Step) : Prop :=
  ∀ (ε : ErrorType) (mark : Nat) (e : Effect ε), step = .eval (Effect.once mark e) →
    w.store.spent.get? mark = some false

/-- What may be carried out once goes on with what it is, the first time; any other time it is a
defect. -/
theorem World.carryOut_once (w : World) (fiber : FiberId) (run : RunState) {ε : ErrorType}
    (mark : Nat) (e : Effect ε) :
    w.carryOut fiber (run.planEval fiber (Effect.once mark e)) =
      (some (run, .eval (if w.store.spent.get? mark == some false then e
        else (Effect.die .oneShot : Effect ε))), (w.perform (.useMark mark)).2) := by
  have hrun : (do
      let isFirst ← Action.useMark mark
      if isFirst then pure e else pure (Effect.die .oneShot : Effect ε) : Action (Effect ε)).run w =
        (.ok (if w.store.spent.get? mark == some false then e else Effect.die .oneShot),
          (w.perform (.useMark mark)).2) := by
    rw [Action.run_bind]
    change (if w.store.spent.get? mark == some false then pure e
      else pure (Effect.die .oneShot : Effect ε) : Action (Effect ε)).run _ = _
    split
    · rfl
    · rfl
  exact congrArg (fun result => (some (run, Step.ofBuilt result.1), result.2)) hrun

namespace World.Typed

variable {fiber : FiberId} {run : RunState} {root : Ending} {σ : Signature}

/-- **An iteration of a typed fiber leaves a typed world, and the fiber goes on as it should**,
unless it carries out again what may be carried out once, where that is not allowed. -/
theorem iterate {step : Step} (hS : S.Allows) (h : w.Typed S Γ)
    (hroot : Γ.fibers fiber.raw = some root) (hrun : run.Accepts S Γ root σ)
    (hstep : step.Typed S Γ σ)
    (honce : S.defect .oneShot ∨ (w.divert fiber run step).IsFirst w) :
    ∃ Γ', Γ ≤ Γ' ∧ (w.iterate fiber run step).2.Typed S Γ' ∧
      Progress.Typed S Γ' fiber (w.iterate fiber run step).1 := by
  have hdiverted := hstep.divert w fiber run
  rw [World.iterate_eq_carryOut]
  generalize w.divert fiber run step = step' at hdiverted honce
  cases step' with
  | value v => exact h.carryOut hS hroot (hrun.planValue hdiverted)
  | halt halt => exact h.carryOut hS hroot (hrun.planHalt hS hdiverted _)
  | attempt cell f => exact h.carryOut hS hroot (.update hrun hdiverted)
  | eval i =>
    rcases hrun.planEval hdiverted fiber with hplan | ⟨mark, e, rfl, he⟩
    · exact h.carryOut hS hroot hplan
    · simp only [Step.plan, World.carryOut_once]
      obtain ⟨Γ', hle, hworld, -⟩ := h.perform (.useMark mark)
      refine ⟨Γ', hle, hworld, progress_some hroot hrun hle ?_⟩
      cases hspent : w.store.spent.get? mark == some false with
      | true => exact he.mono hle
      | false =>
        rcases honce with hallowed | hfirst
        · exact Effect.Typed.die hallowed
        · rw [hfirst _ mark e rfl] at hspent
          cases hspent

end World.Typed

end Fibers
