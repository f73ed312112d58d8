import Fibers.Proofs.SecretWorld
import Fibers.Proofs.Supervision

/-!
# Iterations that keep a fiber secret

An iteration of a fiber in a world that keeps a fiber secret leaves such a world, and the fiber goes
on with something that keeps to its clearance.  Two things are to be seen to: the secret fiber itself
is started by a fiber that may wait for it, and a fiber is not handed an outcome on its floor, for
there it would leave what it keeps to itself.

## Main definitions

* `Plan.Guards` — a plan that keeps to a clearance.

## Main results

* `World.Guards.complete`, `World.Guards.park` — the end of a fiber, and a wait.
* `RunState.Takes.planValue`, `RunState.Takes.planHalt`, `RunState.Takes.planEval` — what is planned
  for something that keeps to a clearance.
* `World.Guards.iterate` — **an iteration in a world that keeps a fiber secret.**
-/

namespace Fibers

variable {c : FiberId} {t : Bool} {w : World} {watch : FiberId → Watch}

namespace World.Guards

/-! ### The exit of a fiber -/

/-- An exit that is taken does not tell of the fiber. -/
theorem takeExit (h : w.Guards c watch) (fiber : FiberId) :
    (w.takeExit fiber).2.Guards c watch ∧ Outcome.Omits c (w.takeExit fiber).1 := by
  unfold World.takeExit
  split
  · next outcome hout =>
    obtain ⟨r, hr, hexit⟩ := Option.bind_eq_some_iff.mp hout
    exact ⟨h.modifyFiber (fun _ _ _ => nofun) fun _ => Or.inl rfl, h.store.exits hr hexit⟩
  · refine ⟨h, ?_⟩
    split <;> exact Outcome.omits_die c _

theorem restoreExit {o : Outcome} (h : w.Guards c watch) (fiber : FiberId)
    (ho : Outcome.Omits c o) : (w.restoreExit fiber o).Guards c watch := by
  refine h.modifyFiber (fun r o' hr ho' => ?_) fun _ => Or.inl rfl
  rcases Option.or_eq_some_iff.mp ho' with hold | ⟨-, hnew⟩
  · exact h.store.exits hr hold
  · exact Option.some.inj hnew ▸ ho

/-! ### Observers -/

theorem omits_failureVerdict {children : List FiberId} {fiber : FiberId} {position : Nat} {v : Value}
    (hv : w.failureVerdict children fiber position = some v) : v.Omits c := by
  unfold World.failureVerdict at hv
  split at hv
  · obtain rfl := Option.some.inj hv
    exact .some (.int _)
  · split at hv
    · obtain rfl := Option.some.inj hv
      exact .none
    · cases hv

/-- Whoever asked for the end of a fiber is told nothing of the secret one. -/
theorem notify (h : w.Guards c watch) (fiber : FiberId) (observer : Observer) :
    (w.notify fiber observer).Guards c watch := by
  obtain ⟨htaken, hexit⟩ := h.takeExit fiber
  cases observer with
  | report type =>
    refine htaken.withStore { htaken.store with reports := ?_ } rfl
    exact List.forall_mem_append.mpr
      ⟨htaken.store.reports, List.forall_mem_singleton.mpr hexit.untag⟩
  | exitTo waiter type =>
    have huntagged : (Exit.untag type _).Omits c := hexit.untag
    have htold := htaken.tell waiter (.of_exit huntagged)
    unfold World.notify
    simp only
    split
    · next w' heq =>
      rw [heq] at htold
      exact htold
    · next w' heq =>
      rw [heq] at htold
      exact htold.restoreExit fiber huntagged.tag
  | firstDone waiter left => exact h.tell waiter (.bool left)
  | firstFailure waiter children position =>
    unfold World.notify
    simp only
    split
    · next verdict hv => exact h.tell waiter (omits_failureVerdict hv)
    · exact h

theorem notifyAll (h : w.Guards c watch) (fiber : FiberId) (observers : List Observer) :
    (observers.foldl (fun w observer => w.notify fiber observer) w).Guards c watch := by
  induction observers generalizing w with
  | nil => exact h
  | cons o observers ih => exact ih (h.notify fiber o)

theorem observe (h : w.Guards c watch) (fiber : FiberId) (observer : Observer) :
    (w.observe fiber observer).Guards c watch := by
  unfold World.observe
  split
  · exact h.notify fiber observer
  · exact h.modifyFiber_of_exit (fun _ => rfl) fun _ => rfl

/-! ### The end of a fiber -/

/-- **The end of a fiber leaves a world that keeps the secret.** -/
theorem complete {o : Outcome} (h : w.Guards c watch) (fiber : FiberId) (ho : Outcome.Omits c o) :
    (w.complete fiber o).Guards c watch := by
  unfold World.complete
  split
  · exact h
  · next record hrecord =>
    have hchildless : (w.modifyFiber fiber fun f => { f with children := [] }).Guards c watch :=
      h.modifyFiber_of_exit (fun _ => rfl) fun _ => rfl
    have hquiet := hchildless.interruptUnfinished record.children fiber
    refine notifyAll (hquiet.modifyFiber (fun _ o' _ ho' => ?_) fun _ => Or.inr rfl) fiber _
    exact Option.some.inj ho' ▸ ho

/-! ### Registration -/

theorem registerOffer {v : Value} (h : w.Guards c watch) (id : ChannelId) (s : SuspensionId)
    (hv : v.Omits c) : (w.registerOffer id v s).2.Guards c watch ∧
      (w.registerOffer id v s).1.Guards c := by
  unfold World.registerOffer
  split
  · exact ⟨h, trivial⟩
  · next ch hch =>
    have hoffered := (h.store.channels hch).offer? w.isLive hv
    split
    · exact ⟨h.refuse s _, trivial⟩
    · next taker ch' heq =>
      rw [heq] at hoffered
      exact ⟨((h.setChannel hoffered).tell taker hv).tell s .unit, trivial⟩
    · next ch' heq =>
      rw [heq] at hoffered
      exact ⟨(h.setChannel hoffered).tell s .unit, trivial⟩
    · next ch' heq =>
      rw [heq] at hoffered
      exact ⟨h.setChannel (hoffered.enqueueOfferer hv), trivial⟩

theorem registerTake (h : w.Guards c watch) (id : ChannelId) (s : SuspensionId) :
    (w.registerTake id s).2.Guards c watch ∧ (w.registerTake id s).1.Guards c := by
  unfold World.registerTake
  split
  · exact ⟨h, trivial⟩
  · next ch hch =>
    split
    · exact ⟨h.refuse s _, trivial⟩
    · obtain ⟨htaken, helement⟩ := h.takeElement id (h.store.channels hch)
      split
      · next v w' heq =>
        rw [heq] at htaken helement
        exact ⟨htaken.tell s (helement v rfl), trivial⟩
      · next w' heq =>
        rw [heq] at htaken
        have homits := h.store.channels hch
        exact ⟨htaken.setChannel ⟨homits.buffer, homits.offerers⟩, trivial⟩

theorem registerClose (h : w.Guards c watch) (id : ChannelId) (s : SuspensionId) :
    (w.registerClose id s).2.Guards c watch ∧ (w.registerClose id s).1.Guards c := by
  unfold World.registerClose
  split
  · exact ⟨h, trivial⟩
  · next ch hch =>
    split
    · exact ⟨h.tell s .unit, trivial⟩
    · have homits := h.store.channels hch
      exact ⟨h.setChannel ⟨homits.buffer, homits.offerers⟩, trivial⟩

theorem observeChildren (h : w.Guards c watch) (s : SuspensionId) (children : List FiberId) :
    (w.observeChildren s children).Guards c watch := by
  unfold World.observeChildren
  generalize children.zipIdx = positions
  induction positions generalizing w with
  | nil => exact h
  | cons p positions ih => exact ih (h.observe p.1 _)

/-- **Asking for the end of a wait leaves a world that keeps the secret.** -/
theorem register {waits : Bool} {registration : Registration} (h : w.Guards c watch)
    (s : SuspensionId) (hr : registration.Guards c waits) :
    (w.register s registration).2.Guards c watch ∧
      ∀ canceler, (w.register s registration).1 = .ok canceler → canceler.Guards c := by
  have hnothing : ∀ canceler, (.ok .nothing : Except Defect Canceler) = .ok canceler →
      canceler.Guards c := fun canceler heq => Except.ok.inj heq ▸ trivial
  cases hr with
  | callback hregister =>
    obtain ⟨hran, hcancel⟩ := run (hregister s) h
    simp only [World.register]
    split
    · next cancel w' heq =>
      rw [heq] at hran hcancel
      refine ⟨hran, fun canceler hok => ?_⟩
      obtain rfl := Except.ok.inj hok
      exact hcancel cancel rfl
    · next d w' heq =>
      rw [heq] at hran
      refine ⟨hran, fun canceler hok => ?_⟩
      cases hok
  | sleep millis =>
    exact ⟨h.withStore { h.store with } rfl, fun canceler heq => Except.ok.inj heq ▸ trivial⟩
  | awaitExit type _ => exact ⟨h.observe _ _, hnothing⟩
  | firstDone _ _ => exact ⟨(h.observe _ _).observe _ _, hnothing⟩
  | firstFailure _ => exact ⟨h.observeChildren s _, hnothing⟩
  | offer id hv =>
    obtain ⟨hworld, hcanceler⟩ := h.registerOffer id s hv
    exact ⟨hworld, fun canceler heq => Except.ok.inj heq ▸ hcanceler⟩
  | take id =>
    obtain ⟨hworld, hcanceler⟩ := h.registerTake id s
    exact ⟨hworld, fun canceler heq => Except.ok.inj heq ▸ hcanceler⟩
  | awaitClose id =>
    obtain ⟨hworld, hcanceler⟩ := h.registerClose id s
    exact ⟨hworld, fun canceler heq => Except.ok.inj heq ▸ hcanceler⟩

/-! ### Parking -/

/-- A place is made for a fiber to wait at. -/
theorem newSuspension (fiber : FiberId) (allowed : Bool) (registration : Registration)
    (h : w.Guards c watch) :
    (w.newSuspension fiber allowed registration).2.Guards c watch ∧
      ∃ p, (w.newSuspension fiber allowed registration).2.suspension?
        (w.newSuspension fiber allowed registration).1 = some p ∧ p.fiber = fiber := by
  have hmade : (w.suspensions.push { fiber, interruptible := allowed, registration }).get?
      w.suspensions.next = some { fiber, interruptible := allowed, registration } :=
    Numbered.get?_push_next _ _
  refine ⟨?_, _, hmade, rfl⟩
  exact {
    store := h.store.modifyFiber fun _ _ hr ho => h.store.exits hr ho
    places := Numbered.forall_push (P := fun p : Suspension => p.Guards c (watch p.fiber)) h.places
      trivial
    tasks := h.tasks
    releases := h.releases
    owner := fun {id r t} hr ht => by
      simp only [World.newSuspension, World.modifyFiber, Store.fiber?_modifyFiber] at hr
      split at hr
      · next heq =>
        subst heq
        obtain ⟨r', -, rfl⟩ := Option.map_eq_some_iff.mp hr
        obtain rfl := Option.some.inj ht
        exact ⟨_, hmade, rfl⟩
      · obtain ⟨p, hp, hfiber⟩ := h.owner hr ht
        refine ⟨p, ?_, hfiber⟩
        rw [World.suspension?, World.newSuspension, World.modifyFiber, Numbered.get?_push,
          if_neg]
        · exact hp
        · rintro heq
          rw [World.suspension?, heq, Numbered.get?_next] at hp
          cases hp }

/-- A fiber is parked, or interrupted as soon as it is. -/
theorem parkAt {fiber : FiberId} {s : SuspensionId} {run : RunState} {onInterrupt : Canceler}
    (h : w.Guards c watch) (hplace : ∃ p, w.suspension? s = some p ∧ p.fiber = fiber)
    (hrun : (watch fiber).Parks c run) (hcancel : onInterrupt.Guards c) :
    (w.parkAt fiber s run onInterrupt).Guards c watch := by
  obtain ⟨p, hp, rfl⟩ := hplace
  have hparked : (w.setSuspension s (.waiting run onInterrupt)).Guards c watch := by
    refine h.setSuspension fun p' hp' => ?_
    obtain rfl := Option.some.inj (hp.symm.trans hp')
    exact ⟨hcancel, hrun⟩
  unfold World.parkAt
  simp only
  split
  · refine hparked.interruptAt (fun p' hp' => ?_) _
    rw [World.suspension?_setSuspension, if_pos rfl, hp] at hp'
    exact Option.some.inj hp' ▸ rfl
  · exact hparked

/-- **A wait leaves a world that keeps the secret, and a fiber goes on as its wait has ended.** -/
theorem park {fiber : FiberId} {run : RunState} {registration : Registration} {waits : Bool}
    (h : w.Guards c watch) (hrun : (watch fiber).Parks c run)
    (hr : registration.Guards c waits) :
    (w.park fiber run registration).2.Guards c watch ∧
      ∀ step, (w.park fiber run registration).1 = some step →
        (watch fiber).Runs c run step := by
  obtain ⟨hmade, p, hp, hfiber⟩ := h.newSuspension fiber run.interruptible registration
  unfold World.park
  simp only
  generalize w.newSuspension fiber run.interruptible registration = made at *
  obtain ⟨s, w₁⟩ := made
  obtain ⟨hregistered, hcancel⟩ := hmade.register s hr
  obtain ⟨events, hinfluence⟩ := w₁.influences_register s registration
  obtain ⟨p', hp', hkeeps⟩ := hinfluence.place hp
  generalize w₁.register s registration = registered at *
  obtain ⟨result, w₂⟩ := registered
  have hdies : ∀ d : Defect, ∀ step, some (Step.die d) = some step →
      (watch fiber).Runs c run step := fun d step hstep =>
    Option.some.inj hstep ▸ hrun.told (Outcome.omits_die c d)
  cases result with
  | error d => exact ⟨hregistered.setOver s, hdies d⟩
  | ok onInterrupt =>
    split
    · next heq _ =>
      obtain rfl := Except.ok.inj heq
      exact ⟨hregistered.parkAt ⟨p', hp', hkeeps.fiber.trans hfiber⟩ hrun (hcancel _ rfl), nofun⟩
    · next hstate =>
      obtain ⟨q, hq, hearly⟩ := Option.map_eq_some_iff.mp hstate
      have hplace := hregistered.places hq
      rw [Suspension.Guards, hearly] at hplace
      exact ⟨hregistered.setOver s, fun step hstep => Option.some.inj hstep ▸ hrun.told hplace⟩
    · exact ⟨hregistered.setOver s, hdies _⟩
    · next heq => cases heq

end World.Guards

/-! ### The translation of failures -/

section Translation

variable {f : Value → Action (Cause Value)}

/-- Code that translates failures that do not tell of the fiber translates causes. -/
theorem Cause.guards_flatMapM {cause : Cause Value}
    (hcause : cause.Holds (Value.Omits c) fun _ => True)
    (hf : ∀ v, v.Omits c → (f v).Guards c
      (fun (_ : Unit) (cause : Cause Value) => cause.Holds (Value.Omits c) fun _ => True) ()) :
    (cause.flatMapM f).Guards c
      (fun (_ : Unit) (cause : Cause Value) => cause.Holds (Value.Omits c) fun _ => True) () := by
  induction cause with
  | empty => exact .done nofun
  | fail v => exact hf v (hcause (.fail v) List.mem_cons_self)
  | die d => exact .done (Cause.holds_die trivial)
  | interrupt source => exact .done (Cause.holds_interrupt source)
  | seq left right ihl ihr =>
    obtain ⟨hl, hr⟩ := List.forall_mem_append.mp hcause
    exact (ihl hl).bind fun l hl' => (ihr hr).bind fun r hr' => .done (hl'.andThen hr')
  | par left right ihl ihr =>
    obtain ⟨hl, hr⟩ := List.forall_mem_append.mp hcause
    exact (ihl hl).bind fun l hl' => (ihr hr).bind fun r hr' => .done (hl'.alongside hr')

/-- The same for all causes of a list. -/
theorem Cause.guards_mapM_flatMapM {cs : List (Cause Value)}
    (hcs : ∀ cause ∈ cs, cause.Holds (Value.Omits c) fun _ => True)
    (hf : ∀ v, v.Omits c → (f v).Guards c
      (fun (_ : Unit) (cause : Cause Value) => cause.Holds (Value.Omits c) fun _ => True) ()) :
    (List.mapM (Cause.flatMapM f) cs).Guards c (fun (_ : Unit) (cs : List (Cause Value)) =>
      ∀ cause ∈ cs, cause.Holds (Value.Omits c) fun _ => True) () := by
  induction cs with
  | nil => exact .done nofun
  | cons cause cs ih =>
    obtain ⟨hcause, hrest⟩ := List.forall_mem_cons.mp hcs
    rw [List.mapM_cons]
    exact (Cause.guards_flatMapM hcause hf).bind fun d hd => (ih hrest).bind fun ds hds =>
      .done (List.forall_mem_cons.mpr ⟨hd, hds⟩)

/-- **Failures that are translated do not tell of the fiber.** -/
theorem Halt.guards_translate {h : Halt Failure} {source target : ErrorType}
    {f : Value → Action Value} (hh : h.Omits c) (hf : ∀ v, v.Omits c → (f v).Omits c) :
    (h.translate source target f).Guards c (fun (_ : Unit) h => Halt.Omits c h) () := by
  have huntagged := Halt.holds_iff.mp (Halt.Omits.untag (ε := source) hh)
  have hfails : ∀ v, v.Omits c → (do let b ← f v; pure (Cause.fail b) :
      Action (Cause Value)).Guards c
        (fun (_ : Unit) (cause : Cause Value) => cause.Holds (Value.Omits c) fun _ => True) () :=
    fun v hv => (hf v hv).bind fun _ hb => .done (Cause.holds_fail hb)
  have hmapped : ((h.untag source).flatMapM fun v => do
      let b ← f v
      pure (Cause.fail b)).Guards c (fun (_ : Unit) h => Halt.Spares c h) () :=
    (Cause.guards_flatMapM (huntagged _ List.mem_cons_self) hfails).bind fun d hd =>
      (Cause.guards_mapM_flatMapM (fun d hd => huntagged d (List.mem_cons_of_mem _ hd)) hfails).bind
        fun ds hds => .done (Halt.holds_iff.mpr (List.forall_mem_cons.mpr ⟨hd, hds⟩))
  exact hmapped.bind fun _ hmapped => .done (Halt.Spares.tag hmapped)

end Translation

/-- A failure that passes by a handler does not tell of the fiber. -/
theorem Halt.Omits.pastFold {h : Halt Failure} (hh : h.Omits c) (sameError : Bool)
    (source : FiberId) : (h.pastFold sameError source).Omits c := by
  have hheld : Halt.Omits c (if sameError then h
      else h.discard "typed failure discarded: its handler was skipped by interruption") := by
    split
    · exact hh
    · exact hh.discard
  unfold Halt.pastFold
  simp only
  generalize (if sameError then h else _ : Halt Failure) = held at hheld
  split
  · exact hheld
  · exact Halt.Holds.withCause hheld (hheld.cause.alongside (Cause.holds_interrupt source))

/-! ### Plans -/

/-- A plan of a fiber that keeps to its clearance. -/
inductive Plan.Guards (c : FiberId) (floor : Option (List Frame)) : Plan → Prop where
  | proceed {run : RunState} {step : Step} : Runs.Guards c floor run step →
      Guards c floor (.proceed run step)
  | finish {outcome : Outcome} : Outcome.Omits c outcome → Guards c floor (.finish outcome)
  | build {run : RunState} {code : Action Instruction} {t : Bool} : run.Takes c floor t →
      code.Guards c (Instruction.Guards c) (clearance floor t) → Guards c floor (.build run code)
  | translate {run : RunState} {code : Action (Halt Failure)} {t : Bool} : run.Takes c floor t →
      code.Guards c (fun (_ : Unit) h => Halt.Omits c h) () → Guards c floor (.translate run code)
  | compute {run : RunState} {code : Action Outcome} {t : Bool} : run.Takes c floor t →
      code.Guards c (Outcome.Cleared c) (clearance floor t) → Guards c floor (.compute run code)
  | update {run : RunState} {cell : CellId} {f : Value → Action (Update Value)} :
      run.Takes c floor false →
      (∀ v, v.Omits c → (f v).Guards c (fun (_ : Unit) u => u.Omits c) ()) →
      Guards c floor (.update run cell f)
  | release {run : RunState} (release : ReleaseId) {exit : Exit Value Value} :
      run.Takes c floor false → floor = none → exit.Omits c →
      Guards c floor (.release run release exit)
  | releaseLease {run : RunState} (lease : LeaseId) {exit : Exit Value Value} :
      run.Takes c floor false → floor = none → exit.Omits c →
      Guards c floor (.releaseLease run lease exit)
  | reserve {run : RunState} {v : Value} {release : Release} : run.Takes c floor false →
      v.Omits c → release.Guards c → Guards c floor (.reserve run v release)
  | fork {run : RunState} {child : Instruction} {t : Bool} (daemon : Bool) :
      run.Takes c floor t → child.Guards c .none → (floor.isSome = true → t = true) →
      Guards c floor (.fork run child daemon)
  | signal {run : RunState} (target : FiberId) : run.Takes c floor false →
      Guards c floor (.signal run target)
  | wait {run : RunState} {registration : Registration} : run.Takes c floor false →
      registration.Guards c floor.isSome → Guards c floor (.wait run registration)
  | makeWay {run : RunState} : run.Takes c floor false → Guards c floor (.makeWay run)

/-- A round of a loop ends with the value of the loop, or with the state of the next round. -/
theorem Instruction.guards_nextRound {waits : Bool} {body : Value → Action Instruction}
    (hbody : ∀ v, v.Omits c → Action.Guards c (Instruction.Guards c) (body v) ⟨waits, false⟩)
    (v : Value) (hcleared : v.Cleared c false) :
    Action.Guards c (Instruction.Guards c) (Instruction.nextRound body v) ⟨waits, t⟩ := by
  have homits := hcleared.omits
  cases homits with
  | ok hv => exact .done (Instruction.guards_value hv)
  | err hv => exact .done (.loop hv hbody)
  | _ => exact .done (Instruction.guards_die _)

namespace RunState.Takes

variable {floor : Option (List Frame)} {run : RunState}

/-- **The plan for a value that may be handed on**, above the floor. -/
theorem planValue {v : Value} (h : run.Takes c floor t) (hv : v.Cleared c t)
    (hfloor : floor ≠ some run.stack) : (run.planValue v).Guards c floor := by
  obtain ⟨stack, environments, statuses⟩ := run
  obtain ⟨hstack, henvironments⟩ := h
  generalize hk : clearance floor t = k at hstack
  cases hstack with
  | bottom =>
    obtain ⟨-, rfl⟩ := Clearance.mk.inj hk
    exact .finish hv.omits
  | floor heq _ => exact absurd heq hfloor
  | chain hnext hrest =>
    obtain ⟨rfl, rfl⟩ := Clearance.mk.inj hk
    exact .build ⟨hrest, henvironments⟩ (hnext v hv)
  | fold _ hdone hrest =>
    obtain ⟨rfl, rfl⟩ := Clearance.mk.inj hk
    exact .build ⟨hrest, henvironments⟩ (hdone v hv)
  | mapError _ hrest | popStatus hrest =>
    subst hk
    exact .proceed ⟨t, ⟨hrest, henvironments⟩, hv⟩
  | popEnvironment hrest =>
    subst hk
    exact .proceed ⟨t, ⟨hrest, fun v hv => henvironments v (List.mem_of_mem_tail hv)⟩, hv⟩

/-- **The plan for a failure that does not tell of the fiber**, above the floor. -/
theorem planHalt {halt : Halt Failure} (h : run.Takes c floor t) (hhalt : halt.Omits c)
    (hfloor : floor ≠ some run.stack) (pending : Option FiberId) :
    (run.planHalt pending halt).Guards c floor := by
  obtain ⟨stack, environments, statuses⟩ := run
  obtain ⟨hstack, henvironments⟩ := h
  generalize hk : clearance floor t = k at hstack
  cases hstack with
  | bottom => exact .finish hhalt
  | floor heq _ => exact absurd heq hfloor
  | chain hnext hrest =>
    obtain ⟨rfl, rfl⟩ := Clearance.mk.inj hk
    exact .proceed ⟨_, ⟨hrest, henvironments⟩, hhalt⟩
  | fold honHalt _ hrest =>
    obtain ⟨rfl, rfl⟩ := Clearance.mk.inj hk
    simp only [RunState.planHalt]
    split
    · exact .proceed ⟨_, ⟨hrest, henvironments⟩, hhalt.pastFold _ _⟩
    · exact .build ⟨hrest, henvironments⟩ (honHalt halt hhalt)
  | mapError hf hrest =>
    subst hk
    exact .translate ⟨hrest, henvironments⟩ (Halt.guards_translate hhalt hf)
  | popStatus hrest =>
    subst hk
    exact .proceed ⟨t, ⟨hrest, henvironments⟩, hhalt⟩
  | popEnvironment hrest =>
    subst hk
    exact .proceed ⟨t, ⟨hrest, fun v hv => henvironments v (List.mem_of_mem_tail hv)⟩, hhalt⟩

/-- **The plan for an instruction that keeps to the clearance.** -/
theorem planEval {i : Instruction} (h : run.Takes c floor t) (hi : i.Guards c (clearance floor t))
    (fiber : FiberId) : (run.planEval fiber i).Guards c floor := by
  have hdiscreet := h.discreet
  generalize hk : clearance floor t = k at hi
  cases hi with
  | done ho =>
    subst hk
    exact .proceed ⟨t, h, Step.guards_ofOutcome ho⟩
  | sync haction =>
    subst hk
    exact .compute h haction
  | wait hregistration =>
    subst hk
    exact .wait hdiscreet hregistration
  | chain hfirst hnext =>
    obtain ⟨rfl, rfl⟩ := Clearance.mk.inj hk
    exact .proceed ⟨_, ⟨.chain hnext h.stack, h.environments⟩, hfirst⟩
  | fold hfirst hhalt hdone =>
    obtain ⟨rfl, rfl⟩ := Clearance.mk.inj hk
    exact .proceed ⟨_, ⟨.fold hhalt hdone h.stack, h.environments⟩, hfirst⟩
  | loop hstate hbody =>
    obtain ⟨rfl, rfl⟩ := Clearance.mk.inj hk
    exact .build (t := false) ⟨.chain (Instruction.guards_nextRound hbody) h.stack, h.environments⟩
      (hbody _ hstate)
  | mapError hfirst hf =>
    subst hk
    exact .proceed ⟨t, ⟨.mapError hf h.stack, h.environments⟩, hfirst⟩
  | fork hchild htells =>
    subst hk
    exact .fork _ h hchild htells
  | suspend hnext =>
    subst hk
    exact .build h hnext
  | access hnext =>
    subst hk
    exact .build h (hnext _ h.environment)
  | provide hv hbody =>
    subst hk
    exact .proceed ⟨t, ⟨.popEnvironment h.stack, List.forall_mem_cons.mpr ⟨hv, h.environments⟩⟩,
      hbody⟩
  | setInterruptible hbody =>
    subst hk
    exact .proceed ⟨t, ⟨.popStatus h.stack, h.environments⟩, hbody⟩
  | interruptStatus hnext =>
    subst hk
    exact .build h (hnext _)
  | descriptor hnext =>
    subst hk
    exact .build h (hnext _)
  | signal _ target => exact .signal target hdiscreet
  | yield => exact .makeWay hdiscreet
  | update hf => exact .update hdiscreet hf
  | reserve hv hrelease => exact .reserve hdiscreet hv hrelease
  | release release hx =>
    obtain ⟨hnone, -⟩ := Clearance.mk.inj hk
    exact .release release hdiscreet (Option.not_isSome_iff_eq_none.mp (by rw [hnone]; simp)) hx
  | releaseLease lease hx =>
    obtain ⟨hnone, -⟩ := Clearance.mk.inj hk
    exact .releaseLease lease hdiscreet (Option.not_isSome_iff_eq_none.mp (by rw [hnone]; simp)) hx

end RunState.Takes

/-! ### Carrying out a plan -/

/-- What a fiber goes on with at once, if it does, is as it is watched for. -/
def Progress.Guards (c : FiberId) (watch : Watch) (p : Progress) : Prop :=
  ∀ next, p = some next → watch.Runs c next.1 next.2

section Steps

variable {k : Clearance}

theorem Step.guards_ofBuilt {built : Except Defect Instruction}
    (h : ∀ i, built = .ok i → i.Guards c k) : (Step.ofBuilt built).Guards c k := by
  cases built with
  | ok i => exact h i rfl
  | error d => exact Step.guards_die d

theorem Step.guards_ofTranslated {translated : Except Defect (Halt Failure)}
    (h : ∀ halt, translated = .ok halt → Halt.Omits c halt) :
    (Step.ofTranslated translated).Guards c k := by
  cases translated with
  | ok halt => exact h halt rfl
  | error d => exact Step.guards_die d

theorem Step.guards_ofComputed {computed : Except Defect Outcome}
    (h : ∀ o, computed = .ok o → Outcome.Cleared c k o) : (Step.ofComputed computed).Guards c k := by
  cases computed with
  | ok outcome => exact Step.guards_ofOutcome (h outcome rfl)
  | error d => exact Step.guards_die d

theorem Step.guards_ofAttempt {cell : CellId} {f : Value → Action (Update Value)}
    {attempt : Attempt} (h : ∀ v, attempt = .finished v → v.Omits c)
    (hagain : (Step.attempt cell f).Guards c k) : (Step.ofAttempt cell f attempt).Guards c k := by
  cases attempt with
  | finished v => exact (h v rfl).cleared
  | panicked d => exact Step.guards_die d
  | overtaken => exact hagain

end Steps

namespace World.Guards

variable {fiber : FiberId} {run : RunState}

theorem progress_of {keep : Watch} {step : Step} (h : keep.Runs c run step) :
    Progress.Guards c keep (some (run, step)) := by
  intro next hnext
  obtain rfl := Option.some.inj hnext
  exact h

theorem progress_some {floor : Option (List Frame)} {step : Step} (hrun : run.Takes c floor t)
    (hstep : step.Guards c (clearance floor t)) :
    Progress.Guards c (.keeps floor) (some (run, step)) :=
  progress_of ⟨t, hrun, hstep⟩

theorem progress_none {keep : Watch} : Progress.Guards c keep none := by
  intro next hnext
  cases hnext

/-- A fiber comes to be. -/
theorem born {record : FiberRecord} {environment : Value} {effect : Instruction}
    (h : w.Guards c watch) (allowed : Bool) (hexit : record.exit = none)
    (hplace : record.suspension = none) (hnone : watch w.store.nextFiber = .keeps none)
    (henvironment : environment.Omits c) (heffect : effect.Guards c .none) :
    (({ w with store := { w.store with fibers := w.store.fibers.push record } } : World).schedule
        w.store.nextFiber (.start environment allowed) (.eval effect)).Guards c watch := by
  refine World.Guards.schedule ?_ ?_
  · exact {
      store := {
        exits := fun hr ho => Numbered.forall_push
          (P := fun r => ∀ o, r.exit = some o → Outcome.Omits c o)
          (fun hr _ ho => h.store.exits hr ho) (fun o ho => by rw [hexit] at ho; cases ho) hr _ ho
        cells := h.store.cells
        channels := h.store.channels
        reports := h.store.reports }
      places := h.places
      tasks := h.tasks
      releases := h.releases
      owner := fun {id r s} hr hs => by
        rw [Store.fiber?, Numbered.get?_push] at hr
        split at hr
        · obtain rfl := Option.some.inj hr
          rw [hplace] at hs
          cases hs
        · exact h.owner hr hs }
  · rw [hnone]
    exact ⟨false, RunState.takes_start henvironment allowed, heffect⟩

theorem fork {child : Instruction} (h : w.Guards c watch) (parent : FiberId) (daemon : Bool)
    (henvironment : run.environment.Omits c) (hchild : child.Guards c .none)
    (hnone : watch w.store.nextFiber = .keeps none) :
    (w.fork parent run child daemon).2.Guards c watch := by
  have hborn := h.born run.interruptible (show ({} : FiberRecord).exit = none from rfl) rfl hnone
    henvironment hchild
  unfold World.fork
  simp only
  split
  · exact hborn
  · exact hborn.modifyFiber_of_exit (fun _ => rfl) fun _ => rfl

/-- A lease is released at most once, by a release that keeps the secret. -/
theorem releaseLease {x : Exit Value Value} (h : w.Guards c watch) (fiber : FiberId)
    (lease : LeaseId) (hrun : run.Takes c none false) (hx : x.Omits c) :
    (w.evaluate fiber run (.releaseLease lease x)).2.Guards c watch ∧
      Progress.Guards c (.keeps none) (w.evaluate fiber run (.releaseLease lease x)).1 := by
  have hunit : Progress.Guards c (.keeps none) (some (run, .value .unit)) :=
    progress_some hrun (Value.Omits.unit.cleared)
  simp only [World.evaluate]
  split
  · exact ⟨h, hunit⟩
  · split
    · exact ⟨h, hunit⟩
    · next l _ _ =>
      have hstore : ({ w.store with
          leases := w.store.leases.modify lease.index fun l => { l with released := true } } :
          Store).Omits c := { h.store with }
      obtain ⟨hworld, hbuilt⟩ := (h.withStore hstore rfl).buildRelease l.release hx
      exact ⟨hworld, progress_some hrun (Step.guards_ofBuilt hbuilt)⟩

/-- What comes of a wait leaves a world that keeps the secret. -/
theorem carryOut_wait {registration : Registration} {waits : Bool} (h : w.Guards c watch)
    (hrun : (watch fiber).Parks c run) (hregistration : registration.Guards c waits) :
    (w.carryOut fiber (.wait run registration)).2.Guards c watch ∧
      Progress.Guards c (watch fiber) (w.carryOut fiber (.wait run registration)).1 := by
  obtain ⟨hworld, hstep⟩ := h.park hrun hregistration
  simp only [World.carryOut]
  split
  · next step w' heq =>
    rw [heq] at hworld hstep
    exact ⟨hworld, progress_of (hstep step rfl)⟩
  · next w' heq =>
    rw [heq] at hworld
    exact ⟨hworld, progress_none⟩

/-- **A plan leaves a world that keeps the secret, and the fiber goes on as it should.**  Whoever
starts the secret fiber may wait for it. -/
theorem carryOut {plan : Plan} {floor : Option (List Frame)} (h : w.Guards c watch)
    (hkeeps : watch fiber = .keeps floor) (hplan : plan.Guards c floor)
    (hnone : watch w.store.nextFiber = .keeps none)
    (hfork : ∀ run child daemon, plan = .fork run child daemon → w.store.nextFiber = c →
      floor.isSome = true) :
    (w.carryOut fiber plan).2.Guards c watch ∧
      Progress.Guards c (.keeps floor) (w.carryOut fiber plan).1 := by
  cases hplan with
  | proceed hruns =>
    obtain ⟨t, hrun, hstep⟩ := hruns
    exact ⟨h, progress_some hrun hstep⟩
  | finish ho => exact ⟨h.complete fiber ho, progress_none⟩
  | build hrun hcode =>
    obtain ⟨hworld, hends⟩ := World.Guards.run hcode h
    exact ⟨hworld, progress_some hrun (Step.guards_ofBuilt hends)⟩
  | translate hrun hcode =>
    obtain ⟨hworld, hends⟩ := World.Guards.run hcode h
    exact ⟨hworld, progress_some hrun (Step.guards_ofTranslated hends)⟩
  | compute hrun hcode =>
    obtain ⟨hworld, hends⟩ := World.Guards.run hcode h
    exact ⟨hworld, progress_some hrun (Step.guards_ofComputed hends)⟩
  | @update run cell f hrun hf =>
    obtain ⟨hworld, hends⟩ := h.attemptUpdate hf
    exact ⟨hworld, progress_some hrun (Step.guards_ofAttempt hends hf)⟩
  | release release hrun hfloor hx =>
    rw [hfloor] at hrun ⊢
    obtain ⟨hworld, hbuilt⟩ := h.buildRelease release hx
    exact ⟨hworld, progress_some hrun (Step.guards_ofBuilt hbuilt)⟩
  | releaseLease lease hrun hfloor hx =>
    rw [hfloor] at hrun ⊢
    exact h.releaseLease fiber lease hrun hx
  | reserve hrun hv hrelease =>
    exact ⟨⟨h.store, h.places, h.tasks, Numbered.forall_push h.releases hrelease, h.owner⟩,
      progress_some hrun (Value.Omits.reservation _ hv).cleared⟩
  | @fork run child t daemon hrun hchild htells =>
    exact ⟨h.fork fiber daemon hrun.environment hchild hnone, progress_some hrun <|
      Value.cleared_fiber fun hself => htells (hfork run child daemon rfl hself)⟩
  | signal target hrun =>
    exact ⟨h.interrupt target fiber, progress_some hrun Value.Omits.unit.cleared⟩
  | @wait run registration hrun hregistration =>
    have hparks : (watch fiber).Parks c run := by
      rw [hkeeps]
      exact hrun
    have hwaited := h.carryOut_wait hparks hregistration
    rwa [hkeeps] at hwaited
  | makeWay hrun =>
    exact ⟨h.schedule (hkeeps ▸ ⟨false, hrun, Value.Omits.unit.cleared⟩), progress_none⟩

end World.Guards

/-! ### Plain plans -/

/-- A plan that does nothing with the handles that a fiber has but to wait for them, and leaves the
environments as they are. -/
inductive Plan.Plain (c : FiberId) (environments : List Value) : Plan → Prop where
  | proceed {run : RunState} {step : Step} : run.environments = environments → step.Told c →
      Plain c environments (.proceed run step)
  | build {run : RunState} {i : Instruction} : run.environments = environments →
      Plain c environments (.build run (.done i))
  | fork {run : RunState} {child : Instruction} (daemon : Bool) : run.environments = environments →
      child.Guards c .none → Plain c environments (.fork run child daemon)
  | wait {run : RunState} {registration : Registration} : run.environments = environments →
      registration.Guards c true → Plain c environments (.wait run registration)

/-- **A plain plan leaves a world that keeps the secret**, and a fiber that is watched step by step is
told no exit that tells of the secret one. -/
theorem World.Guards.carryOut_plain {fiber : FiberId} {plan : Plan} {environments : List Value}
    (h : w.Guards c watch) (hfollowed : watch fiber = .followed)
    (henvironments : ∀ v ∈ environments, v.Omits c) (hplan : plan.Plain c environments)
    (hnone : watch w.store.nextFiber = .keeps none) :
    (w.carryOut fiber plan).2.Guards c watch ∧
      Progress.Guards c .followed (w.carryOut fiber plan).1 := by
  cases hplan with
  | proceed heq htold => exact ⟨h, progress_of ⟨heq ▸ henvironments, htold⟩⟩
  | build heq => exact ⟨h, progress_of ⟨heq ▸ henvironments, nofun⟩⟩
  | fork daemon heq hchild =>
    exact ⟨h.fork fiber daemon (RunState.omits_environment (heq ▸ henvironments)) hchild hnone,
      progress_of ⟨heq ▸ henvironments, nofun⟩⟩
  | @wait run registration heq hregistration =>
    subst heq
    have hparks : (watch fiber).Parks c run := by
      rw [hfollowed]
      exact henvironments
    have hwaited := h.carryOut_wait hparks hregistration
    rwa [hfollowed] at hwaited

/-! ### Iterations -/

/-- An interruption that takes the place of a step does not tell of the fiber. -/
theorem Step.Guards.divert {k : Clearance} {step : Step} (hstep : step.Guards c k) (w : World)
    (fiber : FiberId) (run : RunState) : (w.divert fiber run step).Guards c k := by
  rw [World.divert_eq]
  split
  · exact Step.guards_interrupt _
  · exact hstep

/-- What is to be seen to in an iteration: on its floor a fiber is handed no outcome, whoever starts
the secret fiber has a floor, and a fiber that is watched step by step does what is plain. -/
def Event.Heeds (c fiber : FiberId) : Watch → Event → Prop
  | .keeps floor, .iterated w run step => (step.isOutcome = true → floor ≠ some run.stack) ∧
      ∀ child daemon, step = .eval (.fork child daemon) → w.store.nextFiber = c →
        floor.isSome = true
  | .followed, .iterated w run step =>
    (step.plan (w.pending fiber) fiber run).Plain c run.environments
  | _, _ => True

/-- What a fiber goes on with that stops in an iteration is as it is watched for. -/
theorem Watch.Runs.divert {watch : Watch} {run : RunState} {step : Step} (h : watch.Runs c run step)
    (w : World) (fiber : FiberId) : watch.Runs c run (w.divert fiber run step) := by
  cases watch with
  | keeps floor =>
    obtain ⟨t, hrun, hstep⟩ := h
    exact ⟨t, hrun, hstep.divert w fiber run⟩
  | followed =>
    refine ⟨h.1, ?_⟩
    rw [World.divert_eq]
    split
    · exact nofun
    · exact h.2

/-- **An iteration in a world that keeps a fiber secret leaves such a world**, and the fiber goes on
as it is watched for. -/
theorem World.Guards.iterate {fiber : FiberId} {run : RunState} {step : Step}
    (h : w.Guards c watch) (hruns : (watch fiber).Runs c run step)
    (hheeds : (Event.iterated w run (w.divert fiber run step)).Heeds c fiber (watch fiber))
    (hnone : watch w.store.nextFiber = .keeps none) :
    (w.iterate fiber run step).2.Guards c watch ∧
      Progress.Guards c (watch fiber) (w.iterate fiber run step).1 := by
  have hdiverted := hruns.divert w fiber
  rw [World.iterate_eq_carryOut]
  generalize w.divert fiber run step = step' at hdiverted hheeds
  cases hwatch : watch fiber with
  | followed =>
    rw [hwatch] at hdiverted hheeds
    exact h.carryOut_plain hwatch hdiverted.1 hheeds hnone
  | keeps floor =>
    rw [hwatch] at hdiverted hheeds
    obtain ⟨t, hrun, hstep⟩ := hdiverted
    obtain ⟨hfloor, hfork⟩ := hheeds
    have hplan : (step'.plan (w.pending fiber) fiber run).Guards c floor := by
      cases step' with
      | value v => exact hrun.planValue hstep (hfloor rfl)
      | halt halt => exact hrun.planHalt hstep (hfloor rfl) _
      | attempt cell f => exact .update hrun.discreet hstep
      | eval i => exact hrun.planEval hstep fiber
    exact h.carryOut hwatch hplan hnone fun _ child daemon heq =>
      hfork child daemon (Step.of_plan_fork heq).2

end Fibers
