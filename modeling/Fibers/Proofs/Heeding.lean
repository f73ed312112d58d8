import Fibers.Proofs.Family
import Fibers.Proofs.Linearity

/-!
# Requests for interruption are heeded

A request for interruption may come at any time: before the fiber waits, while its wait is being
registered, while it is parked, or when it is ready, has finished or must not be interrupted.
Whichever it is, the request is put down, and a fiber that is parked where its wait can be
interrupted has never been asked to stop: the first request ends the wait on the spot.  Later
requests find no such fiber and are put down, nothing more.

So a world in which this holds of every parked fiber is left alone by everything but requests and
new waits, and both look at the other: a request looks at the place known of the fiber, and a fiber
that is parked looks at the requests.

## Main definitions

* `World.ParksNobody` — nobody comes to be parked on the way from one world to another.
* `World.Exposed` — a fiber is parked where its wait can be interrupted.
* `World.Heeds` — no such fiber has been asked to stop.
* `World.Petitions` — who is asked to stop on the way from one world to another, and by whom.
* `World.Stops` — a wait ends by interruption: what is to be done then is done once, and the fiber
  is ready once.
* `World.Responsive`, `Workshop.Heedful` — what requests do in a world, and in a workshop.

## Main results

* `World.parksNobody_carryOut` — nobody comes to be parked but by waiting.
* `World.Heeds.carryOut` — an iteration of a fiber keeps `Heeds`.
* `World.Petitions.requests` — those who asked a fiber to stop, in the order of the first requests.
* `Workshop.Run.heeds_requests` — **no request is missed** in a run.
-/

namespace Fibers

namespace World

variable {w w' : World} {fiber : FiberId} {t : SuspensionId} {run : RunState}
  {onInterrupt : Canceler}

/-! ### Who comes to be parked -/

/-- Places stay those of their fibers, none is made, and nobody comes to be parked at one. -/
structure ParksNobody (w w' : World) : Prop where
  no_place : ∀ {t}, w.suspension? t = none → w'.suspension? t = none
  place : ∀ {t p}, w.suspension? t = some p → ∃ p', w'.suspension? t = some p' ∧ p.Keeps p'

namespace ParksNobody

theorem of_influences (h : w.Influences w') : w.ParksNobody w' := by
  obtain ⟨events, h⟩ := h
  exact ⟨h.no_place, h.place⟩

theorem of_suspensions (h : w'.suspensions = w.suspensions) : w.ParksNobody w' where
  no_place ht := by rwa [suspension?, h]
  place {t p} hp := ⟨p, by rwa [suspension?, h], .refl p⟩

theorem refl (w : World) : w.ParksNobody w := of_suspensions rfl

theorem trans {w'' : World} (h : w.ParksNobody w') (h' : w'.ParksNobody w'') :
    w.ParksNobody w'' where
  no_place ht := h'.no_place (h.no_place ht)
  place hp := by
    obtain ⟨p', hp', hkeeps⟩ := h.place hp
    obtain ⟨p'', hp'', hkeeps'⟩ := h'.place hp'
    exact ⟨p'', hp'', hkeeps.trans hkeeps'⟩

/-- Whoever is parked afterwards was parked before, at the same place. -/
theorem parked (h : w.ParksNobody w') {p' : Suspension} (hp' : w'.suspension? t = some p')
    (hstate : p'.state = .waiting run onInterrupt) :
    ∃ p, w.suspension? t = some p ∧ p.fiber = p'.fiber ∧ p.interruptible = p'.interruptible ∧
      p.state = .waiting run onInterrupt := by
  cases hp : w.suspension? t with
  | none =>
    rw [h.no_place hp] at hp'
    cases hp'
  | some p =>
    obtain ⟨p₁, hp₁, hkeeps⟩ := h.place hp
    obtain rfl : p₁ = p' := Option.some.inj (hp₁.symm.trans hp')
    rcases hkeeps.state with heq | hnone
    · exact ⟨p, rfl, hkeeps.fiber.symm, hkeeps.interruptible.symm, heq ▸ hstate⟩
    · rw [hstate] at hnone
      cases hnone

end ParksNobody

theorem influences_forgetChildren (w : World) (fiber : FiberId) :
    w.Influences (w.forgetChildren fiber) :=
  .modifyFiber w fiber fun _ => ⟨rfl, List.prefix_refl _, rfl, List.prefix_refl _⟩

theorem parksNobody_complete (hsound : w.Sound) (fiber : FiberId) (outcome : Outcome) :
    w.ParksNobody (w.complete fiber outcome) := by
  by_cases hborn : (w.store.fiber? fiber).isSome
  · have hforget := w.influences_forgetChildren fiber
    have hdismiss : w.ParksNobody (w.dismiss fiber) :=
      .of_influences (hforget.trans (influences_interruptUnfinished (hforget.sound hsound) _ _))
    have hending : w.ParksNobody (w.ending fiber outcome) := hdismiss.trans (.of_suspensions rfl)
    rw [complete_eq hborn]
    exact hending.trans (.of_influences (.foldl (fun w o => w.influences_notify fiber o) _ _))
  · rw [Option.not_isSome_iff_eq_none] at hborn
    simpa only [complete, hborn] using ParksNobody.refl w

/-- **Nobody comes to be parked but by waiting.** -/
theorem parksNobody_carryOut (hsound : w.Sound) (fiber : FiberId) {plan : Plan}
    (hwait : ∀ run registration, plan ≠ .wait run registration) :
    w.ParksNobody (w.carryOut fiber plan).2 := by
  cases plan with
  | wait run registration => exact absurd rfl (hwait run registration)
  | proceed run step => exact .refl w
  | finish outcome => exact parksNobody_complete hsound fiber outcome
  | build run code | translate run code | compute run code =>
    exact .of_influences (code.influences_run w)
  | update run cell f => exact .of_influences (w.influences_attemptUpdate cell f)
  | release run release exit => exact .of_influences (influences_buildRelease release exit w)
  | releaseLease run lease exit =>
    rcases w.carryOut_releaseLease fiber run lease exit with heq | ⟨release, leases, heq⟩ <;> rw [heq]
    · exact .refl w
    · have hleased : w.ParksNobody { w with store := { w.store with leases } } :=
        .of_suspensions rfl
      exact hleased.trans (.of_influences (influences_buildRelease release exit _))
  | reserve run v release => exact .of_suspensions rfl
  | fork run child daemon => cases daemon <;> exact .of_suspensions rfl
  | signal run target => exact .of_influences (influences_interrupt hsound target fiber)
  | makeWay run => exact .of_suspensions rfl

/-! ### Fibers that can be interrupted while they are parked -/

/-- The fiber is parked at the place, and its wait can be interrupted. -/
structure Exposed (w : World) (fiber : FiberId) (t : SuspensionId) (run : RunState)
    (onInterrupt : Canceler) : Prop where
  place : ∃ p, w.suspension? t = some p ∧ p.fiber = fiber ∧ p.interruptible = true ∧
    p.state = .waiting run onInterrupt

/-- No fiber that is parked where its wait can be interrupted has been asked to stop. -/
def Heeds (w : World) : Prop :=
  ∀ ⦃fiber t run onInterrupt⦄, w.Exposed fiber t run onInterrupt → w.requests fiber = []

/-- Nobody comes to be parked by what others do. -/
theorem Exposed.of_parksNobody (hx : w'.Exposed fiber t run onInterrupt) (h : w.ParksNobody w') :
    w.Exposed fiber t run onInterrupt := by
  obtain ⟨p', hp', hfiber, hallowed, hstate⟩ := hx
  obtain ⟨p, hp, hfiber', hallowed', hstate'⟩ := h.parked hp' hstate
  exact ⟨p, hp, hfiber'.trans hfiber, hallowed'.trans hallowed, hstate'⟩

theorem Exposed.of_suspensions (hx : w'.Exposed fiber t run onInterrupt)
    (h : w'.suspensions = w.suspensions) : w.Exposed fiber t run onInterrupt :=
  hx.of_parksNobody (.of_suspensions h)

/-- A place at which nobody is left does not come to be one where somebody is parked. -/
theorem Exposed.of_setSuspension {s : SuspensionId} {state : SuspensionState}
    (hstate : state.run? = none) (hx : (w.setSuspension s state).Exposed fiber t run onInterrupt) :
    t ≠ s ∧ w.Exposed fiber t run onInterrupt := by
  obtain ⟨p', hp', hfiber, hallowed, hwait⟩ := hx
  rw [suspension?_setSuspension] at hp'
  split at hp'
  · obtain ⟨p, -, rfl⟩ := Option.map_eq_some_iff.mp hp'
    obtain rfl : state = .waiting run onInterrupt := hwait
    cases hstate
  · next hne => exact ⟨hne, p', hp', hfiber, hallowed, hwait⟩

/-- A fiber is parked at the place known of it. -/
theorem Exposed.recorded (hw : w.Orderly) (h : w.Exposed fiber t run onInterrupt) :
    (w.store.fiber? fiber).bind FiberRecord.suspension = some t := by
  obtain ⟨p, hp, rfl, -, hstate⟩ := h
  obtain ⟨r, hr, hs⟩ := hw.recorded hp hstate
  rw [hr, Option.bind_some, hs]

/-- What parks nobody and asks nobody to stop keeps `Heeds`. -/
theorem Heeds.of_parksNobody (hw : w.Heeds) (h : w.ParksNobody w')
    (hrequests : ∀ fiber, w'.requests fiber = w.requests fiber) : w'.Heeds :=
  fun _ _ _ _ hx => (hrequests _).trans (hw (hx.of_parksNobody h))

theorem Heeds.of_suspensions (hw : w.Heeds) (h : w'.suspensions = w.suspensions)
    (hrequests : ∀ fiber, w'.requests fiber = w.requests fiber) : w'.Heeds :=
  hw.of_parksNobody (.of_suspensions h) hrequests

/-! ### A request -/

/-- The requests for the interruption of a fiber with one more: who has asked before is not put
down again. -/
def addRequest (requests : List FiberId) (source : FiberId) : List FiberId :=
  if requests.contains source then requests else requests ++ [source]

theorem recordInterruptor_eq (w : World) (target source : FiberId) :
    w.recordInterruptor target source =
      w.modifyFiber target fun f =>
        { f with interruptors := addRequest f.interruptors source } := by
  unfold recordInterruptor addRequest
  congr 1
  funext f
  split <;> rfl

theorem requests_recordInterruptor {target : FiberId} (h : (w.store.fiber? target).isSome)
    (source : FiberId) :
    (w.recordInterruptor target source).requests target =
      addRequest (w.requests target) source := by
  obtain ⟨r, hr⟩ := Option.isSome_iff_exists.mp h
  simp [recordInterruptor_eq, requests, World.modifyFiber, Store.fiber?_modifyFiber, hr]

theorem requests_interrupt {target : FiberId} (h : (w.store.fiber? target).isSome)
    (source : FiberId) :
    (w.interrupt target source).requests target = addRequest (w.requests target) source := by
  rw [(w.sameBonds_interrupt target source).requests, requests_recordInterruptor h]

/-- The first of the requests for the interruption of a fiber is the one it is interrupted for. -/
theorem interruptor_of_requests {source : FiberId} {rest : List FiberId}
    (h : w.requests fiber = source :: rest) : w.store.interruptor fiber = source := by
  unfold requests at h
  unfold Store.interruptor
  cases hr : w.store.fiber? fiber with
  | none => simp [hr] at h
  | some r =>
    rw [hr, Option.map_some, Option.getD_some] at h
    simp [FiberRecord.interruptor, h]

theorem interruptAt_of_exposed (h : w.Exposed fiber t run onInterrupt) (source : FiberId) :
    w.interruptAt fiber t source =
      ((w.setSuspension t .over).cancel onInterrupt).schedule fiber run (.interrupt source) := by
  obtain ⟨p, hp, -, -, hstate⟩ := h
  simp only [interruptAt, hp, Option.map_some, hstate]

/-- A fiber is not parked any more at a place where its wait has been interrupted; where others
are parked, they were so before. -/
theorem Exposed.of_interruptAt {source f : FiberId} {s : SuspensionId} {run' : RunState}
    {onInterrupt' : Canceler} (h : w.Exposed fiber t run onInterrupt)
    (hx : (w.interruptAt fiber t source).Exposed f s run' onInterrupt') :
    s ≠ t ∧ w.Exposed f s run' onInterrupt' := by
  rw [interruptAt_of_exposed h] at hx
  have hcancelled : ((w.setSuspension t .over).cancel onInterrupt).Exposed f s run' onInterrupt' :=
    hx.of_suspensions rfl
  exact (hcancelled.of_parksNobody (.of_influences (influences_cancel _ _))).of_setSuspension rfl

/-- **A request that reaches a parked fiber ends its wait.** -/
theorem interrupt_of_exposed (hw : w.Orderly) (h : w.Exposed fiber t run onInterrupt)
    (source : FiberId) :
    w.interrupt fiber source =
      (w.recordInterruptor fiber source).interruptAt fiber t
        ((w.recordInterruptor fiber source).store.interruptor fiber) := by
  have hw' := (w.idles_recordInterruptor fiber source).chronicles.orderly hw
  have hx : (w.recordInterruptor fiber source).Exposed fiber t run onInterrupt :=
    h.of_suspensions rfl
  obtain ⟨p, hp, -, hallowed, -⟩ := hx.place
  have hopen : (w.recordInterruptor fiber source).isInterruptible t = true := by
    rw [isInterruptible, hp, Option.any_some, hallowed]
  simp only [interrupt, hx.recorded hw', if_pos hopen]

/-- A request that reaches no such fiber is put down, and nothing else happens. -/
theorem interrupt_of_not_exposed (hw : w.Orderly)
    (h : ∀ t run onInterrupt, ¬ w.Exposed fiber t run onInterrupt) (source : FiberId) :
    w.interrupt fiber source = w.recordInterruptor fiber source := by
  have hw' := (w.idles_recordInterruptor fiber source).chronicles.orderly hw
  simp only [interrupt]
  split
  · rfl
  · next s hs =>
    split
    · next hopen =>
      obtain ⟨r, hr, hsusp⟩ := Option.bind_eq_some_iff.mp hs
      obtain ⟨p, hp, hfiber⟩ := hw'.owner hr hsusp
      rw [isInterruptible, hp, Option.any_some] at hopen
      -- the place is the fiber's own and can be left, so the fiber is not parked at it
      rw [interruptAt, hp, Option.map_some]
      cases hstate : p.state with
      | waiting run onInterrupt => exact absurd ⟨p, hp, hfiber, hopen, hstate⟩ (h s run onInterrupt)
      | _ => rfl
    · rfl

/-- **Requests keep `Heeds`:** whoever could have missed one has been woken. -/
theorem Heeds.interrupt (hheeds : w.Heeds) (hw : w.Orderly) (hsound : w.Sound)
    (target source : FiberId) : (w.interrupt target source).Heeds := by
  intro fiber t run onInterrupt hx
  have hx₀ := hx.of_parksNobody (.of_influences (influences_interrupt hsound target source))
  by_cases heq : fiber = target
  · subst heq
    -- the place at which it was parked has been given up
    exfalso
    have hrecorded : (w.recordInterruptor fiber source).Exposed fiber t run onInterrupt :=
      hx₀.of_suspensions rfl
    rw [interrupt_of_exposed hw hx₀] at hx
    exact (hrecorded.of_interruptAt hx).1 rfl
  · rw [requests_interrupt_other heq]
    exact hheeds hx₀

/-! ### A wait -/

theorem Heeds.vacate (hw : w.Heeds) (t : SuspensionId) {state : SuspensionState}
    (hstate : state.run? = none) : (w.setSuspension t state).Heeds :=
  fun _ _ _ _ hx => hw (hx.of_setSuspension hstate).2

/-- A fiber that is parked looks at the requests. -/
theorem Heeds.parkAt (hw : w.Heeds) {p : Suspension} (hp : w.suspension? t = some p)
    (hallowed : p.interruptible = run.interruptible) (onInterrupt : Canceler) :
    (w.parkAt p.fiber t run onInterrupt).Heeds := by
  have hset : (w.setSuspension t (.waiting run onInterrupt)).suspension? t =
      some { p with state := .waiting run onInterrupt } := by
    rw [suspension?_setSuspension, if_pos rfl, hp, Option.map_some]
  -- nobody else comes to be parked
  have hothers : ∀ {f s run' onInterrupt'},
      (w.setSuspension t (.waiting run onInterrupt)).Exposed f s run' onInterrupt' → s ≠ t →
        w.Exposed f s run' onInterrupt' := by
    intro f s run' onInterrupt' hx hne
    obtain ⟨p', hp', hrest⟩ := hx
    rw [suspension?_setSuspension, if_neg hne] at hp'
    exact ⟨p', hp', hrest⟩
  simp only [World.parkAt]
  split
  · next hstop =>
    obtain ⟨hopen, -⟩ := Bool.and_eq_true_iff.mp hstop
    have hexposed : (w.setSuspension t (.waiting run onInterrupt)).Exposed p.fiber t run onInterrupt :=
      ⟨_, hset, rfl, hallowed.trans hopen, rfl⟩
    intro f s run' onInterrupt' hx
    obtain ⟨hne, hx⟩ := hexposed.of_interruptAt hx
    rw [(SameBonds.of_fibers (fibers_interruptAt _ _ _ _)).requests]
    exact hw (hothers hx hne)
  · next hstay =>
    intro f s run' onInterrupt' hx
    by_cases heq : s = t
    · subst heq
      obtain ⟨p', hp', rfl, hopen, -⟩ := hx
      obtain rfl := Option.some.inj (hset.symm.trans hp')
      -- it can be interrupted, so what keeps it there is that nobody has asked
      have hnobody : w.store.isInterrupted p.fiber = false := by
        have hrun : run.interruptible = true := hallowed.symm.trans hopen
        simpa [hrun, setSuspension] using hstay
      rw [isInterrupted_eq, Bool.not_eq_false', List.isEmpty_iff] at hnobody
      exact hnobody
    · exact hw (hothers hx heq)

/-- A wait keeps `Heeds`. -/
theorem Heeds.park (hw : w.Heeds) (fiber : FiberId) (run : RunState)
    (registration : Registration) : (w.park fiber run registration).2.Heeds := by
  have hsame : w.SameBonds (w.newSuspension fiber run.interruptible registration).2 :=
    (SameBonds.of_fibers rfl).trans (.modifyFiber _ fiber fun _ => rfl)
  have hnew : (w.newSuspension fiber run.interruptible registration).2.Heeds := by
    intro f s run' onInterrupt hx
    rw [hsame.requests]
    obtain ⟨p, hp, hfiber, hopen, hstate⟩ := hx
    rw [suspension?_newSuspension] at hp
    split at hp
    · obtain rfl := Option.some.inj hp
      cases hstate
    · exact hw ⟨p, hp, hfiber, hopen, hstate⟩
  have hplace : (w.newSuspension fiber run.interruptible registration).2.suspension?
      (w.newSuspension fiber run.interruptible registration).1 =
        some ⟨fiber, run.interruptible, registration, .registering⟩ := by
    rw [suspension?_newSuspension, if_pos rfl]
  simp only [World.park]
  generalize w.newSuspension fiber run.interruptible registration = new at hnew hplace
  obtain ⟨t, w₁⟩ := new
  simp only at hnew hplace ⊢
  have hregister := w₁.influences_register t registration
  have hregistered := hnew.of_parksNobody (.of_influences hregister)
    (w₁.sameBonds_register t registration).requests
  generalize w₁.register t registration = registered at hregister hregistered
  obtain ⟨result, w₂⟩ := registered
  simp only at hregister hregistered ⊢
  obtain ⟨events, hregister⟩ := hregister
  obtain ⟨p, hp, hkeeps⟩ := hregister.place hplace
  split
  · obtain rfl : p.fiber = fiber := hkeeps.fiber
    exact hregistered.parkAt hp hkeeps.interruptible _
  · exact hregistered.vacate t rfl
  · exact hregistered.vacate t rfl
  · exact hregistered.vacate t rfl

/-! ### The end and the beginning of a fiber -/

theorem Heeds.interruptUnfinished (hheeds : w.Heeds) (hw : w.Orderly) (hsound : w.Sound)
    (fibers : List FiberId) (source : FiberId) : (w.interruptUnfinished fibers source).Heeds := by
  induction fibers generalizing w with
  | nil => exact hheeds
  | cons f fibers ih =>
    rw [interruptUnfinished_cons, interruptOne]
    split
    · exact ih hheeds hw hsound
    · exact ih (hheeds.interrupt hw hsound f source) ((chronicles_interrupt hw f source).orderly hw)
        ((influences_interrupt hsound f source).sound hsound)

theorem chronicles_forgetChildren (w : World) (fiber : FiberId) :
    w.Chronicles (w.forgetChildren fiber) := by
  have hidle : w.Idles (w.forgetChildren fiber) :=
    .modifyFiber w fiber (fun _ => rfl) (fun _ => rfl) fun _ _ _ ho => Or.inl ho
  exact hidle.chronicles

theorem requests_forgetChildren (w : World) (fiber f : FiberId) :
    (w.forgetChildren fiber).requests f = w.requests f :=
  requests_modifyFiber w fiber f fun _ => rfl

theorem Heeds.complete (hheeds : w.Heeds) (hw : w.Orderly) (hsound : w.Sound) (fiber : FiberId)
    (outcome : Outcome) : (w.complete fiber outcome).Heeds := by
  by_cases hborn : (w.store.fiber? fiber).isSome
  · have hforget : (w.forgetChildren fiber).Heeds :=
      hheeds.of_suspensions rfl (w.requests_forgetChildren fiber)
    have hdismiss : (w.dismiss fiber).Heeds :=
      hforget.interruptUnfinished ((w.chronicles_forgetChildren fiber).orderly hw)
        ((w.influences_forgetChildren fiber).sound hsound) _ _
    have hending : (w.ending fiber outcome).Heeds :=
      hdismiss.of_suspensions rfl (w.requests_ending fiber outcome)
    rw [complete_eq hborn]
    exact hending.of_parksNobody
      (.of_influences (.foldl (fun w o => w.influences_notify fiber o) _ _))
      (sameBonds_notifyAll _ _ _).requests
  · rw [Option.not_isSome_iff_eq_none] at hborn
    simpa only [World.complete, hborn] using hheeds

theorem requests_push (w : World) {r : FiberRecord} (hr : r.interruptors = []) (f : FiberId) :
    World.requests { w with store := { w.store with fibers := w.store.fibers.push r } } f =
      w.requests f := by
  rw [World.requests, World.requests, Store.fiber?_push]
  split
  · next heq =>
    rw [heq, show w.store.fiber? w.store.nextFiber = none from Numbered.get?_next _]
    exact hr
  · rfl

theorem requests_addChild (w : World) (parent child f : FiberId) :
    (w.addChild parent child).requests f = w.requests f :=
  requests_modifyFiber w parent f fun _ => rfl

/-- Nobody has asked a new fiber to stop. -/
theorem requests_fork (w : World) (parent : FiberId) (run : RunState) (child : Instruction)
    (daemon : Bool) (f : FiberId) :
    (w.fork parent run child daemon).2.requests f = w.requests f := by
  cases daemon with
  | true => exact w.requests_push (r := {}) rfl f
  | false => exact (requests_addChild _ parent _ f).trans (w.requests_push (r := {}) rfl f)

/-! ### Whatever a fiber does -/

/-- **Whatever a fiber does, nobody misses a request.** -/
theorem Heeds.carryOut (hheeds : w.Heeds) (hw : w.Orderly) (hsound : w.Sound) (fiber : FiberId)
    (plan : Plan) : (w.carryOut fiber plan).2.Heeds := by
  cases plan with
  | finish outcome => exact hheeds.complete hw hsound fiber outcome
  | signal run target => exact hheeds.interrupt hw hsound target fiber
  | fork run child daemon =>
    exact hheeds.of_parksNobody (parksNobody_carryOut hsound fiber fun _ _ => Plan.noConfusion)
      (w.requests_fork fiber run child daemon)
  | wait run registration =>
    rw [carryOut_wait]
    exact hheeds.park fiber run registration
  | _ =>
    refine hheeds.of_parksNobody (parksNobody_carryOut hsound fiber ?_)
      (w.sameBonds_carryOut fiber ?_ ?_ ?_).requests
    all_goals
      intros
      exact Plan.noConfusion

/-! ### Who has asked whom to stop -/

/-- Those who ask for the interruption of a fiber, in the order in which they do. -/
def askers (fiber : FiberId) (log : List (FiberId × FiberId)) : List FiberId :=
  log.filterMap fun ask => if ask.1 = fiber then some ask.2 else none

theorem askers_append (fiber : FiberId) (log log' : List (FiberId × FiberId)) :
    askers fiber (log ++ log') = askers fiber log ++ askers fiber log' :=
  List.filterMap_append

/-- `Petitions w log w'`: on the way from `w` to `w'` the first fiber of each pair of the log is
asked to stop on behalf of the second one, in this order, and nobody is asked otherwise. -/
inductive Petitions : World → List (FiberId × FiberId) → World → Prop where
  /-- Nobody is asked. -/
  | quiet {w w' : World} : (∀ fiber, w'.requests fiber = w.requests fiber) → Petitions w [] w'
  /-- A fiber is asked. -/
  | asked {w : World} {target : FiberId} (source : FiberId) :
      (w.store.fiber? target).isSome → Petitions w [(target, source)] (w.interrupt target source)
  /-- One request after the other. -/
  | trans {w w' w'' : World} {log log' : List (FiberId × FiberId)} :
      Petitions w log w' → Petitions w' log' w'' → Petitions w (log ++ log') w''

/-- **The requests for the interruption of a fiber are those that were made**, each put down when
its source asks for the first time. -/
theorem Petitions.requests {log : List (FiberId × FiberId)} (h : Petitions w log w')
    (fiber : FiberId) :
    w'.requests fiber = (askers fiber log).foldl addRequest (w.requests fiber) := by
  induction h with
  | quiet hrequests => exact hrequests fiber
  | @asked w target source hborn =>
    by_cases heq : target = fiber
    · subst heq
      simp [askers, requests_interrupt hborn]
    · simp [askers, heq, requests_interrupt_other (Ne.symm heq)]
  | trans _ _ ih ih' => rw [ih', ih, askers_append, List.foldl_append]

/-- Who asks first stays the first. -/
theorem head?_foldl_addRequest (sources requests : List FiberId) :
    (sources.foldl addRequest requests).head? = (requests ++ sources).head? := by
  induction sources generalizing requests with
  | nil => rw [List.append_nil, List.foldl_nil]
  | cons source sources ih =>
    rw [List.foldl_cons, ih, addRequest]
    cases requests with
    | nil => rfl
    | cons first rest =>
      split <;> rfl

/-- Some requests lead from one world to the other. -/
def Petitioned (w w' : World) : Prop := ∃ log, Petitions w log w'

theorem SameBonds.petitioned (h : w.SameBonds w') : w.Petitioned w' := ⟨_, .quiet h.requests⟩

theorem Petitioned.trans {w'' : World} (h : w.Petitioned w') (h' : w'.Petitioned w'') :
    w.Petitioned w'' := by
  obtain ⟨log, h⟩ := h
  obtain ⟨log', h'⟩ := h'
  exact ⟨_, h.trans h'⟩

theorem petitioned_interrupt (w : World) (target source : FiberId) :
    w.Petitioned (w.interrupt target source) := by
  by_cases hborn : (w.store.fiber? target).isSome
  · exact ⟨_, .asked source hborn⟩
  · -- what is no fiber cannot be asked
    refine ⟨_, .quiet fun fiber => ?_⟩
    by_cases heq : fiber = target
    · subst heq
      rw [Option.not_isSome_iff_eq_none] at hborn
      rw [(w.sameBonds_interrupt fiber source).requests, recordInterruptor_eq]
      simp [World.requests, World.modifyFiber, Store.fiber?_modifyFiber, hborn]
    · exact requests_interrupt_other heq w source

theorem petitioned_interruptUnfinished (w : World) (fibers : List FiberId) (source : FiberId) :
    w.Petitioned (w.interruptUnfinished fibers source) := by
  induction fibers generalizing w with
  | nil => exact (SameBonds.refl w).petitioned
  | cons f fibers ih =>
    rw [interruptUnfinished_cons, interruptOne]
    split
    · exact ih w
    · exact (w.petitioned_interrupt f source).trans (ih _)

theorem petitioned_complete (w : World) (fiber : FiberId) (outcome : Outcome) :
    w.Petitioned (w.complete fiber outcome) := by
  by_cases hborn : (w.store.fiber? fiber).isSome
  · have hforget : w.Petitioned (w.forgetChildren fiber) :=
      ⟨_, .quiet (w.requests_forgetChildren fiber)⟩
    have hdismiss : w.Petitioned (w.dismiss fiber) :=
      hforget.trans (petitioned_interruptUnfinished _ _ _)
    have hending : w.Petitioned (w.ending fiber outcome) :=
      hdismiss.trans ⟨_, .quiet (w.requests_ending fiber outcome)⟩
    rw [complete_eq hborn]
    exact hending.trans (sameBonds_notifyAll _ _ _).petitioned
  · rw [Option.not_isSome_iff_eq_none] at hborn
    simpa only [complete, hborn] using (SameBonds.refl w).petitioned

theorem petitioned_carryOut (w : World) (fiber : FiberId) (plan : Plan) :
    w.Petitioned (w.carryOut fiber plan).2 := by
  cases plan with
  | finish outcome => exact w.petitioned_complete fiber outcome
  | fork run child daemon => exact ⟨_, .quiet (w.requests_fork fiber run child daemon)⟩
  | signal run target => exact w.petitioned_interrupt target fiber
  | _ =>
    refine (w.sameBonds_carryOut fiber ?_ ?_ ?_).petitioned
    all_goals
      intros
      exact Plan.noConfusion

/-! ### A wait ends by interruption -/

/-- `w.Stops fiber t run onInterrupt source w'`: the wait of the fiber at the place ends by
interruption on behalf of `source`. -/
structure Stops (w : World) (fiber : FiberId) (t : SuspensionId) (run : RunState)
    (onInterrupt : Canceler) (source : FiberId) (w' : World) : Prop where
  /-- What is to be done on interruption is done, and then the fiber is made ready. -/
  world : w' =
    ((w.setSuspension t .over).cancel onInterrupt).schedule fiber run (.interrupt source)
  /-- The fiber is ready once, to unwind with the cancellation. -/
  ready : w'.ready fiber = [.active run (.interrupt source)]
  /-- It is parked nowhere. -/
  parked : w'.parked fiber = []
  /-- What is to be done on interruption is done once. -/
  cancels : ∃ deeds, Chronicle w deeds w' ∧ deeds.countP (·.cancels t) = 1
  /-- It has not been done before. -/
  before : ∀ {w₀ deeds}, w₀.Orderly → Chronicle w₀ deeds w → deeds.countP (·.cancels t) = 0
  /-- It is not done again. -/
  after : ∀ {deeds w''}, Chronicle w' deeds w'' → deeds.countP (·.cancels t) = 0

end World

/-- Nothing is done on an interruption as long as the wait is not over. -/
theorem Chronicle.countP_cancels_of_not_over {w w' : World} {deeds : List Deed}
    (h : Chronicle w deeds w') (hw : w.Orderly) {t : SuspensionId} (ht : w'.isOver t = false) :
    deeds.countP (·.cancels t) = 0 := by
  have hends := h.countP_ends_le hw t
  have hcancels := h.countP_cancels t
  have hle := Chronicle.interrupts_le_ends deeds t
  rw [ht, Bool.toNat_false] at hends
  omega

/-- Nothing is done on an interruption once the wait is over. -/
theorem Chronicle.countP_cancels_of_over {w w' : World} {deeds : List Deed}
    (h : Chronicle w deeds w') (hw : w.Orderly) {t : SuspensionId} (ht : w.isOver t = true) :
    deeds.countP (·.cancels t) = 0 := by
  have hends := h.countP_ends_le hw t
  have hcancels := h.countP_cancels t
  have hle := Chronicle.interrupts_le_ends deeds t
  have hmost : (w'.isOver t).toNat ≤ 1 := Bool.toNat_le _
  rw [ht, Bool.toNat_true] at hends
  omega

namespace World

variable {w w' : World} {fiber : FiberId} {t : SuspensionId} {run : RunState}
  {onInterrupt : Canceler}

/-- **The wait of a parked fiber of which nothing else is held ends by interruption.** -/
theorem Exposed.stops (hw : w.Orderly) (hx : w.Exposed fiber t run onInterrupt)
    (hgone : (w.setSuspension t .over).held fiber = []) (source : FiberId) :
    w.Stops fiber t run onInterrupt source
      (((w.setSuspension t .over).cancel onInterrupt).schedule fiber run (.interrupt source)) := by
  obtain ⟨p, hp, rfl, hallowed, hstate⟩ := hx
  obtain ⟨deeds, hdeeds⟩ := exists_interrupted hw hp hstate source
  have hnotyet : w.isOver t = false := by
    rw [isOver, hp, Option.any_some, hstate]
    rfl
  obtain ⟨events, hcancel⟩ := influences_cancel (w.setSuspension t .over) onInterrupt
  obtain ⟨hnone, -⟩ := hcancel.held_nil hgone
  obtain ⟨hready, hparked⟩ := List.append_eq_nil_iff.mp hnone
  -- the interruption is one of the ends of the wait, of which there is at most one
  have hends := hdeeds.countP_ends_le hw t
  have hcancels := hdeeds.countP_cancels t
  have hle := Chronicle.interrupts_le_ends (.interrupted t source :: .cancelled t :: deeds) t
  simp only [List.countP_cons, Deed.cancels_interrupted, Deed.cancels_cancelled,
    Deed.ends_interrupted, Deed.interrupts_interrupted, decide_true, if_true] at hends hcancels hle
  have hmost := Bool.toNat_le (World.isOver (((w.setSuspension t .over).cancel
    onInterrupt).schedule p.fiber run (.interrupt source)) t)
  refine ⟨rfl, ?_, hparked, ⟨_, hdeeds, ?_⟩, fun hw₀ h => h.countP_cancels_of_not_over hw₀ hnotyet,
    fun h => h.countP_cancels_of_over (hdeeds.orderly hw) ?_⟩
  · rw [ready_schedule, hready, if_pos rfl]
    rfl
  · simp only [List.countP_cons, Deed.cancels_interrupted, Deed.cancels_cancelled, decide_true,
      if_true]
    omega
  · rw [← Bool.toNat_eq_one]
    omega

/-! ### What a request does -/

/-- What requests for interruption do in a world. -/
structure Responsive (w : World) : Prop where
  /-- Nobody who has been asked to stop stays parked where the wait can be interrupted. -/
  unmissed : ∀ {fiber}, w.store.isInterrupted fiber = true →
    ∀ t run onInterrupt, ¬ w.Exposed fiber t run onInterrupt
  /-- A request that reaches a parked fiber is the first one, and ends its wait. -/
  reached : ∀ {fiber t run onInterrupt} source, w.Exposed fiber t run onInterrupt →
    (w.interrupt fiber source).requests fiber = [source] ∧
      (w.recordInterruptor fiber source).Stops fiber t run onInterrupt source
        (w.interrupt fiber source)
  /-- Any other request is put down, and nothing else happens. -/
  recorded : ∀ {fiber} source, (∀ t run onInterrupt, ¬ w.Exposed fiber t run onInterrupt) →
    w.interrupt fiber source =
      w.modifyFiber fiber fun f => { f with interruptors := addRequest f.interruptors source }
  /-- So are further requests; the first one stays the first. -/
  again : ∀ {fiber} source, w.store.isInterrupted fiber = true →
    w.interrupt fiber source =
        w.modifyFiber fiber (fun f =>
          { f with interruptors := addRequest f.interruptors source }) ∧
      (w.interrupt fiber source).store.interruptor fiber = w.store.interruptor fiber
  /-- So are requests to a fiber that has finished; its exit stays. -/
  finished : ∀ {fiber} source, w.store.isFinished fiber = true →
    w.interrupt fiber source =
        w.modifyFiber fiber (fun f =>
          { f with interruptors := addRequest f.interruptors source }) ∧
      ((w.interrupt fiber source).store.fiber? fiber).bind FiberRecord.exit =
        (w.store.fiber? fiber).bind FiberRecord.exit

/-- Where a fiber is parked though it has been asked to stop, its wait ends at once, on behalf of
the one who asked first. -/
def ParksHeeding (w : World) (fiber : FiberId) : Prop :=
  ∀ (run : RunState) (registration : Registration) (onInterrupt : Canceler) (source : FiberId)
    (others : List FiberId),
    let (t, w₁) := w.newSuspension fiber run.interruptible registration
    let (registered, w₂) := w₁.register t registration
    registered = .ok onInterrupt → (w₂.suspension? t).map Suspension.state = some .registering →
      run.interruptible = true → w.requests fiber = source :: others →
        ∃ w', w.park fiber run registration = (none, w') ∧
          (w₂.setSuspension t (.waiting run onInterrupt)).Stops fiber t run onInterrupt source w'

/-- What is held of a fiber that is parked is at the place where it is parked. -/
theorem Exposed.gone {hand : List Standing} {a : Standing} (ha : w.Stands hand fiber a)
    (hx : w.Exposed fiber t run onInterrupt) :
    w.phase fiber = some false ∧ (w.setSuspension t .over).held fiber = [] := by
  obtain ⟨p, hp, rfl, -, hstate⟩ := hx
  have hrun : p.state.run? = some run := by
    rw [hstate]
    rfl
  obtain ⟨before, after, hheld, hrest⟩ := held_setSuspension_over hp hrun p.fiber
  have htokens := ha.tokens
  rw [hheld, if_pos rfl, List.append_assoc, ← List.append_assoc] at htokens
  obtain ⟨hnil, rfl, rfl⟩ := Standing.eq_of_held htokens
  obtain ⟨-, rfl⟩ := List.append_eq_nil_iff.mp hnil
  exact ⟨ha.phase, hrest⟩

/-- Who asked first for the interruption of a fiber stays the first. -/
theorem interruptor_interrupt (h : w.store.isInterrupted fiber = true) (source : FiberId) :
    (w.interrupt fiber source).store.interruptor fiber = w.store.interruptor fiber := by
  obtain ⟨r, hr, hasked⟩ := (Option.any_eq_true ..).mp h
  have hgrow := requests_interrupt (by rw [hr]; rfl) source
  cases hrequests : w.requests fiber with
  | nil =>
    rw [isInterrupted_eq, hrequests] at h
    cases h
  | cons first rest =>
    have hfirst := head?_foldl_addRequest [source] (w.requests fiber)
    rw [List.foldl_cons, List.foldl_nil, ← hgrow, hrequests] at hfirst
    obtain ⟨rest', hrest⟩ := List.head?_eq_some_iff.mp hfirst
    rw [interruptor_of_requests hrest, interruptor_of_requests hrequests]

/-- **Where nobody has missed a request, every request does what it has to.** -/
theorem Heeds.responsive (hheeds : w.Heeds) (hw : w.Orderly)
    (hstands : ∀ fiber, ∃ hand a, w.Stands hand fiber a) : w.Responsive := by
  have hunmissed : ∀ {fiber}, w.store.isInterrupted fiber = true →
      ∀ t run onInterrupt, ¬ w.Exposed fiber t run onInterrupt := by
    intro fiber hasked t run onInterrupt hx
    rw [isInterrupted_eq, hheeds hx] at hasked
    cases hasked
  have hrecorded : ∀ {fiber} source, (∀ t run onInterrupt, ¬ w.Exposed fiber t run onInterrupt) →
      w.interrupt fiber source =
        w.modifyFiber fiber fun f =>
          { f with interruptors := addRequest f.interruptors source } := fun source hx => by
    rw [interrupt_of_not_exposed hw hx, recordInterruptor_eq]
  refine ⟨hunmissed, fun {fiber t run onInterrupt} source hx => ?_, hrecorded,
    fun {fiber} source hasked =>
      ⟨hrecorded source (hunmissed hasked), interruptor_interrupt hasked source⟩,
    fun {fiber} source hfinished => ?_⟩
  · obtain ⟨hand, a, ha⟩ := hstands fiber
    obtain ⟨hphase, hgone⟩ := hx.gone ha
    have hborn : (w.store.fiber? fiber).isSome := by
      obtain ⟨r, hr, -⟩ := Option.map_eq_some_iff.mp hphase
      rw [hr]
      rfl
    have hrequests : (w.recordInterruptor fiber source).requests fiber = [source] := by
      rw [requests_recordInterruptor hborn, hheeds hx]
      rfl
    refine ⟨((w.sameBonds_interrupt fiber source).requests fiber).trans hrequests, ?_⟩
    have hx' : (w.recordInterruptor fiber source).Exposed fiber t run onInterrupt :=
      hx.of_suspensions rfl
    rw [interrupt_of_exposed hw hx, interruptAt_of_exposed hx', interruptor_of_requests hrequests]
    exact hx'.stops ((w.idles_recordInterruptor fiber source).chronicles.orderly hw) hgone source
  · have hhidden : ∀ t run onInterrupt, ¬ w.Exposed fiber t run onInterrupt := by
      intro t run onInterrupt hx
      obtain ⟨hand, a, ha⟩ := hstands fiber
      obtain ⟨r, hr, hr'⟩ := Option.map_eq_some_iff.mp (hx.gone ha).1
      rw [Store.isFinished, hr, Option.any_some, hr'] at hfinished
      cases hfinished
    refine ⟨hrecorded source hhidden, ?_⟩
    rw [hrecorded source hhidden, World.modifyFiber, Store.fiber?_modifyFiber, if_pos rfl]
    cases w.store.fiber? fiber <;> rfl

/-- **A fiber that has been asked to stop does not stay parked.** -/
theorem parksHeeding (hw : w.Orderly) (hsound : w.Sound) (hin : w.InHand fiber) :
    w.ParksHeeding fiber := by
  intro run registration onInterrupt source others
  have hsame : w.SameBonds (w.newSuspension fiber run.interruptible registration).2 :=
    (SameBonds.of_fibers rfl).trans (.modifyFiber _ fiber fun _ => rfl)
  have hcarries := w.carries_newSuspension fiber run.interruptible registration
  generalize hpair : w.newSuspension fiber run.interruptible registration = new at hsame hcarries
  obtain ⟨t, w₁⟩ := new
  have hregistered := registered_newSuspension hw hin run.interruptible registration hpair
  simp only at hsame hcarries ⊢
  obtain ⟨events, hregister⟩ := (w₁.influences_register t registration).carries
  have hsame₂ := hsame.trans (w₁.sameBonds_register t registration)
  generalize hreg : w₁.register t registration = result at hregistered hregister hsame₂
  obtain ⟨registered, w₂⟩ := result
  simp only at hregister hsame₂ ⊢
  intro hok hregistering hopen hasked
  subst hok
  obtain ⟨hchronicles, ⟨state, hplace, -⟩, ⟨r, hr, hs⟩, hfits⟩ := hregistered
  simp only at hchronicles hplace hr hfits
  obtain rfl : state = .registering := by
    rw [hplace] at hregistering
    exact Option.some.inj hregistering
  obtain ⟨hin₂, -⟩ := hregister.inHand (hcarries.inHand hin).1
  have hsound₂ := hregister.sound (hcarries.sound hsound)
  have hasked₂ : w₂.requests fiber = source :: others := (hsame₂.requests fiber).trans hasked
  -- the fiber is parked for a moment
  have hparked : Chronicle w₂ [] (w₂.setSuspension t (.waiting run onInterrupt)) :=
    .parked run hplace rfl hr hs (hfits rfl)
  have hset : (w₂.setSuspension t (.waiting run onInterrupt)).suspension? t =
      some ⟨fiber, run.interruptible, registration, .waiting run onInterrupt⟩ := by
    rw [suspension?_setSuspension, if_pos rfl, hplace]
    rfl
  obtain ⟨a, hstands, -⟩ := (handsOver_waiting hsound₂ hplace rfl rfl onInterrupt).self hin₂
  generalize hmoment : w₂.setSuspension t (.waiting run onInterrupt) = w₃ at hparked hset hstands
  have hexposed : w₃.Exposed fiber t run onInterrupt := ⟨_, hset, rfl, hopen, rfl⟩
  have hpark : w.park fiber run registration = (none, w₃.interruptAt fiber t source) := by
    have hflag : w₃.store.isInterrupted fiber = true := by
      rw [isInterrupted_eq, ← hmoment]
      exact hasked₂ ▸ rfl
    have hfirst : w₃.store.interruptor fiber = source := by
      rw [← hmoment]
      exact interruptor_of_requests hasked₂
    simp only [World.park, hpair, hreg, hplace, Option.map_some, World.parkAt, hmoment]
    simp only [hopen, hflag, Bool.and_self, if_true, hfirst]
  refine ⟨_, hpark, ?_⟩
  rw [interruptAt_of_exposed hexposed]
  exact hexposed.stops (hparked.orderly (hchronicles.orderly hw)) (hexposed.gone hstands).2 source

end World

namespace Workshop

open World

/-! ### Runs -/

/-- What requests for interruption do at a moment of a run. -/
structure Heedful (minted : Nat) (s : Workshop) : Prop where
  /-- What requests do between two iterations. -/
  world : s.world.Responsive
  /-- What they do when a fiber that ends has asked some of its children to stop. -/
  dismissing : ∀ fiber asked others, s.world.children fiber = asked ++ others →
    ((s.world.forgetChildren fiber).interruptUnfinished asked fiber).Responsive
  /-- What becomes of a running fiber that is parked though it has been asked to stop. -/
  parks : ∀ slice ∈ s.running, s.world.ParksHeeding slice.fiber
  /-- The requests put down are those that were made, and the first is the first one made. -/
  petitions : ∃ log, Petitions (.init minted) log s.world ∧ ∀ fiber,
    s.world.requests fiber = (askers fiber log).foldl addRequest [] ∧
      (s.world.requests fiber).head? = (askers fiber log).head?

/-- **Whatever happens, nobody misses a request.** -/
theorem Move.heeds {budget : Nat} {s s' : Workshop} {events : List (FiberId × Event)}
    (h : Move budget s events s') (hvalid : s.Valid) (hw : s.world.Orderly)
    (hheeds : s.world.Heeds) : s'.world.Heeds := by
  cases h with
  | pick _ _ => exact hheeds.of_suspensions rfl fun _ => rfl
  | @advance w before after slice m hm =>
    subst hm
    rcases Machine.world_advance budget w slice with heq | ⟨-, heq⟩ <;> simp only [heq]
    · exact hheeds.of_suspensions rfl fun _ => rfl
    · exact hheeds.carryOut hw hvalid.sound slice.fiber _
  | interrupt target source => exact hheeds.interrupt hw hvalid.sound target source
  | act a =>
    exact hheeds.of_parksNobody (.of_influences (a.influences_run _)) (sameBonds_run a _).requests
  | ring hm =>
    obtain ⟨world, hworld, rfl⟩ := Machine.of_ring hm
    exact hheeds.of_parksNobody (.of_influences hworld) (sameBonds_ring hm).requests
  | start effect environment report => exact hheeds.of_suspensions rfl (World.requests_push _ rfl)

theorem Move.petitioned {budget : Nat} {s s' : Workshop} {events : List (FiberId × Event)}
    (h : Move budget s events s') : s.world.Petitioned s'.world := by
  cases h with
  | pick _ _ => exact ⟨_, .quiet fun _ => rfl⟩
  | @advance w before after slice m hm =>
    subst hm
    rcases Machine.world_advance budget w slice with heq | ⟨-, heq⟩ <;> simp only [heq]
    · exact ⟨_, .quiet fun _ => rfl⟩
    · exact w.petitioned_carryOut slice.fiber _
  | interrupt target source => exact petitioned_interrupt _ target source
  | act a => exact (sameBonds_run a _).petitioned
  | ring hm => exact (sameBonds_ring hm).petitioned
  | start effect environment report => exact ⟨_, .quiet (World.requests_push _ rfl)⟩

theorem Run.heeds {budget : Nat} {s s' : Workshop} {record : List (FiberId × Event)}
    (h : Run budget s record s') (hvalid : s.Valid) (hw : s.world.Orderly)
    (hheeds : s.world.Heeds) : s'.world.Heeds ∧ s.world.Petitioned s'.world := by
  induction h with
  | rest => exact ⟨hheeds, (SameBonds.refl _).petitioned⟩
  | move hmove _ ih =>
    obtain ⟨hheeds', hlater⟩ := ih (hmove.valid hvalid)
      ((hmove.chronicles hvalid hw).orderly hw) (hmove.heeds hvalid hw hheeds)
    exact ⟨hheeds', hmove.petitioned.trans hlater⟩

theorem heeds_init (minted : Nat) : (World.init minted).Heeds := by
  rintro fiber t run onInterrupt ⟨p, hp, -⟩
  simp [World.init, World.suspension?, Numbered.get?] at hp

/-- **No request for interruption is missed.**  Between two iterations nobody who has been asked to
stop is parked where the wait can be interrupted.  A request that reaches such a fiber, and a fiber
that is parked there after it has been asked, end the wait: what is to be done on interruption is
done once, and the fiber is ready once, with a cancellation that names the first to have asked for
it.  Further requests are put down and nothing more, and none changes the exit of a fiber that has
finished. -/
theorem Run.heeds_requests {budget minted : Nat} {s : Workshop} {record : List (FiberId × Event)}
    (h : Run budget (init minted) record s) : s.Heedful minted := by
  have hvalid := h.valid (valid_init minted)
  have hw := (h.exists_chronicle (valid_init minted) (World.orderly_init minted)).orderly
    (World.orderly_init minted)
  obtain ⟨hheeds, log, hlog⟩ := h.heeds (valid_init minted) (World.orderly_init minted)
    (heeds_init minted)
  have hstands : ∀ fiber, ∃ hand a, s.world.Stands hand fiber a := fun fiber =>
    ⟨_, hvalid.stands fiber⟩
  refine ⟨hheeds.responsive hw hstands, fun fiber asked others _ => ?_, fun slice hslice => ?_,
    log, hlog, fun fiber => ?_⟩
  · -- the fibers that it has asked already are woken, and all others stand as before
    have hforget := s.world.influences_forgetChildren fiber
    have hw' := (s.world.chronicles_forgetChildren fiber).orderly hw
    have hsound' := hforget.sound hvalid.sound
    have hheeds' : (s.world.forgetChildren fiber).Heeds :=
      hheeds.of_suspensions rfl (s.world.requests_forgetChildren fiber)
    obtain ⟨_, hcarries⟩ :=
      (hforget.trans (influences_interruptUnfinished hsound' asked fiber)).carries
    refine (hheeds'.interruptUnfinished hw' hsound' asked fiber).responsive
      ((chronicles_interruptUnfinished hw' asked fiber).orderly hw') fun f => ?_
    obtain ⟨hand, a, ha⟩ := hstands f
    obtain ⟨b, hb, -⟩ := hcarries.stands ha
    exact ⟨hand, b, hb⟩
  · obtain ⟨before, after, hsplit⟩ := List.append_of_mem hslice
    obtain ⟨a, ha⟩ := hvalid.stands slice.fiber
    have ha' : Stands ⟨s.world, before ++ slice :: after⟩ slice.fiber a := hsplit ▸ ha
    exact parksHeeding hw hvalid.sound (stands_of_running ha').2.1
  · have hrequests := hlog.requests fiber
    have hnone : (init minted).world.requests fiber = [] := by
      simp [World.requests, init, World.init, Store.init, Store.fiber?, Numbered.get?,
        Numbered.startingAt]
    rw [hnone] at hrequests
    exact ⟨hrequests, by rw [hrequests, head?_foldl_addRequest, List.nil_append]⟩

/-- A fiber is parked, and a request for its interruption will reach it. -/
theorem Run.heeds_requests_patientWait :
    ∃ s record, Run 8 (init 0) record s ∧
      s.world.Exposed ⟨1⟩ ⟨0⟩ (.start .unit true) (.action (pure ())) ∧ s.Heedful 0 := by
  have hrun : Run 8 (init 0) _ _ :=
    .move (.start patientWait .unit none) <|
    .move (.pick_first rfl) <|
    .move (.advance_one _ _ _) .rest
  exact ⟨_, _, hrun, ⟨_, rfl, rfl, rfl, rfl⟩, Run.heeds_requests hrun⟩

end Workshop

end Fibers
