import Fibers.Proofs.Watching

/-!
# Plans keep a ledger

A plan is carried out by a fiber that is in hand.  Whatever it does, the ledger of any fiber still
fits when the wait that the plan begins has been entered as the last one of its fiber, the end of a
fiber as the result, and what has been given in between.

## Main definitions

* `Plan.wait?`, `Plan.outcome?` — the wait that a plan begins, and the end that it puts down.
* `Ledger.after` — what a plan enters in a ledger.

## Main results

* `Ledger.Holds.park` — the wait of a fiber.
* `Ledger.Holds.complete` — the end of a fiber.
* `Ledger.Holds.carryOut` — **every plan keeps a ledger.**
-/

namespace Fibers

/-- The wait that a plan begins. -/
def Plan.wait? (w : World) : Plan → Option Wait
  | .wait run registration => some ⟨⟨w.suspensions.next⟩, registration, run⟩
  | _ => none

/-- The place at which a plan begins to wait for a fiber, with the type of failures. -/
def Plan.asked (w : World) (fiber : FiberId) : Plan → List (SuspensionId × ErrorType)
  | .wait _ (.awaitExit other type) => if other = fiber then [(⟨w.suspensions.next⟩, type)] else []
  | _ => []

theorem Plan.of_mem_asked {w : World} {fiber : FiberId} {plan : Plan} {s : SuspensionId}
    {type : ErrorType} (h : (s, type) ∈ plan.asked w fiber) :
    s = ⟨w.suspensions.next⟩ ∧ ∃ run, plan = .wait run (.awaitExit fiber type) := by
  unfold asked at h
  split at h
  · next run other type' =>
    split at h
    · next heq =>
      obtain ⟨rfl, rfl⟩ := Prod.mk.inj (List.mem_singleton.mp h)
      exact ⟨rfl, run, by rw [heq]⟩
    · cases h
  · cases h

/-- The end of the fiber that a plan puts down. -/
def Plan.outcome? : Plan → Option Outcome
  | .finish outcome => some outcome
  | _ => none

namespace Ledger

variable {l : Ledger} {w w' : World} {fiber : FiberId}

/-- The wait of a fiber is entered. -/
def remember (l : Ledger) (fiber : FiberId) (wait : Option Wait) : Ledger :=
  { l with last := fun f => if f = fiber then wait else l.last f }

/-- More is about to be told, or never will be. -/
def expect (l : Ledger) (more : List Observer) : Ledger := { l with pending := more ++ l.pending }

/-- More places at which the fiber is waited for are entered. -/
def await (l : Ledger) (more : List (SuspensionId × ErrorType)) : Ledger :=
  { l with asked := more ++ l.asked }

/-- The end of a fiber is entered if it is the one of the ledger. -/
def ended (l : Ledger) (fiber : FiberId) (outcome : Outcome) : Ledger :=
  { l with result := if fiber = l.fiber then some outcome else l.result }

/-- Those who ask for the fiber of the ledger before there is such a fiber. -/
def strays (l : Ledger) (w : World) : Plan → List Observer
  | .wait _ registration =>
    if w.store.fiber? l.fiber = none then registration.observers ⟨w.suspensions.next⟩ l.fiber
    else []
  | _ => []

theorem of_mem_strays {plan : Plan} {o : Observer} (h : o ∈ l.strays w plan) :
    ∃ run registration, plan = .wait run registration ∧ w.store.fiber? l.fiber = none ∧
      o ∈ registration.observers ⟨w.suspensions.next⟩ l.fiber := by
  unfold strays at h
  split at h
  · next run registration =>
    split at h
    · next hnone => exact ⟨run, registration, rfl, hnone, h⟩
    · cases h
  · cases h

/-- What a plan of a fiber enters in a ledger. -/
def after (l : Ledger) (w : World) (fiber : FiberId) (plan : Plan) : Ledger :=
  let l := ((l.remember fiber (plan.wait? w)).expect (l.strays w plan)).await
    (plan.asked w l.fiber)
  match plan.outcome? with
  | some outcome => l.ended fiber outcome
  | none => l

section After

variable (l : Ledger) (w : World) (fiber : FiberId) (plan : Plan)

@[simp] theorem after_fiber : (l.after w fiber plan).fiber = l.fiber := by
  unfold after
  split <;> rfl

@[simp] theorem after_given : (l.after w fiber plan).given = l.given := by
  unfold after
  split <;> rfl

theorem after_last (f : FiberId) :
    (l.after w fiber plan).last f = if f = fiber then plan.wait? w else l.last f := by
  unfold after
  split <;> rfl

theorem after_asked : (l.after w fiber plan).asked = plan.asked w l.fiber ++ l.asked := by
  unfold after
  split <;> rfl

theorem after_pending : (l.after w fiber plan).pending = l.strays w plan ++ l.pending := by
  unfold after
  split <;> rfl

theorem after_result : (l.after w fiber plan).result =
    if fiber = l.fiber then plan.outcome?.or l.result else l.result := by
  unfold after
  split
  · next outcome heq =>
    rw [heq]
    rfl
  · next heq =>
    rw [heq, Option.none_or, ite_self]
    rfl

end After

/-- A plan that begins no wait and is no end enters nothing else. -/
theorem after_eq (l : Ledger) (w : World) (fiber : FiberId) {plan : Plan}
    (hwait : plan.wait? w = none) (houtcome : plan.outcome? = none) :
    l.after w fiber plan = l.remember fiber none := by
  cases plan with
  | wait _ _ => cases hwait
  | finish _ => cases houtcome
  | _ => rfl

end Ledger

namespace World

variable {w w' : World} {fiber : FiberId}

/-- A fiber in hand is not ready. -/
theorem InHand.not_ready (h : w.InHand fiber) {task : Task} (htask : task ∈ w.tasks.toList) :
    task.fiber ≠ fiber := by
  intro heq
  have hready := (List.append_eq_nil_iff.mp h.held).1
  have hmem : task ∈ w.tasks.toList.filter (·.fiber = fiber) :=
    List.mem_filter.mpr ⟨htask, decide_eq_true heq⟩
  rw [ready, List.map_eq_nil_iff] at hready
  rw [hready] at hmem
  cases hmem

end World

/-- But for the place nothing changes that is told. -/
theorem World.quiet_newSuspension (w : World) (fiber : FiberId) (allowed : Bool)
    (registration : Registration) :
    World.Quiet
      { w with suspensions := w.suspensions.push ⟨fiber, allowed, registration, .registering⟩ }
      (w.newSuspension fiber allowed registration).2 :=
  .modifyFiber _ fiber (fun _ => rfl) fun _ hr => hr

/-- A fiber that has not finished has not ended. -/
theorem Ledger.Holds.result_of_going {l : Ledger} {w : World} (h : l.Holds w) {r : FiberRecord}
    (hr : w.store.fiber? l.fiber = some r) (hgoing : r.finished = false) : l.result = none := by
  cases h.shelf with
  | going hresult _ _ _ => exact hresult
  | kept _ hdone _ _ _ | taken _ hdone _ _ _ _ _ =>
    rw [Store.isFinished, hr, Option.any_some, hgoing] at hdone
    cases hdone

/-- A fiber in hand has not ended. -/
theorem Ledger.Holds.result_of_inHand {l : Ledger} {w : World} (h : l.Holds w)
    (hin : w.InHand l.fiber) : l.result = none := by
  have hphase := hin.phase
  rw [World.phase] at hphase
  cases hr : w.store.fiber? l.fiber with
  | none =>
    rw [hr] at hphase
    cases hphase
  | some r =>
    rw [hr] at hphase
    exact h.result_of_going hr (Option.some.inj hphase)

/-- What a fiber in hand enters in a ledger changes nothing of what is known of an end. -/
theorem Ledger.Holds.extends_after {l : Ledger} {w : World} {fiber : FiberId} (h : l.Holds w)
    (hin : w.InHand fiber) (plan : Plan) : l.Extends (l.after w fiber plan) where
  fiber := l.after_fiber w fiber plan
  given := l.after_given w fiber plan
  result o ho := by
    rw [l.after_result w fiber plan]
    split
    · next heq =>
      subst heq
      rw [h.result_of_inHand hin] at ho
      cases ho
    · exact ho

/-! ### What changes in a ledger by itself -/

/-- What is known of places has to do only with what is remembered, with what has been given and
with the end of the fiber. -/
theorem Ledger.Places.extended {l l' : Ledger} {w : World} (h : l.Places w) (hl : l.Extends l')
    (hlast : l'.last = l.last) (hasked : l.asked ⊆ l'.asked) : l'.Places w := by
  obtain ⟨fiber, names, last, asked, result, given, pending⟩ := l
  obtain ⟨fiber', names', last', asked', result', given', pending'⟩ := l'
  obtain rfl : fiber' = fiber := hl.fiber
  obtain rfl : last' = last := hlast
  obtain rfl : given' = given := hl.given
  exact ⟨h.parked, fun hp hstate => (h.early hp hstate).extended hl,
    fun htask hwait => (h.ready htask hwait).extended hl, h.once, h.served,
    fun hp hregistration => hasked (h.asked hp hregistration)⟩

namespace Ledger.Holds

variable {l : Ledger} {w w' : World} {fiber : FiberId}

/-- What is remembered of a fiber in hand is free. -/
theorem remember (h : l.Holds w) (hin : w.InHand fiber) (wait : Option Wait) :
    (l.remember fiber wait).Holds w := by
  have hextends : l.Extends (l.remember fiber wait) := ⟨rfl, rfl, fun _ ho => ho⟩
  refine ⟨⟨h.names, ⟨fun {s p run c} hp hstate => ?_,
    fun hp hstate => (h.places.early hp hstate).extended hextends,
    fun {task wait'} htask hwait => ?_, h.places.once, h.places.served, h.places.asked⟩, h.promises,
    h.attends, fun {f} hf => ?_⟩,
    h.shelf.of_given rfl (List.Subset.refl _) rfl rfl, h.reports⟩
  · have hne : p.fiber ≠ fiber := by
      intro heq
      have hrun := hin.absent hp heq
      rw [hstate] at hrun
      cases hrun
    exact (if_neg hne).trans (h.places.parked hp hstate)
  · have hlast : l.last task.fiber = some wait' := (if_neg (hin.not_ready htask)).symm.trans hwait
    exact (h.places.ready htask hlast).extended hextends
  · have hne : f ≠ fiber := by
      rintro rfl
      have hphase := hin.phase
      rw [World.phase, hf] at hphase
      cases hphase
    exact (if_neg hne).trans (h.unborn hf)

/-- More is about to be told. -/
theorem expect (h : l.Holds w) (more : List Observer) : (l.expect more).Holds w :=
  ⟨⟨h.names, h.places.extended ⟨rfl, rfl, fun _ ho => ho⟩ rfl (List.Subset.refl _), h.promises,
    fun hp hstate ho => (h.attends hp hstate ho).imp_left (List.mem_append_right _), h.unborn⟩,
    h.shelf.of_given rfl (List.Subset.refl _) rfl rfl, h.reports⟩

/-- More places at which the fiber is waited for are entered. -/
theorem await (h : l.Holds w) (more : List (SuspensionId × ErrorType)) : (l.await more).Holds w :=
  have hmore : l.asked ⊆ more ++ l.asked := List.subset_append_right more l.asked
  ⟨⟨h.names, h.places.extended ⟨rfl, rfl, fun _ ho => ho⟩ rfl hmore, h.promises, h.attends,
    h.unborn⟩,
    h.shelf.of_given rfl (List.map_subset Prod.snd hmore) rfl rfl, h.reports⟩

/-- Somebody has been told, and does not wait any longer unless nothing has been decided by it. -/
theorem dismiss {o : Observer} {os : List Observer} (h : (l.expect (o :: os)).Holds w)
    (htold : ∀ {s p}, w.suspension? s = some p → o ∈ p.registration.observers s l.fiber →
      p.state.isOver = true ∨ l.Waives o) : (l.expect os).Holds w := by
  refine ⟨⟨h.names, h.places.extended ⟨rfl, rfl, fun _ ho => ho⟩ rfl (List.Subset.refl _),
    h.promises, fun {s p run c o'} hp hstate ho' => ?_, h.unborn⟩,
    h.shelf.of_given rfl (List.Subset.refl _) rfl rfl, h.reports⟩
  rcases h.attends hp hstate ho' with hmem | hlater
  · rcases List.mem_cons.mp hmem with rfl | hmem
    · rcases htold hp ho' with hover | hwaives
      · rw [hstate] at hover
        cases hover
      · exact Or.inr (Or.inr hwaives)
    · exact Or.inl hmem
  · exact Or.inr hlater

/-! ### A new place -/

/-- A place is made. -/
theorem opened (h : l.Holds w) (fiber : FiberId) (allowed : Bool) {registration : Registration}
    (hasked : ∀ type, registration = .awaitExit l.fiber type →
      (⟨w.suspensions.next⟩, type) ∈ l.asked) :
    l.Holds (w.newSuspension fiber allowed registration).2 := by
  have hlater := Later.opened w fiber allowed registration
  have hrecords := w.quiet_newSuspension fiber allowed registration
  refine ⟨⟨h.names, h.places.opened fiber allowed hasked, ⟨fun {a} ha => ?_,
    fun {f r o} hr ho => ?_⟩, fun {s p run c o} hp hstate ho => ?_, fun {f} hf => ?_⟩, ?_,
    h.reports⟩
  · obtain ⟨p, millis, hp, hregistration⟩ := h.promises.alarms ha
    obtain ⟨state, hp'⟩ := hlater.preserves.place hp
    exact ⟨_, millis, hp', hregistration⟩
  · obtain ⟨r₀, hr₀, hobservers⟩ := hrecords.observers hr
    exact (h.promises.observers hr₀ (hobservers ▸ ho)).preserved hlater.preserves
  · rw [World.suspension?_newSuspension] at hp
    split at hp
    · obtain rfl := Option.some.inj hp
      cases hstate
    · exact (h.attends hp hstate ho).imp_right (Or.imp_left hrecords.willTell)
  · exact h.unborn (hrecords.absent hf)
  · refine h.shelf.preserved hlater.preserves (hrecords.isFinished _) ?_ rfl
    have hexit := World.exit?_modifyFiber
      { w with suspensions := w.suspensions.push ⟨fiber, allowed, registration, .registering⟩ }
      fiber l.fiber fun f => { f with suspension := some ⟨w.suspensions.next⟩ }
    refine hexit.trans ?_
    split
    · next heq => rw [heq, Store.exit?]
    · rfl

end Ledger.Holds

/-! ### Waiting -/

namespace Ledger

variable {l : Ledger} {w : World} {fiber : FiberId}

/-- A fiber is parked for its last wait, and is going to be told of the fiber of the ledger. -/
theorem Holds.parkAt (h : l.Holds w) {s : SuspensionId} {place : Suspension}
    {run : RunState} (hplace : w.suspension? s = some place) (hstate : place.state = .registering)
    (hfiber : place.fiber = fiber) (hlast : l.last fiber = some ⟨s, place.registration, run⟩)
    (hattends : ∀ o ∈ place.registration.observers s l.fiber,
      o ∈ l.pending ∨ w.WillTell l.fiber o ∨ l.Waives o)
    {onInterrupt : Canceler} (hparked : (w.setSuspension s (.waiting run onInterrupt)).Orderly) :
    ∃ more, (l.give more).Holds (w.parkAt fiber s run onInterrupt) ∧
      Later more w (w.parkAt fiber s run onInterrupt) := by
  subst hfiber
  have hself : (w.setSuspension s (.waiting run onInterrupt)).suspension? s =
      some { place with state := .waiting run onInterrupt } := by
    rw [World.suspension?_setSuspension, if_pos rfl, hplace, Option.map_some]
  have hlater : Later [] w (w.setSuspension s (.waiting run onInterrupt)) := by
    refine .setSuspension hplace (by simp) fun hover => ?_
    rw [hstate] at hover
    cases hover
  have hplaces : (l.give []).Places (w.setSuspension s (.waiting run onInterrupt)) := by
    refine h.places.setSuspension hplace hlater (by simp) (by simp) (fun heq => ?_)
      fun heq => by cases heq
    obtain ⟨rfl, -⟩ := SuspensionState.waiting.inj heq
    exact hlast
  have htracks : (l.give []).Tracks (w.setSuspension s (.waiting run onInterrupt)) := by
    refine h.toTracks.of_places rfl hplaces hlater fun {t p run' c} hp _ => ?_
    rw [World.suspension?_setSuspension] at hp
    split at hp
    · next heq =>
      subst heq
      rw [hplace] at hp
      obtain rfl := Option.some.inj hp
      exact Or.inr hattends
    · exact Or.inl hp
  rw [give_nil] at htracks
  have hholds := h.of_tracks htracks rfl hlater.preserves
  unfold World.parkAt
  simp only
  split
  · next hstop =>
    have hallowed : ∀ run', (SuspensionState.waiting run onInterrupt).run? = some run' →
        run'.interruptible = true := by
      intro run' hrun
      obtain rfl := Option.some.inj hrun
      exact (Bool.and_eq_true_iff.mp hstop).1
    obtain ⟨more, hmore, hlater'⟩ :=
      (World.relays_interruptAt hparked hself rfl hallowed (Bool.and_eq_true_iff.mp hstop).2
        _).holds hholds
    exact ⟨more, hmore, by simpa using hlater.trans hlater'⟩
  · exact ⟨[], by rwa [give_nil], hlater⟩

/-- A place is made, and the wait at it is registered. -/
theorem Holds.registered (h : l.Holds w) (hw : w.Orderly) (hin : w.InHand fiber) (run : RunState)
    (registration : Registration) {s : SuspensionId} {w₁ : World}
    (hnew : w.newSuspension fiber run.interruptible registration = (s, w₁)) :
    ∃ more, ((l.after w fiber (.wait run registration)).give more).Holds
        (w₁.register s registration).2 ∧
      Later more w (w₁.register s registration).2 ∧
      ∀ p, (w₁.register s registration).2.suspension? s = some p → p.state = .registering →
        ∀ o ∈ registration.observers s l.fiber,
          o ∈ (l.after w fiber (.wait run registration)).pending ∨
            (w₁.register s registration).2.WillTell l.fiber o ∨
              ((l.after w fiber (.wait run registration)).give more).Waives o := by
  obtain rfl : (w.newSuspension fiber run.interruptible registration).1 = s := by rw [hnew]
  obtain rfl : (w.newSuspension fiber run.interruptible registration).2 = w₁ := by rw [hnew]
  have hentered : (l.after w fiber (.wait run registration)).Holds w :=
    ((h.remember hin _).expect _).await _
  have hasked : ∀ type, registration = .awaitExit l.fiber type →
      (⟨w.suspensions.next⟩, type) ∈ (l.after w fiber (.wait run registration)).asked := by
    rintro type rfl
    refine List.mem_append_left _ ?_
    rw [Plan.asked, if_pos rfl]
    exact List.mem_singleton_self _
  have hplace : (w.newSuspension fiber run.interruptible registration).2.suspension?
      (w.newSuspension fiber run.interruptible registration).1 =
        some ⟨fiber, run.interruptible, registration, .registering⟩ := by
    rw [World.suspension?_newSuspension, if_pos rfl]
  have hopened : w.Chronicles (w.newSuspension fiber run.interruptible registration).2 :=
    ⟨_, .opened fiber run.interruptible registration hin.absent⟩
  have hregister := World.relays_register (hopened.orderly hw) hplace rfl
    fun hch he => hw.out_of_next fiber run.interruptible registration hch he
  obtain ⟨more, hmore, hlater⟩ :=
    hregister.holds (hentered.opened fiber run.interruptible hasked)
  refine ⟨more, hmore, by simpa using (Later.opened w fiber _ _).trans hlater, ?_⟩
  intro p hp hstate o ho
  rcases World.posts_of_registering hplace ho hp hstate with hnone | htell | ⟨hdone, hfailed, hwho⟩
  · -- there is no such fiber
    have hunborn : w.store.fiber? l.fiber = none :=
      (w.quiet_newSuspension fiber run.interruptible registration).absent hnone
    refine Or.inl (List.mem_append_left _ ?_)
    rwa [strays, if_pos hunborn]
  · exact Or.inr (Or.inl htell)
  · exact Or.inr (Or.inr ⟨hmore.shelf.succeeded hdone hfailed, hwho⟩)

/-- What comes of a wait. -/
structure Parks (l : Ledger) (more : List (Option SuspensionId × Exit Value Value)) (w : World)
    (fiber : FiberId) (wait : Wait) (result : Option Step × World) : Prop where
  holds : (l.give more).Holds result.2
  later : Later more w result.2
  /-- It has a place of its own. -/
  place : ∃ p, result.2.suspension? wait.place = some p ∧ p.fiber = fiber ∧
    p.registration = wait.registration
  /-- The fiber goes on from it at once, if it does. -/
  goes : ∀ {step}, result.1 = some step → (l.give more).GoesOn result.2 wait wait.run step

/-- A wait that is over before the fiber has been parked. -/
theorem Parks.of_told {more : List (Option SuspensionId × Exit Value Value)} {wait : Wait}
    {w₂ : World} {allowed : Bool} {state : SuspensionState} (h : (l.give more).Holds w₂)
    (hlater : Later more w w₂)
    (hp : w₂.suspension? wait.place = some ⟨fiber, allowed, wait.registration, state⟩) {o : Outcome}
    (htold : (l.give more).Told w₂.store wait.place wait.registration o) :
    l.Parks more w fiber wait (some (.ofOutcome o), w₂.setSuspension wait.place .over) where
  holds := h.vacate hp
  later := by simpa using hlater.trans (h.toTracks.vacate hp).2
  place := by
    refine ⟨⟨fiber, allowed, wait.registration, .over⟩, ?_, rfl, rfl⟩
    rw [World.suspension?_setSuspension, if_pos rfl, hp, Option.map_some]
  goes {step} hstep := by
    obtain rfl := Option.some.inj hstep
    exact .told htold

/-- **A wait keeps a ledger**: the fiber is parked for it, or goes on from it at once. -/
theorem Holds.park (h : l.Holds w) (hw : w.Orderly) (hin : w.InHand fiber) (run : RunState)
    (registration : Registration) :
    ∃ more, (l.after w fiber (.wait run registration)).Parks more w fiber
      ⟨⟨w.suspensions.next⟩, registration, run⟩ (w.park fiber run registration) := by
  have hlast : (l.after w fiber (.wait run registration)).last fiber =
      some ⟨⟨w.suspensions.next⟩, registration, run⟩ := if_pos rfl
  have hnext : (w.newSuspension fiber run.interruptible registration).1 =
      ⟨w.suspensions.next⟩ := rfl
  simp only [World.park]
  generalize hnew : w.newSuspension fiber run.interruptible registration = new at hnext
  obtain ⟨s, w₁⟩ := new
  simp only at hnext
  rw [← hnext] at hlast ⊢
  obtain ⟨htold, ⟨state, hp, hvacant⟩, ⟨r, hr, hs⟩, hfits⟩ :=
    World.registered_newSuspension hw hin run.interruptible registration hnew
  obtain ⟨more, hmore, hlater, hattends⟩ := h.registered hw hin run registration hnew
  have hfree := fun {d} => @World.isFree_of_register_error w₁ s registration d
  have hnascent := World.nascent_newSuspension hnew
  have horderly := htold.orderly hw
  clear htold
  simp only at horderly hfits ⊢
  generalize w₁.register s registration = registered at *
  obtain ⟨result, w₂⟩ := registered
  simp only at *
  have hover : ∀ o, ((l.after w fiber (.wait run registration)).give more).Told w₂.store s
      registration o → ∃ more, (l.after w fiber (.wait run registration)).Parks more w fiber
        ⟨s, registration, run⟩ (some (.ofOutcome o), w₂.setSuspension s .over) := fun o htold =>
    ⟨more, .of_told hmore hlater hp htold⟩
  cases result with
  | error d => exact hover (.halt (.of (.die d))) (told_of_isFree (hfree rfl) _ _ _ _)
  | ok onInterrupt =>
    rw [hp, Option.map_some]
    cases state with
    | registering =>
      have hparked : (w₂.setSuspension s (.waiting run onInterrupt)).Orderly :=
        World.Chronicles.orderly ⟨_, .parked run hp rfl hr hs (hfits rfl)⟩ horderly
      obtain ⟨more', hmore', hlater'⟩ := hmore.parkAt hp rfl rfl hlast (hattends _ hp rfl) hparked
      rw [give_give] at hmore'
      obtain ⟨state, hp'⟩ := hlater'.preserves.place hp
      exact ⟨more ++ more', hmore', hlater.trans hlater', ⟨_, hp', rfl, rfl⟩,
        fun heq => by cases heq⟩
    | waiting run' onInterrupt' => cases hvacant
    | early o => exact hover o (hmore.places.early hp rfl)
    | _ =>
      -- only a wait that may end with anything can be over already
      cases hothers : registration.isFree with
      | true => exact hover (.halt (.of (.die _))) (told_of_isFree hothers _ _ _ _)
      | false =>
        obtain ⟨p, hp', hstate⟩ := hnascent hothers
        obtain rfl := Option.some.inj (hp.symm.trans hp')
        rcases hstate with heq | ⟨o, heq⟩ <;> cases heq

/-! ### The end of a fiber -/

/-- Everybody who asked for it is told that a fiber has finished. -/
theorem Holds.notifyAll {observers : List Observer} (hfinished : w.store.isFinished fiber = true)
    (hfits : ∀ o ∈ observers, o.Fits w fiber)
    (h : (l.expect observers).Holds w) :
    ∃ more, (l.give more).Holds (observers.foldl (fun w o => w.notify fiber o) w) ∧
      Later more w (observers.foldl (fun w o => w.notify fiber o) w) := by
  induction observers generalizing l w with
  | nil => exact ⟨[], by rwa [give_nil], .of_suspensions rfl (.refl _)⟩
  | cons o observers ih =>
    have ho := hfits o List.mem_cons_self
    obtain ⟨more, hmore, hlater⟩ := (World.relays_notify hfinished ho).holds h
    have htold : ((l.give more).expect observers).Holds (w.notify fiber o) := by
      refine Holds.dismiss (o := o) hmore fun {s p} hp hmem => ?_
      obtain ⟨p₀, hp₀, hmem₀⟩ := ho.place hmem
      obtain ⟨state, hp'⟩ := hlater.preserves.place hp₀
      obtain rfl := Option.some.inj (hp'.symm.trans hp)
      obtain rfl : fiber = l.fiber := Registration.eq_of_mem_observers hmem₀ hmem
      rcases World.isOver_of_notify hp₀ hmem₀ with hover | ⟨heq, hfailed, hwho⟩
      · rw [World.isOver, hp', Option.any_some] at hover
        exact Or.inl hover
      · rw [← heq] at hfinished hfailed
        exact Or.inr ⟨hmore.shelf.succeeded hfinished hfailed, hwho⟩
    obtain ⟨more', hmore', hlater'⟩ := ih (hlater.remembers.finished _ hfinished)
      (fun o' ho' => (hfits o' (List.mem_cons_of_mem _ ho')).preserved hlater.preserves) htold
    rw [give_give] at hmore'
    exact ⟨_, hmore', hlater.trans hlater'⟩

/-- **The end of a fiber is put down**, and its exit is on the shelf. -/
theorem Holds.finish (h : l.Holds w) {r : FiberRecord} (hr : w.store.fiber? fiber = some r)
    (hgoing : r.finished = false) (outcome : Outcome) :
    ((l.ended fiber outcome).expect r.observers).Holds (w.finish fiber outcome) ∧
      Later [] w (w.finish fiber outcome) := by
  have hrecord := fun f => w.store.fiber?_modifyFiber fiber f fun f =>
    { f with exit := some outcome, finished := true, suspension := none, observers := [] }
  have hself : (w.finish fiber outcome).store.fiber? fiber = some
      { r with exit := some outcome, finished := true, suspension := none, observers := [] } :=
    (hrecord fiber).trans (by rw [if_pos rfl, hr, Option.map_some])
  have hother : ∀ {f}, f ≠ fiber →
      (w.finish fiber outcome).store.fiber? f = w.store.fiber? f :=
    fun {f} hne => (hrecord f).trans (if_neg hne)
  have hremembers : w.store.Remembers (w.finish fiber outcome).store :=
    .modifyFiber w.store fiber (fun _ _ => rfl) fun _ hr => hr
  have hlater : Later [] w (w.finish fiber outcome) := .of_suspensions rfl hremembers
  have hplaces : l.Places (w.finish fiber outcome) := h.places.data rfl rfl hremembers
  -- it has not ended before
  have hresult : ∀ o, l.result = some o → (l.ended fiber outcome).result = some o := by
    intro o ho
    refine (if_neg ?_).trans ho
    rintro rfl
    rw [h.result_of_going hr hgoing] at ho
    cases ho
  refine ⟨⟨⟨h.names, hplaces.extended ⟨rfl, rfl, hresult⟩ rfl (List.Subset.refl _),
    ⟨h.promises.alarms, fun {f r' o} hr' ho => ?_⟩, fun {s p run c o} hp hstate ho => ?_,
    fun {f} hf => ?_⟩, ?_, h.reports⟩, hlater⟩
  · by_cases heq : f = fiber
    · rw [heq, hself] at hr'
      obtain rfl := Option.some.inj hr'
      cases ho
    · rw [hother heq] at hr'
      exact h.promises.observers hr' ho
  · rcases h.attends hp hstate ho with hpending | ⟨r', hr', hgoing', hmem⟩ | hwaives
    · exact Or.inl (List.mem_append_right _ hpending)
    · by_cases heq : l.fiber = fiber
      · rw [heq, hr] at hr'
        obtain rfl := Option.some.inj hr'
        exact Or.inl (List.mem_append_left _ hmem)
      · exact Or.inr (Or.inl ⟨r', (hother heq).trans hr', hgoing', hmem⟩)
    · exact Or.inr (Or.inr (hwaives.extended ⟨rfl, rfl, hresult⟩))
  · refine h.unborn ?_
    by_cases heq : f = fiber
    · rw [heq, hself] at hf
      cases hf
    · rwa [hother heq] at hf
  · by_cases heq : fiber = l.fiber
    · subst heq
      have hbefore : w.store.isFinished l.fiber = false := by
        rw [Store.isFinished, hr, Option.any_some, hgoing]
      cases h.shelf with
      | going _ _ _ hgiven =>
        have hdone : (w.finish l.fiber outcome).store.isFinished l.fiber = true := by
          rw [Store.isFinished, hself, Option.any_some]
        have hexit : (w.finish l.fiber outcome).store.exit? l.fiber = some outcome := by
          rw [Store.exit?, hself, Option.bind_some]
        exact @Shelf.kept _ _ outcome [] (if_pos rfl) hdone hexit (by simp) hgiven
      | kept _ hdone _ _ _ | taken _ hdone _ _ _ _ _ =>
        rw [hbefore] at hdone
        cases hdone
    · have hsame : (w.finish fiber outcome).store.fiber? l.fiber = w.store.fiber? l.fiber :=
        hother fun hne => heq hne.symm
      refine (h.shelf.preserved hlater.preserves ?_ ?_ rfl).of_given rfl (List.Subset.refl _)
        (if_neg heq) rfl
      · rw [Store.isFinished, Store.isFinished, hsame]
      · rw [Store.exit?, Store.exit?, hsame]

/-- **The end of a fiber keeps a ledger.** -/
theorem Holds.complete (h : l.Holds w) (hw : w.Orderly) (hsound : w.Sound) (hin : w.InHand fiber)
    (outcome : Outcome) :
    ∃ more, ((l.after w fiber (.finish outcome)).give more).Holds (w.complete fiber outcome) ∧
      Later more w (w.complete fiber outcome) := by
  obtain ⟨record, hr, -⟩ := Option.map_eq_some_iff.mp hin.phase
  have hborn : (w.store.fiber? fiber).isSome := by
    rw [hr]
    rfl
  -- the children are interrupted before the end is put down
  obtain ⟨more, hmore, hlater⟩ := (World.relays_dismiss hw hsound fiber).holds (h.remember hin none)
  obtain ⟨events, hcarries⟩ := (World.influences_dismiss hsound fiber).carries
  obtain ⟨r, hr', hgoing⟩ := Option.map_eq_some_iff.mp (hcarries.inHand hin).1.phase
  have haudience : w.audience fiber = r.observers := by
    rw [World.audience, hr']
    rfl
  obtain ⟨hfinish, hlater'⟩ := hmore.finish hr' hgoing outcome
  obtain ⟨more', hmore', hlater''⟩ := hfinish.notifyAll
    (w.isFinished_ending_self fiber outcome hborn) fun o ho =>
      (hmore.promises.observers hr' ho).preserved hlater'.preserves
  have hall := (hlater.trans hlater').trans hlater''
  rw [List.append_nil] at hall
  have hsame : (l.after w fiber (.finish outcome)).give (more ++ more') =
      (((l.remember fiber none).give more).ended fiber outcome).give more' := by
    rw [← give_give]
    rfl
  rw [World.complete_eq hborn, haudience]
  exact ⟨more ++ more', hsame ▸ hmore', hall⟩

end Ledger

/-! ### New fibers and alarms -/

namespace World

variable {w : World}

/-- A fiber is created. -/
theorem relays_push (w : World) {r : FiberRecord} (hfinished : r.finished = false)
    (hexit : r.exit = none) (hobservers : ∀ o ∈ r.observers, ∃ type, o = .report type) :
    w.Relays { w with store := { w.store with fibers := w.store.fibers.push r } } := by
  have hfresh : w.store.fiber? w.store.nextFiber = none := Numbered.get?_next _
  have hrecord := fun f => w.store.fiber?_push r f
  have hkept : ∀ {f}, f ≠ w.store.nextFiber →
      Store.fiber? { w.store with fibers := w.store.fibers.push r } f = w.store.fiber? f :=
    fun {f} hne => (hrecord f).trans (if_neg hne)
  have hremembers : w.store.Remembers { w.store with fibers := w.store.fibers.push r } := by
    refine ⟨fun f hf => ?_, fun f hf => ?_⟩ <;> by_cases heq : f = w.store.nextFiber
    · rw [heq, Store.isFinished, hfresh] at hf
      cases hf
    · rwa [Store.isFinished, hkept heq]
    · rw [heq, Store.isInterrupted, hfresh] at hf
      cases hf
    · rwa [Store.isInterrupted, hkept heq]
  refine .nothing (.of_suspensions rfl hremembers) fun {l} hl => ?_
  refine ⟨⟨hl.names, hl.places.data rfl rfl hremembers, ⟨hl.promises.alarms, fun {f r' o} hr' ho => ?_⟩,
    fun {s p run c o} hp hstate ho => ?_, fun {f} hf => ?_⟩, ?_, hl.reports⟩
  · replace hr' := (hrecord f).symm.trans hr'
    split at hr'
    · obtain rfl := Option.some.inj hr'
      obtain ⟨type, rfl⟩ := hobservers o ho
      trivial
    · exact hl.promises.observers hr' ho
  · refine (hl.attends hp hstate ho).imp_right (Or.imp_left ?_)
    rintro ⟨r', hr', htell⟩
    have hne : l.fiber ≠ w.store.nextFiber := by
      intro heq
      rw [heq, hfresh] at hr'
      cases hr'
    exact ⟨r', (hkept hne).trans hr', htell⟩
  · refine hl.unborn ?_
    replace hf := (hrecord f).symm.trans hf
    split at hf
    · cases hf
    · exact hf
  · by_cases heq : l.fiber = w.store.nextFiber
    · have hbefore : w.store.isFinished l.fiber = false := by
        rw [Store.isFinished, heq, hfresh]
        rfl
      have hself := (hrecord l.fiber).trans (if_pos heq)
      cases hl.shelf with
      | going hresult _ _ hgiven =>
        refine .going hresult ?_ ?_ hgiven
        · rw [Store.isFinished, hself, Option.any_some, hfinished]
        · rw [Store.exit?, hself, Option.bind_some, hexit]
      | kept _ hdone' _ _ _ | taken _ hdone' _ _ _ _ _ =>
        rw [hbefore] at hdone'
        cases hdone'
    · refine hl.shelf.preserved (.of_suspensions rfl) ?_ ?_ rfl
      · rw [Store.isFinished, Store.isFinished, hkept heq]
      · rw [Store.exit?, Store.exit?, hkept heq]

/-- A new fiber is ready with its first step. -/
theorem relays_birth {w' : World} {r : FiberRecord} (hfinished : r.finished = false)
    (hexit : r.exit = none) (hobservers : ∀ o ∈ r.observers, ∃ type, o = .report type)
    (h : World.Relays { w with store := { w.store with fibers := w.store.fibers.push r } } w')
    (run : RunState) (step : Step) : w.Relays (w'.schedule w.store.nextFiber run step) := by
  refine ⟨fun {l} hl => ?_⟩
  obtain ⟨more, hmore, hlater⟩ := ((w.relays_push hfinished hexit hobservers).trans h).holds hl
  -- it has not begun to wait
  have hnone : (l.give more).last w.store.nextFiber = none := hl.unborn (Numbered.get?_next _)
  refine ⟨more, hmore.schedule fun wait hwait => ?_, ?_⟩
  · rw [hnone] at hwait
    cases hwait
  · have hready : Ledger.Later [] w' (w'.schedule w.store.nextFiber run step) :=
      .of_suspensions rfl (.refl _)
    simpa using hlater.trans hready

theorem relays_addChild (w : World) (parent child : FiberId) :
    w.Relays (w.addChild parent child) :=
  relays_modifyFiber _ _ (fun _ => rfl) (fun _ => rfl) fun _ hr => hr

theorem relays_fork (w : World) (parent : FiberId) (run : RunState) (child : Instruction)
    (daemon : Bool) : w.Relays (w.fork parent run child daemon).2 := by
  cases daemon with
  | true => exact relays_birth (w := w) (r := {}) rfl rfl (by simp) (.refl _) _ _
  | false =>
    exact relays_birth (w := w) (r := {}) rfl rfl (by simp)
      (relays_addChild { w with store := { w.store with fibers := w.store.fibers.push {} } } parent _) _ _

theorem relays_startRoot (budget : Nat) (w : World) (effect : Instruction) (environment : Value)
    (report : Option ErrorType) :
    w.Relays (Machine.startRoot { budget, world := w } effect environment report).2.world := by
  refine relays_birth (w := w) rfl rfl (fun o ho => ?_) (.refl _) _ _
  obtain ⟨type, -, rfl⟩ := List.mem_map.mp (Option.toList_map .. ▸ ho)
  exact ⟨type, rfl⟩

/-- An alarm wakes the one who scheduled it. -/
theorem relays_ring {budget : Nat} {m : Machine}
    (h : Machine.ring { budget, world := w } = some m) : w.Relays m.world := by
  unfold Machine.ring at h
  split at h
  · cases h
  · next alarm alarms hfirst =>
    obtain rfl := Option.some.inj h
    simp only [Alarms.first?] at hfirst
    split at hfirst
    · cases hfirst
    · next a pending hpending =>
      obtain ⟨rfl, rfl⟩ := Prod.mk.inj (Option.some.inj hfirst)
      refine ⟨fun {l} hl => ?_⟩
      have hmem : ∀ {b}, b ∈ a :: pending → b ∈ w.store.alarms.pending := fun hb => hpending ▸ hb
      obtain ⟨p, millis, hp, hregistration⟩ := hl.promises.alarms (hmem List.mem_cons_self)
      let time : World := { w with store := { w.store with
        alarms := { w.store.alarms with pending }, now := max w.store.now a.deadline } }
      have htime : w.Relays time :=
        .quiet ⟨rfl, rfl, rfl, fun hb => hmem (List.mem_cons_of_mem _ hb), .of_fibers rfl,
          fun _ => rfl⟩ rfl fun _ => rfl
      have hp' : time.suspension? a.payload = some p := hp
      have hresumed : time.Relays (time.resume a.payload (.done .unit)).2 := by
        refine relays_resume_answered hp' ?_ (fun fiber type heq => ?_) (fun _ children heq => ?_)
          fun _ children i heq => ?_
        · rw [hregistration]
          rfl
        all_goals cases hregistration.symm.trans heq
      exact (htime.trans hresumed).holds hl

end World

/-! ### Plans -/

namespace Ledger

variable {l : Ledger} {w : World} {fiber : FiberId}

/-- What comes of a plan in a ledger. -/
structure Advances (l : Ledger) (more : List (Option SuspensionId × Exit Value Value)) (w : World)
    (fiber : FiberId) (plan : Plan) (result : Progress × World) : Prop where
  holds : ((l.after w fiber plan).give more).Holds result.2
  later : Later more w result.2
  /-- A wait has a place of its own. -/
  place : ∀ {wait}, plan.wait? w = some wait → w.suspension? wait.place = none ∧
    ∃ p, result.2.suspension? wait.place = some p ∧ p.fiber = fiber ∧
      p.registration = wait.registration
  /-- A fiber goes on from its wait at once, if it does. -/
  goes : ∀ {run step wait}, result.1 = some (run, step) → plan.wait? w = some wait →
    ((l.after w fiber plan).give more).GoesOn result.2 wait run step

/-- **Every plan keeps a ledger.** -/
theorem Holds.carryOut (h : l.Holds w) (hw : w.Orderly) (hsound : w.Sound) (hin : w.InHand fiber)
    (plan : Plan) : ∃ more, l.Advances more w fiber plan (w.carryOut fiber plan) := by
  have hplain : ∀ {result : Progress × World}, plan.wait? w = none → plan.outcome? = none →
      w.Relays result.2 → ∃ more, l.Advances more w fiber plan result := by
    intro result hwait houtcome hrelays
    obtain ⟨more, hmore, hlater⟩ := hrelays.holds (h.remember hin none)
    refine ⟨more, by rwa [l.after_eq w fiber hwait houtcome], hlater, fun heq => ?_,
      fun _ heq => ?_⟩
    · rw [hwait] at heq
      cases heq
    · rw [hwait] at heq
      cases heq
  cases plan with
  | proceed run step => exact hplain rfl rfl (.refl w)
  | finish outcome =>
    obtain ⟨more, hmore, hlater⟩ := h.complete hw hsound hin outcome
    refine ⟨more, hmore, hlater, fun heq => ?_, fun _ heq => ?_⟩ <;> cases heq
  | build run code => exact hplain rfl rfl (code.relays_run hw)
  | translate run code => exact hplain rfl rfl (code.relays_run hw)
  | compute run code => exact hplain rfl rfl (code.relays_run hw)
  | update run cell f => exact hplain rfl rfl (World.relays_attemptUpdate hw cell f)
  | release run id exit => exact hplain rfl rfl (World.relays_buildRelease hw id exit)
  | releaseLease run lease exit =>
    refine hplain rfl rfl ?_
    rcases w.carryOut_releaseLease fiber run lease exit with heq | ⟨release, leases, heq⟩ <;>
      rw [heq]
    · exact .refl w
    · have hleases : w.Relays { w with store := { w.store with leases } } :=
        .unrelated rfl rfl rfl rfl rfl rfl
      have hchronicles : w.Chronicles { w with store := { w.store with leases } } :=
        .unrelated rfl rfl rfl rfl
      exact hleases.trans (World.relays_buildRelease (hchronicles.orderly hw) release exit)
  | reserve run v release => exact hplain rfl rfl (.unrelated rfl rfl rfl rfl rfl rfl)
  | fork run child daemon => exact hplain rfl rfl (w.relays_fork fiber run child daemon)
  | signal run target => exact hplain rfl rfl (World.relays_interrupt hw hsound target fiber)
  | wait run registration =>
    obtain ⟨more, hmore⟩ := h.park hw hin run registration
    refine ⟨more, ?_⟩
    simp only [World.carryOut]
    have hnext : w.suspension? ⟨w.suspensions.next⟩ = none := Numbered.get?_next _
    generalize w.park fiber run registration = parked at hmore
    obtain ⟨progress, w'⟩ := parked
    cases progress with
    | none =>
      refine ⟨hmore.holds, hmore.later, fun {wait} heq => ?_, fun heq => by cases heq⟩
      obtain rfl := Option.some.inj heq
      exact ⟨hnext, hmore.place⟩
    | some step =>
      refine ⟨hmore.holds, hmore.later, fun {wait} heq => ?_, fun {run' step' wait} hgo heq => ?_⟩
      · obtain rfl := Option.some.inj heq
        exact ⟨hnext, hmore.place⟩
      · obtain rfl := Option.some.inj heq
        obtain ⟨rfl, rfl⟩ := Prod.mk.inj (Option.some.inj hgo)
        exact hmore.goes rfl
  | makeWay run =>
    have hready : Later [] w (w.schedule fiber run (.value .unit)) :=
      .of_suspensions rfl (.refl _)
    refine ⟨[], ?_, hready, fun heq => ?_, fun _ heq => ?_⟩
    · rw [give_nil, l.after_eq w fiber rfl rfl]
      refine (h.remember hin none).schedule fun wait hwait => ?_
      cases (if_pos rfl).symm.trans hwait
    · cases heq
    · cases heq

end Ledger

end Fibers
