import Fibers.Proofs.Custody

/-!
# How an iteration hands the rest of a fiber over

A fiber that iterates is in hand: the world holds nothing of it.  What it does to the others
carries them, in the sense of `World.Carries`; the creation of a fiber does so too.  In the
end its own rest is in hand again, or it has been handed over to the queue of the ready
fibers or to a waiting place, or the fiber has finished.

`World.HandsOver` says all of this at once, and every plan is shown to do it.

## Main definitions

* `World.HandsOver` — a change by which a fiber that is in hand is handed over.

## Main results

* `World.carries_fork` — the creation of a fiber.
* `World.handsOver_schedule`, `World.handsOver_complete`, `World.handsOver_park` — the ways
  to hand a fiber over.
* `World.carryOut_handsOver` — **every plan hands over its fiber.**
-/

namespace Fibers

/-! ### Handing over -/

/-- A change by which `fiber`, which is in hand, is handed over: it then stands as `after`
says, with `hand` still in hand, and may be woken at once.  All others are carried. -/
structure World.HandsOver (w : World) (fiber : FiberId) (events : List (FiberId × Event))
    (after : Standing) (hand : List Standing) (w' : World) : Prop where
  sound : w'.Sound
  no_doing : ∀ e ∈ events, e.2.isDoing = false
  requests : ∀ other, w.requests other <+: w'.requests other
  other : ∀ {hand f a}, f ≠ fiber → w.Stands hand f a →
    ∃ b, w'.Stands hand f b ∧ Life f a (eventsOf f events) b
  self : w.InHand fiber →
    ∃ b, w'.Stands hand fiber b ∧ Life fiber after (eventsOf fiber events) b

/-- What is in hand of a fiber after an iteration. -/
def Progress.hand : Progress → List Standing
  | some (run, step) => [.active run step]
  | none => []

namespace World

variable {w w' w'' : World} {fiber : FiberId} {events es es' : List (FiberId × Event)}
  {after : Standing} {hand : List Standing}

/-- A change that carries every fiber leaves the one in hand where it is. -/
theorem Carries.handsOver (h : w.Carries events w') (hsound : w.Sound) (fiber : FiberId)
    (run : RunState) (step : Step) :
    w.HandsOver fiber events (.active run step) [.active run step] w' where
  sound := h.sound hsound
  no_doing := h.no_doing
  requests := h.requests
  other _ hst := h.stands hst
  self hin := h.stands (hin.stands run step)

theorem HandsOver.after_carries (h : w.Carries es w') (h' : w'.HandsOver fiber es' after hand w'') :
    w.HandsOver fiber (es ++ es') after hand w'' where
  sound := h'.sound
  no_doing e he := (List.mem_append.mp he).elim (h.no_doing e) (h'.no_doing e)
  requests other := (h.requests other).trans (h'.requests other)
  other hne hst := by
    obtain ⟨b, hb, hlife⟩ := h.stands hst
    obtain ⟨c, hc, hlife'⟩ := h'.other hne hb
    exact ⟨c, hc, hlife.join hlife'⟩
  self hin := by
    obtain ⟨hin', hevents⟩ := h.inHand hin
    rw [eventsOf_append, hevents]
    exact h'.self hin'

theorem HandsOver.then_carries (h : w.HandsOver fiber es after hand w') (h' : w'.Carries es' w'') :
    w.HandsOver fiber (es ++ es') after hand w'' where
  sound := h'.sound h.sound
  no_doing e he := (List.mem_append.mp he).elim (h.no_doing e) (h'.no_doing e)
  requests other := (h.requests other).trans (h'.requests other)
  other hne hst := by
    obtain ⟨b, hb, hlife⟩ := h.other hne hst
    obtain ⟨c, hc, hlife'⟩ := h'.stands hb
    exact ⟨c, hc, hlife.join hlife'⟩
  self hin := by
    obtain ⟨b, hb, hlife⟩ := h.self hin
    obtain ⟨c, hc, hlife'⟩ := h'.stands hb
    exact ⟨c, hc, hlife.join hlife'⟩

/-! ### Going to the queue -/

theorem sound_schedule (hsound : w.Sound) (fiber : FiberId) (run : RunState) (step : Step) :
    (w.schedule fiber run step).Sound := ⟨hsound.owner, hsound.status⟩

theorem handsOver_schedule (hsound : w.Sound) (fiber : FiberId) (run : RunState) (step : Step) :
    w.HandsOver fiber [] (.active run step) [] (w.schedule fiber run step) where
  sound := sound_schedule hsound fiber run step
  no_doing := by simp
  requests _ := List.prefix_refl _
  other {hand f a} hne hst := by
    refine ⟨a, ⟨hst.phase, ?_⟩, .rest⟩
    rw [held_schedule_other hne.symm]
    exact hst.tokens
  self hin := by
    refine ⟨.active run step, ⟨hin.phase, ?_⟩, .rest⟩
    rw [held_schedule_self hin.held]
    rfl

/-! ### The end -/

/-- Puts the end of a fiber down. -/
def finish (w : World) (fiber : FiberId) (outcome : Outcome) : World :=
  w.modifyFiber fiber fun f =>
    { f with exit := some outcome, finished := true, suspension := none, observers := [] }

theorem handsOver_finish (hsound : w.Sound) (fiber : FiberId) (outcome : Outcome) :
    w.HandsOver fiber [] (.ended outcome) [] (w.finish fiber outcome) where
  sound := by
    refine ⟨fun {id r s} hr hs => ?_, hsound.status⟩
    simp only [finish, modifyFiber, Store.fiber?_modifyFiber] at hr
    split at hr
    · obtain ⟨r', -, rfl⟩ := Option.map_eq_some_iff.mp hr
      cases hs
    · exact hsound.owner hr hs
  no_doing := by simp
  requests other := by
    have heq := requests_modifyFiber w fiber other (f := fun f =>
      { f with exit := some outcome, finished := true, suspension := none, observers := [] })
      fun _ => rfl
    exact heq.symm ▸ List.prefix_refl _
  other {hand f a} hne hst := by
    refine ⟨a, ⟨?_, hst.tokens⟩, .rest⟩
    rw [← hst.phase]
    simp [World.phase, finish, modifyFiber, Store.fiber?_modifyFiber, hne]
  self hin := by
    refine ⟨.ended outcome, ⟨?_, hin.held⟩, .rest⟩
    have hphase := hin.phase
    simp only [World.phase, finish, modifyFiber, Store.fiber?_modifyFiber, if_pos] at hphase ⊢
    cases hr : w.store.fiber? fiber with
    | none => simp [hr] at hphase
    | some r => rfl

theorem handsOver_complete (hsound : w.Sound) (hphase : w.phase fiber = some false)
    (outcome : Outcome) :
    ∃ events, w.HandsOver fiber events (.ended outcome) [] (w.complete fiber outcome) := by
  cases hr : w.store.fiber? fiber with
  | none => simp [phase, hr] at hphase
  | some record =>
    -- the children are interrupted before the end is put down, the observers told after it
    have hchildren : w.Influences (w.modifyFiber fiber fun f => { f with children := [] }) :=
      .modifyFiber w fiber fun _ => ⟨rfl, List.prefix_refl _, rfl, List.prefix_refl _⟩
    have hbefore := hchildren.trans
      (influences_interruptUnfinished (hchildren.sound hsound) record.children fiber)
    obtain ⟨es, hes⟩ := hbefore.carries
    have hfinish := handsOver_finish (hbefore.sound hsound) fiber outcome
    simp only [complete, hr]
    obtain ⟨es', hes'⟩ := Influences.carries <| Influences.foldl
      (fun w (observer : Observer) => w.influences_notify fiber observer) _ (finish _ fiber outcome)
    exact ⟨_, (hfinish.after_carries hes).then_carries hes'⟩

/-! ### Going to a waiting place -/

theorem suspension?_newSuspension (w : World) (fiber : FiberId) (allowed : Bool)
    (registration : Registration) (other : SuspensionId) :
    (w.newSuspension fiber allowed registration).2.suspension? other =
      if other = (w.newSuspension fiber allowed registration).1 then
        some ⟨fiber, allowed, registration, .registering⟩
      else w.suspension? other := by
  have hindex : other.index = w.suspensions.next ↔ other = ⟨w.suspensions.next⟩ := by
    cases other
    simp
  simp only [newSuspension, suspension?, modifyFiber, Numbered.get?_push, hindex]
  rfl

theorem suspension?_next (w : World) (fiber : FiberId) (allowed : Bool)
    (registration : Registration) :
    w.suspension? (w.newSuspension fiber allowed registration).1 = none :=
  Numbered.get?_next _

/-- Making a waiting place carries every fiber. -/
theorem carries_newSuspension (w : World) (fiber : FiberId) (allowed : Bool)
    (registration : Registration) :
    w.Carries [] (w.newSuspension fiber allowed registration).2 := by
  have hphase : ∀ f, (w.newSuspension fiber allowed registration).2.phase f = w.phase f :=
    fun f => phase_modifyFiber _ fiber f fun _ => rfl
  have hheld : ∀ f, (w.newSuspension fiber allowed registration).2.held f = w.held f := by
    intro f
    simp [held, ready, parked, newSuspension, modifyFiber, Numbered.push, Suspension.held,
      SuspensionState.run?]
  refine ⟨fun hsound => ⟨fun {id r s} hr hs => ?_, fun {s p run} hp hrun => ?_⟩, by simp,
    fun other => ?_, fun {f} hin => ?_, fun {hand f a} hst => ?_⟩
  · rw [suspension?_newSuspension]
    simp only [newSuspension, modifyFiber, Store.fiber?_modifyFiber] at hr
    -- the fiber is told the new place; what the others know is older
    split at hr
    · next heq =>
      obtain ⟨r', -, rfl⟩ := Option.map_eq_some_iff.mp hr
      obtain rfl : _ = s := Option.some.inj hs
      exact ⟨_, if_pos rfl, heq.symm⟩
    · obtain ⟨p, hp, hfiber⟩ := hsound.owner hr hs
      refine ⟨p, ?_, hfiber⟩
      rw [if_neg, hp]
      rintro rfl
      rw [suspension?_next] at hp
      cases hp
  · rw [suspension?_newSuspension] at hp
    split at hp
    · obtain rfl := Option.some.inj hp
      cases hrun
    · exact hsound.status hp hrun
  · have heq : (w.newSuspension fiber allowed registration).2.requests other =
        w.requests other :=
      requests_modifyFiber _ fiber other fun _ => rfl
    exact heq.symm ▸ List.prefix_refl _
  · exact ⟨⟨(hphase f).trans hin.phase, (hheld f).trans hin.held⟩, rfl⟩
  · refine ⟨a, ⟨(hphase f).trans hst.phase, ?_⟩, .rest⟩
    rw [hheld]
    exact hst.tokens

/-- A fiber is parked at a place of its own. -/
theorem handsOver_waiting {s : SuspensionId} {place : Suspension} {run : RunState}
    (hsound : w.Sound) (hplace : w.suspension? s = some place) (hfiber : place.fiber = fiber)
    (hstatus : place.interruptible = run.interruptible) (onInterrupt : Canceler) :
    w.HandsOver fiber [] (.waiting run) [] (w.setSuspension s (.waiting run onInterrupt)) where
  sound := by
    refine ⟨fun {id r t} hr ht => ?_, fun {t p run'} hp hrun => ?_⟩
    · obtain ⟨p, hp, hp'⟩ := hsound.owner hr ht
      rw [suspension?_setSuspension]
      split
      · next heq =>
        subst heq
        rw [hp]
        exact ⟨_, rfl, hp'⟩
      · exact ⟨p, hp, hp'⟩
    · rw [suspension?_setSuspension, hplace] at hp
      split at hp
      · obtain rfl := Option.some.inj hp
        obtain rfl := Option.some.inj hrun
        exact hstatus
      · exact hsound.status hp hrun
  no_doing := by simp
  requests _ := List.prefix_refl _
  other {hand f a} hne hst := by
    refine ⟨a, ⟨hst.phase, ?_⟩, .rest⟩
    obtain ⟨before, after, hw, hw'⟩ := parked_setSuspension hplace (.waiting run onInterrupt) f
    have hno : ∀ state : SuspensionState, Suspension.held f { place with state } = [] := by
      intro state
      exact if_neg fun heq => hne (heq.symm.trans hfiber)
    rw [← hst.tokens, held, held, hw, hw', hno]
    rw [show place.held f = [] from hno place.state]
    rfl
  self hin := by
    refine ⟨.waiting run, ⟨hin.phase, ?_⟩, .rest⟩
    obtain ⟨before, after, hw, hw'⟩ := parked_setSuspension hplace (.waiting run onInterrupt) fiber
    obtain ⟨hready, hparked⟩ := List.append_eq_nil_iff.mp hin.held
    rw [hw, List.append_eq_nil_iff, List.append_eq_nil_iff] at hparked
    obtain ⟨⟨rfl, -⟩, rfl⟩ := hparked
    have hready' : (w.setSuspension s (.waiting run onInterrupt)).ready fiber = [] := hready
    rw [held, hready', hw']
    simp [Suspension.held, hfiber, SuspensionState.run?, Standing.tokens]

theorem handsOver_parkAt {s : SuspensionId} {place : Suspension} {run : RunState}
    (hsound : w.Sound) (hplace : w.suspension? s = some place) (hfiber : place.fiber = fiber)
    (hstatus : place.interruptible = run.interruptible) (onInterrupt : Canceler) :
    ∃ events, w.HandsOver fiber events (.waiting run) [] (w.parkAt fiber s run onInterrupt) := by
  have hwait := handsOver_waiting hsound hplace hfiber hstatus onInterrupt
  simp only [parkAt]
  split
  · next hstop =>
    have hplace' : (w.setSuspension s (.waiting run onInterrupt)).suspension? s =
        some { place with state := .waiting run onInterrupt } := by
      simp [suspension?_setSuspension, hplace]
    have hallowed : ∀ run', (SuspensionState.waiting run onInterrupt).run? = some run' →
        run'.interruptible = true := by
      intro run' hrun
      obtain rfl := Option.some.inj hrun
      simp only [Bool.and_eq_true] at hstop
      exact hstop.1
    obtain ⟨es, hes⟩ := (influences_interruptAt hplace' hfiber hallowed _).carries
    exact ⟨_, hwait.then_carries hes⟩
  · exact ⟨_, hwait⟩

/-- A fiber that waits is parked, or goes on at once. -/
theorem handsOver_park (hsound : w.Sound) (fiber : FiberId) (run : RunState)
    (registration : Registration) :
    ∃ events, w.HandsOver fiber events (w.after fiber (.wait run registration))
      (Progress.hand (w.carryOut fiber (.wait run registration)).1)
      (w.carryOut fiber (.wait run registration)).2 := by
  have hnew := w.carries_newSuspension fiber run.interruptible registration
  have hplace : (w.newSuspension fiber run.interruptible registration).2.suspension?
      (w.newSuspension fiber run.interruptible registration).1 =
        some ⟨fiber, run.interruptible, registration, .registering⟩ := by
    rw [suspension?_newSuspension, if_pos rfl]
  simp only [after, carryOut, park]
  generalize w.newSuspension fiber run.interruptible registration = new at hnew hplace
  obtain ⟨s, w₁⟩ := new
  obtain ⟨es, hregister⟩ := w₁.influences_register s registration
  -- while the wait is registered nobody is parked at the new place
  obtain ⟨p, hp, hkeeps⟩ := hregister.place hplace
  have hvacant : p.state.run? = none := by
    rcases hkeeps.state with heq | hnone
    · rw [heq]
      rfl
    · exact hnone
  have hcarries := hnew.trans hregister.carries
  simp only at hp hkeeps hcarries ⊢
  generalize w₁.register s registration = registered at hp hcarries
  obtain ⟨result, w₂⟩ := registered
  simp only at hp hcarries ⊢
  have hsound₂ := hcarries.sound hsound
  have hgo : ∀ step, w.HandsOver fiber _ (.active run step) [.active run step]
      (w₂.setSuspension s .over) := fun step =>
    (hcarries.trans (Influence.vacant hp hvacant rfl).carries).handsOver hsound fiber run step
  cases result with
  | error d => exact ⟨_, hgo _⟩
  | ok onInterrupt =>
    rw [hp, Option.map_some]
    cases hstate : p.state with
    | registering =>
      obtain ⟨es', hpark⟩ := handsOver_parkAt hsound₂ hp hkeeps.fiber hkeeps.interruptible
        onInterrupt
      exact ⟨_, hpark.after_carries hcarries⟩
    | waiting run' c =>
      rw [hstate] at hvacant
      cases hvacant
    | _ => exact ⟨_, hgo _⟩

end World

/-! ### The creation of a fiber -/

/-- A fiber is created in a store; the records of the others grow. -/
structure Store.Bears (s : Store) (id : FiberId) (s' : Store) : Prop where
  fresh : s.fiber? id = none
  born : ∃ r, s'.fiber? id = some r ∧ r.finished = false ∧ r.suspension = none
  record : ∀ {other r}, other ≠ id → s.fiber? other = some r →
    ∃ r', s'.fiber? other = some r' ∧ r.Grows r'
  absent : ∀ {other}, other ≠ id → s.fiber? other = none → s'.fiber? other = none

namespace Store

theorem fiber?_push (s : Store) (r : FiberRecord) (other : FiberId) :
    Store.fiber? { s with fibers := s.fibers.push r } other =
      if other = s.nextFiber then some r else s.fiber? other := by
  have hraw : other.raw = s.fibers.next ↔ other = s.nextFiber := by
    cases other
    simp [nextFiber]
  simp only [fiber?, Numbered.get?_push, hraw]

/-- A new record bears the fiber that is next. -/
theorem bears_push (s : Store) {r : FiberRecord} (hfinished : r.finished = false)
    (hsuspension : r.suspension = none) :
    s.Bears s.nextFiber { s with fibers := s.fibers.push r } where
  fresh := Numbered.get?_next _
  born := ⟨r, by rw [fiber?_push, if_pos rfl], hfinished, hsuspension⟩
  record {other r'} hne hr' := ⟨r', by rw [fiber?_push, if_neg hne, hr'], .refl r'⟩
  absent {other} hne hnone := by rw [fiber?_push, if_neg hne, hnone]

/-- Growing afterwards makes no difference. -/
theorem Bears.grow {s s' s'' : Store} {id : FiberId} (h : s.Bears id s') (hgrows : s'.Grows s'') :
    s.Bears id s'' where
  fresh := h.fresh
  born := by
    obtain ⟨r, hr, hfinished, hsuspension⟩ := h.born
    obtain ⟨r', hr', hrecord⟩ := hgrows.record hr
    exact ⟨r', hr', hrecord.finished.trans hfinished, hrecord.suspension.trans hsuspension⟩
  record hne hr := by
    obtain ⟨r', hr', hrecord⟩ := h.record hne hr
    obtain ⟨r'', hr'', hrecord'⟩ := hgrows.record hr'
    exact ⟨r'', hr'', hrecord.trans hrecord'⟩
  absent hne hnone := hgrows.absent (h.absent hne hnone)

end Store

namespace World

/-- **The creation of a fiber carries every fiber.** -/
theorem carries_birth {w : World} {id : FiberId} {store : Store}
    (hbears : w.store.Bears id store) (environment : Value) (allowed : Bool) (i : Instruction) :
    w.Carries [(id, .started environment allowed i)]
      (({ w with store }).schedule id (.start environment allowed) (.eval i)) := by
  let w' : World := { w with store }
  have hphase : ∀ {f}, f ≠ id → w'.phase f = w.phase f := fun hne =>
    phase_of_grows (hbears.record hne) (hbears.absent hne)
  have hfresh : w.phase id = none := by simp [phase, hbears.fresh]
  refine ⟨fun hsound => ⟨fun {other r s} hr hsusp => ?_, hsound.status⟩, by simp [Event.isDoing],
    fun other => ?_, fun {f} hin => ?_, fun {hand f a} hst => ?_⟩
  · rw [store_schedule] at hr
    by_cases hne : other = id
    · subst hne
      obtain ⟨r', hr', -, hnone⟩ := hbears.born
      obtain rfl := Option.some.inj (hr'.symm.trans hr)
      rw [hnone] at hsusp
      cases hsusp
    · cases hold : w.store.fiber? other with
      | none =>
        rw [hbears.absent hne hold] at hr
        cases hr
      | some r₀ =>
        obtain ⟨r', hr', hgrows⟩ := hbears.record hne hold
        obtain rfl := Option.some.inj (hr'.symm.trans hr)
        exact hsound.owner hold (hgrows.suspension ▸ hsusp)
  · by_cases hne : other = id
    · subst hne
      have hnone : w.requests other = [] := by simp [requests, hbears.fresh]
      rw [hnone]
      exact List.nil_prefix
    · exact requests_of_grows (hbears.record hne)
  · -- the new fiber is not in hand, as it has not been created
    have hne : f ≠ id := by
      rintro rfl
      have := hin.phase
      rw [hfresh] at this
      cases this
    refine ⟨⟨(hphase hne).trans hin.phase, ?_⟩, eventsOf_other hne.symm⟩
    rw [held_schedule_other hne.symm]
    exact hin.held
  · by_cases hne : f = id
    · subst hne
      obtain ⟨r, hr, hfinished, -⟩ := hbears.born
      have ha : a = .unborn := by
        have hphase := hst.phase
        rw [hfresh] at hphase
        cases a with
        | unborn => rfl
        | active _ _ | waiting _ | ended _ => cases hphase
      subst ha
      obtain ⟨hhand, hheld⟩ := List.append_eq_nil_iff.mp hst.tokens
      refine ⟨.active (.start environment allowed) (.eval i), ⟨?_, ?_⟩, ?_⟩
      · change (store.fiber? f).map FiberRecord.finished = some false
        rw [hr, Option.map_some, hfinished]
      · rw [hhand, held_schedule_self (w := w') hheld]
        rfl
      · rw [eventsOf_self]
        exact .one trivial (.started environment allowed i)
    · -- the task of the new fiber holds nothing of the others
      refine ⟨a, ⟨(hphase hne).trans hst.phase, ?_⟩, ?_⟩
      · rw [held_schedule_other (Ne.symm hne)]
        exact hst.tokens
      · rw [eventsOf_other (Ne.symm hne)]
        exact .rest

/-- Remembering a child makes a record grow. -/
theorem grows_addChild (w : World) (parent child : FiberId) :
    w.store.Grows (w.addChild parent child).store :=
  .modifyFiber _ _ fun _ => ⟨rfl, List.prefix_refl _, rfl, List.prefix_refl _⟩

/-- A fiber that starts another one bears it. -/
theorem bears_fork (w : World) (parent : FiberId) (run : RunState) (child : Instruction)
    (daemon : Bool) :
    w.store.Bears w.store.nextFiber (w.fork parent run child daemon).2.store := by
  have hbears : w.store.Bears w.store.nextFiber
      { w.store with fibers := w.store.fibers.push {} } := w.store.bears_push rfl rfl
  cases daemon with
  | true => exact hbears
  | false =>
    exact hbears.grow <| grows_addChild
      { w with store := { w.store with fibers := w.store.fibers.push {} } } parent _

/-- A fiber started by another one. -/
theorem carries_fork (w : World) (parent : FiberId) (run : RunState) (child : Instruction)
    (daemon : Bool) :
    w.Carries [(w.store.nextFiber, .started run.environment run.interruptible child)]
      (w.fork parent run child daemon).2 := by
  have hcarries := carries_birth (w.bears_fork parent run child daemon) run.environment
    run.interruptible child
  cases daemon <;> exact hcarries

/-! ### Plans -/

/-- **Every plan hands over its fiber.** -/
theorem carryOut_handsOver {w : World} {fiber : FiberId} (hsound : w.Sound)
    (hphase : w.phase fiber = some false) (plan : Plan) :
    ∃ events, w.HandsOver fiber events (w.after fiber plan)
      (Progress.hand (w.carryOut fiber plan).1) (w.carryOut fiber plan).2 := by
  -- most plans go on at once, after an influence
  have hgo : ∀ {w' : World} (run : RunState) (step : Step), w.Influences w' →
      ∃ events, w.HandsOver fiber events (.active run step) [.active run step] w' := by
    intro w' run step hw'
    obtain ⟨es, hes⟩ := hw'.carries
    exact ⟨es, hes.handsOver hsound fiber run step⟩
  cases plan with
  | proceed run step => exact hgo run step (.refl w)
  | finish outcome => exact handsOver_complete hsound hphase outcome
  | build run code => exact hgo run _ (code.influences_run w)
  | translate run code => exact hgo run _ (code.influences_run w)
  | compute run code => exact hgo run _ (code.influences_run w)
  | update run cell f => exact hgo run _ (w.influences_attemptUpdate cell f)
  | release run id exit => exact hgo run _ (influences_buildRelease id exit w)
  | releaseLease run lease exit =>
    simp only [after]
    rcases w.carryOut_releaseLease fiber run lease exit with heq | ⟨release, leases, heq⟩ <;>
      rw [heq]
    · exact hgo run _ (.refl w)
    · refine hgo run _ (.trans ?_ (influences_buildRelease _ exit _))
      exact .unrelated rfl rfl rfl
  | reserve run v release => exact hgo run _ (.unrelated rfl rfl rfl)
  | fork run child daemon =>
    exact ⟨_, (w.carries_fork fiber run child daemon).handsOver hsound fiber run _⟩
  | signal run target => exact hgo run _ (influences_interrupt hsound target fiber)
  | wait run registration => exact handsOver_park hsound fiber run registration
  | makeWay run => exact ⟨_, handsOver_schedule hsound fiber run _⟩

end World

end Fibers
