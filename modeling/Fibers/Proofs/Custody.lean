import Fibers.Proofs.Operations

/-!
# Who holds the rest of a fiber

The rest of a fiber is held in one place at a time: by a task, by the place where the fiber
is parked, or by whoever is running it.  `World.Stands` says so for a fiber that stands in
a given way, and what else is in hand is a list beside the world.

Whatever happens to the world, a fiber that stands in one way comes to stand in another, by
events of its own.  A change that has this property, keeps what is known of waiting places,
and forgets no request for interruption, `World.Carries` every fiber.  Influences do.

## Main definitions

* `World.requests` — who asked for the interruption of a fiber.
* `World.held`, `World.Stands` — what a world holds of a fiber, and how the fiber stands.
* `World.Carries` — a change that takes every fiber from one standing to another.

## Main results

* `Influence.carries` — influences do so.
-/

namespace Fibers

/-- The events of one fiber among those of all. -/
def eventsOf (fiber : FiberId) (events : List (FiberId × Event)) : List Event :=
  events.filterMap fun e => if e.1 = fiber then some e.2 else none

section EventsOf

variable {fiber other : FiberId} {e : Event} {es es' : List (FiberId × Event)}

@[simp] theorem eventsOf_append : eventsOf fiber (es ++ es') = eventsOf fiber es ++ eventsOf fiber es' := by
  simp [eventsOf]

theorem mem_eventsOf : e ∈ eventsOf fiber es ↔ (fiber, e) ∈ es := by
  rw [eventsOf, List.mem_filterMap]
  constructor
  · rintro ⟨⟨other, e'⟩, hmem, hsome⟩
    split at hsome
    · next heq =>
      obtain rfl := Option.some.inj hsome
      obtain rfl : other = fiber := heq
      exact hmem
    · cases hsome
  · exact fun hmem => ⟨(fiber, e), hmem, if_pos rfl⟩

theorem eventsOf_self : eventsOf fiber [(fiber, e)] = [e] := by simp [eventsOf]

theorem eventsOf_map_self (events : List Event) :
    eventsOf fiber (events.map (fiber, ·)) = events := by
  have hsome : (fun e : FiberId × Event => if e.1 = fiber then some e.2 else none) ∘ (fiber, ·) =
      some := by
    funext e
    exact if_pos rfl
  rw [eventsOf, List.filterMap_map, hsome, List.filterMap_some]

theorem eventsOf_map_other (h : other ≠ fiber) (events : List Event) :
    eventsOf fiber (events.map (other, ·)) = [] := by
  rw [eventsOf, List.filterMap_eq_nil_iff]
  intro e he
  obtain ⟨e', -, rfl⟩ := List.mem_map.mp he
  exact if_neg h

theorem no_doing_eventsOf (h : ∀ e ∈ es, e.2.isDoing = false) :
    (eventsOf fiber es).filter Event.isDoing = [] := by
  rw [List.filter_eq_nil_iff]
  intro e he
  simp [h _ (mem_eventsOf.mp he)]

/-- What happens to a fiber, and then what happens to it afterwards. -/
theorem Life.join {a b c : Standing} (h : Life fiber a (eventsOf fiber es) b)
    (h' : Life fiber b (eventsOf fiber es') c) : Life fiber a (eventsOf fiber (es ++ es')) c := by
  rw [eventsOf_append]
  exact h.append h'

theorem eventsOf_other (h : other ≠ fiber) : eventsOf fiber [(other, e)] = [] := by
  simp [eventsOf, h]

end EventsOf

/-! ### Requests -/

namespace World

/-- Who asked for the interruption of a fiber, in the order of the first requests. -/
def requests (w : World) (fiber : FiberId) : List FiberId :=
  ((w.store.fiber? fiber).map FiberRecord.interruptors).getD []

theorem isInterrupted_eq (w : World) (fiber : FiberId) :
    w.store.isInterrupted fiber = !(w.requests fiber).isEmpty := by
  unfold Store.isInterrupted requests
  cases w.store.fiber? fiber <;> rfl

/-- The requests are among those of a record that has grown. -/
theorem requests_of_grows {w w' : World} {fiber : FiberId}
    (hrecord : ∀ {r}, w.store.fiber? fiber = some r →
      ∃ r', w'.store.fiber? fiber = some r' ∧ r.Grows r') :
    w.requests fiber <+: w'.requests fiber := by
  unfold requests
  cases hr : w.store.fiber? fiber with
  | none => exact List.nil_prefix
  | some r =>
    obtain ⟨r', hr', hgrows⟩ := hrecord hr
    rw [hr']
    exact hgrows.interruptors

/-- A request is not forgotten by a world in which there are only more of them. -/
theorem isInterrupted_of_requests {w w' : World} {fiber : FiberId}
    (h : w.requests fiber <+: w'.requests fiber) (hw : w.store.isInterrupted fiber = true) :
    w'.store.isInterrupted fiber = true := by
  rw [isInterrupted_eq, Bool.not_eq_true', List.isEmpty_eq_false_iff] at hw ⊢
  intro hnil
  rw [hnil, List.prefix_nil] at h
  exact hw h

end World

/-! ### Standings -/

/-- Whether the fiber has finished, if it has been created. -/
def Standing.phase : Standing → Option Bool
  | .unborn => none
  | .active _ _ => some false
  | .waiting _ => some false
  | .ended _ => some true

/-- What is held of a fiber that stands in a given way. -/
def Standing.tokens : Standing → List Standing
  | .unborn => []
  | .active run step => [.active run step]
  | .waiting run => [.waiting run]
  | .ended _ => []

/-- What a place holds of a fiber. -/
def Suspension.held (fiber : FiberId) (p : Suspension) : List Standing :=
  if p.fiber = fiber then (p.state.run?.map Standing.waiting).toList else []

namespace World

/-- Whether a fiber has finished, if it has been created. -/
def phase (w : World) (fiber : FiberId) : Option Bool :=
  (w.store.fiber? fiber).map FiberRecord.finished

/-- What the tasks hold of a fiber. -/
def ready (w : World) (fiber : FiberId) : List Standing :=
  (w.tasks.toList.filter (·.fiber = fiber)).map fun t => .active t.run t.step

/-- What the places hold of a fiber. -/
def parked (w : World) (fiber : FiberId) : List Standing :=
  w.suspensions.entries.toList.flatMap (Suspension.held fiber)

/-- What a world holds of a fiber. -/
def held (w : World) (fiber : FiberId) : List Standing := w.ready fiber ++ w.parked fiber

/-- A fiber stands in a given way: it has finished or not, and exactly what there is of it is
held, in hand or by the world. -/
structure Stands (w : World) (hand : List Standing) (fiber : FiberId) (a : Standing) : Prop where
  phase : w.phase fiber = a.phase
  tokens : hand ++ w.held fiber = a.tokens

/-! ### What the world holds after a change -/

variable {w : World} {fiber : FiberId}

theorem requests_modifyFiber (w : World) (id other : FiberId) {f : FiberRecord → FiberRecord}
    (hf : ∀ r : FiberRecord, (f r).interruptors = r.interruptors) :
    (w.modifyFiber id f).requests other = w.requests other := by
  simp only [requests, modifyFiber, Store.fiber?_modifyFiber]
  split
  · next heq =>
    subst heq
    cases w.store.fiber? other <;> simp [hf]
  · rfl

theorem phase_modifyFiber (w : World) (id other : FiberId) {f : FiberRecord → FiberRecord}
    (hf : ∀ r : FiberRecord, (f r).finished = r.finished) :
    (w.modifyFiber id f).phase other = w.phase other := by
  simp only [phase, modifyFiber, Store.fiber?_modifyFiber]
  split
  · next heq =>
    subst heq
    cases w.store.fiber? other <;> simp [hf]
  · rfl

/-- A record that grows finishes no fiber, and creates none. -/
theorem phase_of_grows {w' : World}
    (hrecord : ∀ {r}, w.store.fiber? fiber = some r →
      ∃ r', w'.store.fiber? fiber = some r' ∧ r.Grows r')
    (habsent : w.store.fiber? fiber = none → w'.store.fiber? fiber = none) :
    w'.phase fiber = w.phase fiber := by
  unfold phase
  cases hr : w.store.fiber? fiber with
  | none => rw [habsent hr]
  | some r =>
    obtain ⟨r', hr', hgrows⟩ := hrecord hr
    rw [hr', Option.map_some, Option.map_some, hgrows.finished]

theorem held_of_eq {w' : World} (hs : w'.suspensions = w.suspensions) (ht : w'.tasks = w.tasks) :
    w'.held fiber = w.held fiber := by
  simp [held, ready, parked, hs, ht]

theorem ready_schedule (w : World) (fiber other : FiberId) (run : RunState) (step : Step) :
    (w.schedule fiber run step).ready other =
      w.ready other ++ if fiber = other then [.active run step] else [] := by
  by_cases h : fiber = other <;> simp [schedule, ready, h]

theorem parked_setSuspension {s : SuspensionId} {place : Suspension}
    (hplace : w.suspension? s = some place) (state : SuspensionState) (fiber : FiberId) :
    ∃ before after, w.parked fiber = before ++ place.held fiber ++ after ∧
      (w.setSuspension s state).parked fiber =
        before ++ Suspension.held fiber { place with state } ++ after := by
  obtain ⟨before, after, hw, hw'⟩ :=
    Numbered.entries_of_get? hplace fun p : Suspension => { p with state }
  refine ⟨before.flatMap (Suspension.held fiber), after.flatMap (Suspension.held fiber), ?_, ?_⟩
  · simp [parked, hw]
  · simp [parked, setSuspension, hw']

/-- A place that holds nothing before and after its change leaves things as they are. -/
theorem held_setSuspension_vacant {s : SuspensionId} {place : Suspension}
    {state : SuspensionState} (hplace : w.suspension? s = some place)
    (hvacant : place.state.run? = none) (hstate : state.run? = none) (fiber : FiberId) :
    (w.setSuspension s state).held fiber = w.held fiber := by
  obtain ⟨before, after, hw, hw'⟩ := parked_setSuspension hplace state fiber
  have hbefore : place.held fiber = [] := by simp [Suspension.held, hvacant]
  have hafter : Suspension.held fiber { place with state } = [] := by
    simp [Suspension.held, hstate]
  rw [hbefore] at hw
  rw [hafter] at hw'
  simp only [held, hw, hw']
  rfl

/-- A place gives up the rest of the fiber that is parked at it. -/
theorem held_setSuspension_over {s : SuspensionId} {place : Suspension} {run : RunState}
    (hplace : w.suspension? s = some place) (hrun : place.state.run? = some run)
    (fiber : FiberId) :
    ∃ before after,
      w.held fiber = before ++ (if place.fiber = fiber then [.waiting run] else []) ++ after ∧
      (w.setSuspension s .over).held fiber = before ++ after := by
  obtain ⟨before, after, hw, hw'⟩ := parked_setSuspension hplace .over fiber
  refine ⟨w.ready fiber ++ before, after, ?_, ?_⟩
  · simp only [held, hw, Suspension.held, hrun, Option.map_some, Option.toList_some,
      List.append_assoc]
  · simp only [held, hw', Suspension.held, SuspensionState.run?, Option.map_none,
      Option.toList_none, ite_self, List.append_nil, List.append_assoc]
    rfl

theorem held_schedule_self (hw : w.held fiber = []) (run : RunState) (step : Step) :
    (w.schedule fiber run step).held fiber = [.active run step] := by
  obtain ⟨hready, hparked⟩ := List.append_eq_nil_iff.mp hw
  have hparked' : (w.schedule fiber run step).parked fiber = [] := hparked
  simp [held, ready_schedule, hready, hparked']

theorem held_schedule_other {other : FiberId} (h : other ≠ fiber) (run : RunState) (step : Step) :
    (w.schedule other run step).held fiber = w.held fiber := by
  simp only [held, ready_schedule, if_neg h, List.append_nil]
  rfl

end World

/-! ### What an influence does to what is held -/

namespace Influence

variable {w w' : World} {events : List (FiberId × Event)} {fiber : FiberId}

/-- A fiber of which the world holds nothing is not woken. -/
theorem held_nil (h : Influence w events w') (hw : w.held fiber = []) :
    w'.held fiber = [] ∧ eventsOf fiber events = [] := by
  -- a place that holds some fiber cannot be that of this one
  have hover : ∀ {w : World} {s : SuspensionId} {place : Suspension} {run : RunState},
      w.suspension? s = some place → place.state.run? = some run → w.held fiber = [] →
      place.fiber ≠ fiber ∧ (w.setSuspension s .over).held fiber = [] := by
    intro w s place run hplace hrun hw
    obtain ⟨before, after, hheld, hheld'⟩ := World.held_setSuspension_over hplace hrun fiber
    rw [hheld, List.append_eq_nil_iff, List.append_eq_nil_iff] at hw
    obtain ⟨⟨rfl, hmid⟩, rfl⟩ := hw
    refine ⟨fun heq => ?_, hheld'⟩
    rw [if_pos heq] at hmid
    cases hmid
  induction h with
  | data hs ht _ => exact ⟨(World.held_of_eq hs ht).trans hw, rfl⟩
  | vacant hplace hvacant hstate =>
    exact ⟨(World.held_setSuspension_vacant hplace hvacant hstate fiber).trans hw, rfl⟩
  | resumed outcome hplace hrun =>
    obtain ⟨hne, hnil⟩ := hover hplace hrun hw
    exact ⟨(World.held_schedule_other hne _ _).trans hnil, eventsOf_other hne⟩
  | cancelled source hplace hrun _ _ ih =>
    obtain ⟨hne, hnil⟩ := hover hplace hrun hw
    obtain ⟨hnil', hevents⟩ := ih hnil
    refine ⟨(World.held_schedule_other hne _ _).trans hnil', ?_⟩
    rw [eventsOf_append, hevents, eventsOf_other hne]
    rfl
  | trans _ _ ih ih' =>
    obtain ⟨hnil, hevents⟩ := ih hw
    obtain ⟨hnil', hevents'⟩ := ih' hnil
    refine ⟨hnil', ?_⟩
    rw [eventsOf_append, hevents, hevents']
    rfl

/-- What the world holds of a fiber stays, or is woken. -/
theorem held_one (h : Influence w events w') {a : Standing} (ha : a.tokens = [a])
    (hw : w.held fiber = [a]) :
    ∃ b, b.tokens = [b] ∧ w'.held fiber = [b] ∧ Life fiber a (eventsOf fiber events) b := by
  -- the place that is given up held all that there is of the fiber, or nothing of it
  have hover : ∀ {w : World} {s : SuspensionId} {place : Suspension} {run : RunState}
      {a : Standing}, w.suspension? s = some place → place.state.run? = some run →
      w.held fiber = [a] →
      (place.fiber = fiber ∧ a = .waiting run ∧ (w.setSuspension s .over).held fiber = []) ∨
        (place.fiber ≠ fiber ∧ (w.setSuspension s .over).held fiber = [a]) := by
    intro w s place run a hplace hrun hw
    obtain ⟨before, after, hheld, hheld'⟩ := World.held_setSuspension_over hplace hrun fiber
    rw [hheld] at hw
    by_cases hfiber : place.fiber = fiber
    · rw [if_pos hfiber, List.append_assoc, List.append_eq_singleton_iff] at hw
      rcases hw with ⟨rfl, hrest⟩ | ⟨-, hrest⟩
      · obtain ⟨hrun, rfl⟩ := List.cons.inj hrest
        exact Or.inl ⟨hfiber, hrun.symm, hheld'⟩
      · cases hrest
    · rw [if_neg hfiber, List.append_nil] at hw
      exact Or.inr ⟨hfiber, hheld'.trans hw⟩
  induction h generalizing a with
  | data hs ht _ => exact ⟨a, ha, (World.held_of_eq hs ht).trans hw, .rest⟩
  | vacant hplace hvacant hstate =>
    exact ⟨a, ha, (World.held_setSuspension_vacant hplace hvacant hstate fiber).trans hw, .rest⟩
  | resumed outcome hplace hrun =>
    rcases hover hplace hrun hw with ⟨rfl, rfl, hnil⟩ | ⟨hne, hone⟩
    · refine ⟨.handed _ outcome, rfl, World.held_schedule_self hnil _ _, ?_⟩
      rw [eventsOf_self]
      exact .one trivial (.resumed outcome)
    · refine ⟨a, ha, (World.held_schedule_other hne _ _).trans hone, ?_⟩
      rw [eventsOf_other hne]
      exact .rest
  | cancelled source hplace hrun hallowed hinner ih =>
    rcases hover hplace hrun hw with ⟨rfl, rfl, hnil⟩ | ⟨hne, hone⟩
    · -- while its canceler runs, the world holds nothing of the fiber
      obtain ⟨hnil', hevents⟩ := hinner.held_nil hnil
      refine ⟨.active _ (.interrupt source), rfl, World.held_schedule_self hnil' _ _, ?_⟩
      rw [eventsOf_append, hevents, eventsOf_self]
      exact .one trivial (.cancelled source hallowed)
    · obtain ⟨b, hb, hheld, hlife⟩ := ih ha hone
      refine ⟨b, hb, (World.held_schedule_other hne _ _).trans hheld, ?_⟩
      rw [eventsOf_append, eventsOf_other hne, List.append_nil]
      exact hlife
  | trans _ _ ih ih' =>
    obtain ⟨b, hb, hheld, hlife⟩ := ih ha hw
    obtain ⟨c, hc, hheld', hlife'⟩ := ih' hb hheld
    exact ⟨c, hc, hheld', hlife.join hlife'⟩

end Influence

/-! ### Changes that carry every fiber -/

/-- An unfinished fiber is in hand: the world holds nothing of it. -/
structure World.InHand (w : World) (fiber : FiberId) : Prop where
  phase : w.phase fiber = some false
  held : w.held fiber = []

theorem World.InHand.stands {w : World} {fiber : FiberId} (h : w.InHand fiber) (run : RunState)
    (step : Step) : w.Stands [.active run step] fiber (.active run step) where
  phase := h.phase
  tokens := by
    rw [h.held]
    rfl

/-- A change that keeps what is known of waiting places, forgets no request for
interruption, and takes every fiber from the way in which it stands to another one, by the
events of the fiber, none of which is something it does.  A fiber that is in hand has no
events. -/
structure World.Carries (w : World) (events : List (FiberId × Event)) (w' : World) : Prop where
  sound : w.Sound → w'.Sound
  no_doing : ∀ e ∈ events, e.2.isDoing = false
  requests : ∀ fiber, w.requests fiber <+: w'.requests fiber
  inHand : ∀ {fiber}, w.InHand fiber → w'.InHand fiber ∧ eventsOf fiber events = []
  stands : ∀ {hand fiber a}, w.Stands hand fiber a →
    ∃ b, w'.Stands hand fiber b ∧ Life fiber a (eventsOf fiber events) b

theorem World.Carries.trans {w w' w'' : World} {es es' : List (FiberId × Event)}
    (h : w.Carries es w') (h' : w'.Carries es' w'') : w.Carries (es ++ es') w'' where
  sound hsound := h'.sound (h.sound hsound)
  no_doing e he := (List.mem_append.mp he).elim (h.no_doing e) (h'.no_doing e)
  requests fiber := (h.requests fiber).trans (h'.requests fiber)
  inHand hin := by
    obtain ⟨hin', hevents⟩ := h.inHand hin
    obtain ⟨hin'', hevents'⟩ := h'.inHand hin'
    refine ⟨hin'', ?_⟩
    rw [eventsOf_append, hevents, hevents']
    rfl
  stands hst := by
    obtain ⟨b, hb, hlife⟩ := h.stands hst
    obtain ⟨c, hc, hlife'⟩ := h'.stands hb
    exact ⟨c, hc, hlife.join hlife'⟩

/-- What is held of a fiber anywhere is all that there is of it. -/
theorem Standing.eq_of_held {a b : Standing} {x y : List Standing} (h : x ++ b :: y = a.tokens) :
    x = [] ∧ a = b ∧ y = [] := by
  have hone : ∀ c, x ++ b :: y = [c] → x = [] ∧ c = b ∧ y = [] := by
    intro c hc
    rcases List.append_eq_singleton_iff.mp hc with ⟨hx, hrest⟩ | ⟨-, hrest⟩
    · obtain ⟨hb, hy⟩ := List.cons.inj hrest
      exact ⟨hx, hb.symm, hy⟩
    · cases hrest
  cases a with
  | active run step | waiting run => exact hone _ h
  | unborn | ended _ => simp [Standing.tokens] at h

theorem Standing.phase_of_tokens {b : Standing} (h : b.tokens = [b]) : b.phase = some false := by
  cases b with
  | unborn | ended _ => cases h
  | active run step | waiting run => rfl

/-- **Influences carry every fiber.** -/
theorem Influence.carries {w w' : World} {events : List (FiberId × Event)}
    (h : Influence w events w') : w.Carries events w' where
  sound := h.sound
  no_doing := h.no_doing
  requests _ := World.requests_of_grows h.grows.record
  inHand {fiber} hin := by
    obtain ⟨hheld, hevents⟩ := h.held_nil hin.held
    exact ⟨⟨(World.phase_of_grows h.grows.record h.grows.absent).trans hin.phase, hheld⟩, hevents⟩
  stands {hand fiber a} hst := by
    have hphase : w'.phase fiber = w.phase fiber :=
      World.phase_of_grows h.grows.record h.grows.absent
    by_cases hheld : w.held fiber = []
    · obtain ⟨hheld', hevents⟩ := h.held_nil hheld
      refine ⟨a, ⟨hphase.trans hst.phase, ?_⟩, ?_⟩
      · rw [hheld', ← hheld]
        exact hst.tokens
      · rw [hevents]
        exact .rest
    · -- what the world holds is then all that there is of the fiber, so nothing is in hand
      obtain ⟨c, rest, hone⟩ := List.exists_cons_of_ne_nil hheld
      have htokens := hst.tokens
      rw [hone] at htokens
      obtain ⟨rfl, rfl, rfl⟩ := Standing.eq_of_held htokens
      have ha : a.tokens = [a] := htokens.symm
      obtain ⟨b, hb, hheld', hlife⟩ := h.held_one ha hone
      refine ⟨b, ⟨?_, ?_⟩, hlife⟩
      · rw [hphase, hst.phase, Standing.phase_of_tokens ha, Standing.phase_of_tokens hb]
      · rw [hheld', hb]
        rfl

theorem World.Influences.carries {w w' : World} (h : w.Influences w') :
    ∃ events, w.Carries events w' := by
  obtain ⟨events, h⟩ := h
  exact ⟨events, h.carries⟩

end Fibers
