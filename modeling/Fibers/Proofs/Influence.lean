import Fibers.Proofs.Course

/-!
# Influences on fibers that do nothing themselves

Whatever a fiber, an action or somebody outside does to the world, it touches the rest of
another fiber in one way only: it wakes that fiber up.  A wait is completed, or it is
interrupted if it can be and the interruption has been requested; the rest of the fiber
moves unchanged from the place where it was parked to the end of the queue.  Beside that, a
record of a fiber only grows: it stays finished or unfinished, a requested interruption stays
requested, in the order of the first requests, and so does a request to be told of its end.

`Influence` has one constructor for each of these.  That the operations of the runtime are
influences is shown elsewhere.

## Main definitions

* `Store.Grows` — what happens to the records of the fibers.
* `Influence` — what happens to the world, with the events of the fibers that are woken.
* `World.Sound` — what is known of the places at which fibers wait.
* `World.Influences` — some influence leads from one world to the other.

## Main results

* `Influence.grows`, `Influence.place`, `Influence.sound` — what every influence keeps.
-/

namespace Fibers

/-! ### Records that grow -/

/-- How the record of a fiber may change while the fiber itself does nothing. -/
structure FiberRecord.Grows (r r' : FiberRecord) : Prop where
  /-- The fiber does not finish. -/
  finished : r'.finished = r.finished
  /-- Requests for its interruption stay, and new ones come last. -/
  interruptors : r.interruptors <+: r'.interruptors
  /-- It comes to wait nowhere else. -/
  suspension : r'.suspension = r.suspension
  /-- Who is to be told of its end stays so, and those who ask later come last. -/
  observers : r.observers <+: r'.observers

namespace FiberRecord.Grows

theorem refl (r : FiberRecord) : r.Grows r :=
  ⟨rfl, List.prefix_refl _, rfl, List.prefix_refl _⟩

theorem trans {r r' r'' : FiberRecord} (h : r.Grows r') (h' : r'.Grows r'') : r.Grows r'' where
  finished := h'.finished.trans h.finished
  interruptors := h.interruptors.trans h'.interruptors
  suspension := h'.suspension.trans h.suspension
  observers := h.observers.trans h'.observers

end FiberRecord.Grows

/-- How the records of all fibers may change while none of them does anything. -/
structure Store.Grows (s s' : Store) : Prop where
  /-- No fiber is created. -/
  next : s'.nextFiber = s.nextFiber
  /-- The record of every fiber grows. -/
  record : ∀ {id r}, s.fiber? id = some r → ∃ r', s'.fiber? id = some r' ∧ r.Grows r'
  /-- What is no fiber does not become one. -/
  absent : ∀ {id}, s.fiber? id = none → s'.fiber? id = none

namespace Store

theorem fiber?_modifyFiber (s : Store) (id other : FiberId) (f : FiberRecord → FiberRecord) :
    (s.modifyFiber id f).fiber? other = if other = id then (s.fiber? id).map f else s.fiber? other := by
  have hraw : other.raw = id.raw ↔ other = id := by
    cases other
    cases id
    simp
  simp only [modifyFiber, fiber?, Numbered.get?_modify, hraw]
  split
  · next heq => rw [heq]
  · rfl

theorem nextFiber_modifyFiber (s : Store) (id : FiberId) (f : FiberRecord → FiberRecord) :
    (s.modifyFiber id f).nextFiber = s.nextFiber := by
  simp [modifyFiber, nextFiber]

namespace Grows

variable {s s' s'' : Store}

theorem of_fibers_eq (h : s'.fibers = s.fibers) : s.Grows s' where
  next := by simp [nextFiber, h]
  record {id r} hr := ⟨r, by simpa [fiber?, h] using hr, .refl r⟩
  absent {id} hid := by simpa [fiber?, h] using hid

theorem trans (h : s.Grows s') (h' : s'.Grows s'') : s.Grows s'' where
  next := h'.next.trans h.next
  record {id r} hr := by
    obtain ⟨r', hr', hgrows⟩ := h.record hr
    obtain ⟨r'', hr'', hgrows'⟩ := h'.record hr'
    exact ⟨r'', hr'', hgrows.trans hgrows'⟩
  absent hid := h'.absent (h.absent hid)

theorem modifyFiber (s : Store) (id : FiberId) {f : FiberRecord → FiberRecord}
    (hf : ∀ r : FiberRecord, r.Grows (f r)) : s.Grows (s.modifyFiber id f) where
  next := s.nextFiber_modifyFiber id f
  record {other r} hr := by
    rw [fiber?_modifyFiber]
    split
    · next heq =>
      subst heq
      exact ⟨f r, by simp [hr], hf r⟩
    · exact ⟨r, hr, .refl r⟩
  absent {other} hid := by
    rw [fiber?_modifyFiber]
    split
    · next heq =>
      subst heq
      simp [hid]
    · exact hid

end Grows

end Store

/-! ### Influences -/

/-- The rest of the fiber that is parked, if one is. -/
def SuspensionState.run? : SuspensionState → Option RunState
  | .waiting run _ => some run
  | .registering => none
  | .early _ => none
  | .over => none

/-- `Influence w events w'` says that the world `w` becomes `w'` without any fiber doing
anything but being woken; `events` are the wakings. -/
inductive Influence : World → List (FiberId × Event) → World → Prop where
  /-- Data changes. -/
  | data {w w' : World} :
      w'.suspensions = w.suspensions → w'.tasks = w.tasks → w.store.Grows w'.store →
      Influence w [] w'
  /-- A place at which no fiber is parked changes. -/
  | vacant {w : World} {s : SuspensionId} {place : Suspension} {state : SuspensionState} :
      w.suspension? s = some place → place.state.run? = none → state.run? = none →
      Influence w [] (w.setSuspension s state)
  /-- The wait of a parked fiber is completed. -/
  | resumed {w : World} {s : SuspensionId} {place : Suspension} {run : RunState}
      (outcome : Outcome) :
      w.suspension? s = some place → place.state.run? = some run →
      Influence w [(place.fiber, .resumed outcome)]
        ((w.setSuspension s .over).schedule place.fiber run (.ofOutcome outcome))
  /-- The wait of a parked fiber is interrupted; what is to be done then is done before
  the fiber is ready. -/
  | cancelled {w w' : World} {s : SuspensionId} {place : Suspension} {run : RunState}
      {events : List (FiberId × Event)} (source : FiberId) :
      w.suspension? s = some place → place.state.run? = some run → run.interruptible = true →
      Influence (w.setSuspension s .over) events w' →
      Influence w (events ++ [(place.fiber, .cancelled source)])
        (w'.schedule place.fiber run (.interrupt source))
  /-- One influence after the other. -/
  | trans {w w' w'' : World} {events events' : List (FiberId × Event)} :
      Influence w events w' → Influence w' events' w'' → Influence w (events ++ events') w''

namespace World

variable {w : World}

@[simp] theorem store_schedule (w : World) (fiber : FiberId) (run : RunState) (step : Step) :
    (w.schedule fiber run step).store = w.store := rfl

theorem suspension?_setSuspension (w : World) (s other : SuspensionId) (state : SuspensionState) :
    (w.setSuspension s state).suspension? other =
      if other = s then (w.suspension? s).map fun p => { p with state } else w.suspension? other := by
  have hindex : other.index = s.index ↔ other = s := by
    cases other
    cases s
    simp
  simp only [setSuspension, suspension?, Numbered.get?_modify, hindex]
  split
  · next heq => rw [heq]
  · rfl

end World

/-! ### What influences keep -/

/-- How a place may change while the fiber it belongs to does nothing. -/
structure Suspension.Keeps (p p' : Suspension) : Prop where
  /-- It stays the place of the fiber. -/
  fiber : p'.fiber = p.fiber
  /-- The interrupt status stays. -/
  interruptible : p'.interruptible = p.interruptible
  /-- Nobody comes to be parked at it. -/
  state : p'.state = p.state ∨ p'.state.run? = none

namespace Suspension.Keeps

theorem refl (p : Suspension) : p.Keeps p := ⟨rfl, rfl, Or.inl rfl⟩

theorem trans {p p' p'' : Suspension} (h : p.Keeps p') (h' : p'.Keeps p'') : p.Keeps p'' where
  fiber := h'.fiber.trans h.fiber
  interruptible := h'.interruptible.trans h.interruptible
  state := by
    rcases h'.state with heq | hnone
    · rw [heq]
      exact h.state
    · exact Or.inr hnone

end Suspension.Keeps

namespace Influence

variable {w w' : World} {events : List (FiberId × Event)}

theorem grows (h : Influence w events w') : w.store.Grows w'.store := by
  induction h with
  | data _ _ hgrows => exact hgrows
  | vacant _ _ _ => exact .of_fibers_eq rfl
  | resumed outcome _ _ => exact .of_fibers_eq rfl
  | cancelled source _ _ _ _ ih => exact ih
  | trans _ _ ih ih' => exact ih.trans ih'

/-- In an influence no fiber does anything. -/
theorem no_doing (h : Influence w events w') : ∀ e ∈ events, e.2.isDoing = false := by
  induction h with
  | data _ _ _ | vacant _ _ _ => simp
  | resumed outcome _ _ => simp [Event.isDoing]
  | cancelled source _ _ _ _ ih =>
    intro e he
    rcases List.mem_append.mp he with hmem | hmem
    · exact ih e hmem
    · rw [List.mem_singleton.mp hmem]
      rfl
  | trans _ _ ih ih' =>
    intro e he
    exact (List.mem_append.mp he).elim (ih e) (ih' e)

/-- A place stays the place of its fiber, and nobody comes to be parked at it. -/
theorem place (h : Influence w events w') {s : SuspensionId} {p : Suspension}
    (hp : w.suspension? s = some p) : ∃ p', w'.suspension? s = some p' ∧ p.Keeps p' := by
  have hset : ∀ {w : World} {t : SuspensionId} {state : SuspensionState} {p : Suspension},
      state.run? = none → w.suspension? s = some p →
      ∃ p', (w.setSuspension t state).suspension? s = some p' ∧ p.Keeps p' := by
    intro w t state p hstate hp
    rw [World.suspension?_setSuspension]
    split
    · next heq =>
      subst heq
      exact ⟨{ p with state }, by simp [hp], rfl, rfl, Or.inr hstate⟩
    · exact ⟨p, hp, .refl p⟩
  -- the place may have changed before, so what it holds is free
  induction h generalizing p with
  | data hs _ _ => exact ⟨p, by simpa [World.suspension?, hs] using hp, .refl p⟩
  | vacant _ _ hstate => exact hset hstate hp
  | resumed outcome _ _ => exact hset rfl hp
  | cancelled source _ _ _ _ ih =>
    obtain ⟨p₁, hp₁, hkeeps₁⟩ := @hset _ _ .over _ rfl hp
    obtain ⟨p₂, hp₂, hkeeps₂⟩ := ih hp₁
    exact ⟨p₂, hp₂, hkeeps₁.trans hkeeps₂⟩
  | trans _ _ ih ih' =>
    obtain ⟨p₁, hp₁, hkeeps₁⟩ := ih hp
    obtain ⟨p₂, hp₂, hkeeps₂⟩ := ih' hp₁
    exact ⟨p₂, hp₂, hkeeps₁.trans hkeeps₂⟩

/-- An influence creates no place. -/
theorem no_place (h : Influence w events w') {s : SuspensionId} (hp : w.suspension? s = none) :
    w'.suspension? s = none := by
  have hset : ∀ {w : World} {t : SuspensionId} {state : SuspensionState},
      w.suspension? s = none → (w.setSuspension t state).suspension? s = none := by
    intro w t state hp
    rw [World.suspension?_setSuspension]
    split
    · next heq =>
      subst heq
      simp [hp]
    · exact hp
  induction h with
  | data hs _ _ => simpa [World.suspension?, hs] using hp
  | vacant _ _ _ => exact hset hp
  | resumed outcome _ _ => exact hset hp
  | cancelled source _ _ _ _ ih => exact ih (hset hp)
  | trans _ _ ih ih' => exact ih' (ih hp)

end Influence

/-! ### Places and their fibers -/

/-- What is known of the places at which fibers wait. -/
structure World.Sound (w : World) : Prop where
  /-- The place known of a fiber is its own. -/
  owner : ∀ {id r s}, w.store.fiber? id = some r → r.suspension = some s →
    ∃ p, w.suspension? s = some p ∧ p.fiber = id
  /-- A place tells the interrupt status of the fiber parked at it. -/
  status : ∀ {s p run}, w.suspension? s = some p → p.state.run? = some run →
    p.interruptible = run.interruptible

theorem Influence.sound {w w' : World} {events : List (FiberId × Event)}
    (h : Influence w events w') (hsound : w.Sound) : w'.Sound where
  owner {id r' s} hr' hs := by
    cases hr : w.store.fiber? id with
    | none =>
      rw [h.grows.absent hr] at hr'
      cases hr'
    | some r =>
      obtain ⟨r₁, hr₁, hgrows⟩ := h.grows.record hr
      obtain rfl : r₁ = r' := Option.some.inj (hr₁.symm.trans hr')
      -- a fiber comes to wait nowhere else, so it knew the place before
      obtain ⟨p, hp, hfiber⟩ := hsound.owner hr (hgrows.suspension ▸ hs)
      obtain ⟨p', hp', hkeeps⟩ := h.place hp
      exact ⟨p', hp', hkeeps.fiber.trans hfiber⟩
  status {s p' run} hp' hrun := by
    cases hp : w.suspension? s with
    | none =>
      rw [h.no_place hp] at hp'
      cases hp'
    | some p =>
      obtain ⟨p₁, hp₁, hkeeps⟩ := h.place hp
      obtain rfl : p₁ = p' := Option.some.inj (hp₁.symm.trans hp')
      -- nobody comes to be parked, so whoever is parked was so before
      rcases hkeeps.state with heq | hnone
      · rw [hkeeps.interruptible]
        exact hsound.status hp (heq ▸ hrun)
      · rw [hnone] at hrun
        cases hrun

/-- Some influence leads from one world to the other. -/
def World.Influences (w w' : World) : Prop := ∃ events, Influence w events w'

namespace World.Influences

variable {w w' w'' : World}

theorem data (hs : w'.suspensions = w.suspensions) (ht : w'.tasks = w.tasks)
    (hgrows : w.store.Grows w'.store) : w.Influences w' :=
  ⟨[], .data hs ht hgrows⟩

/-- Data that tells nothing of fibers changes. -/
theorem unrelated (hs : w'.suspensions = w.suspensions) (ht : w'.tasks = w.tasks)
    (hf : w'.store.fibers = w.store.fibers) : w.Influences w' :=
  data hs ht (.of_fibers_eq hf)

theorem refl (w : World) : w.Influences w := unrelated rfl rfl rfl

theorem trans (h : w.Influences w') (h' : w'.Influences w'') : w.Influences w'' := by
  obtain ⟨events, h⟩ := h
  obtain ⟨events', h'⟩ := h'
  exact ⟨events ++ events', h.trans h'⟩

theorem sound (h : w.Influences w') (hsound : w.Sound) : w'.Sound := by
  obtain ⟨events, h⟩ := h
  exact h.sound hsound

theorem modifyFiber (w : World) (id : FiberId) {f : FiberRecord → FiberRecord}
    (hf : ∀ r : FiberRecord, r.Grows (f r)) : w.Influences (w.modifyFiber id f) :=
  data rfl rfl (.modifyFiber w.store id hf)

theorem foldl {α : Type} {f : World → α → World} (hf : ∀ (w : World) a, w.Influences (f w a))
    (items : List α) (w : World) : w.Influences (items.foldl f w) := by
  induction items generalizing w with
  | nil => exact refl w
  | cons a items ih => exact (hf w a).trans (ih (f w a))

end World.Influences

end Fibers
