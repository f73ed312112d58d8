import Fibers.Proofs.Linearity
import Fibers.Proofs.Shelf

/-!
# What waiting fibers are told of others

A fiber that waits for others to finish is told so at the place where it waits: the exit of the
fiber that it waits for, which of two has finished first, or which of its children has failed
first.  A ledger is kept on the side of what has been told of one fiber: who has been given its
exit, in order, and who has left without it.  `Ledger.Holds` says that the ledger fits a world: what
is told is so, an exit is given only when its fiber has finished, and what is found on the shelf
depends on whether anybody has been given the exit.

Everything that is said about places, about the shelf and about those who are to be told is said
apart, with what keeps it.

## Main definitions

* `Wait` — a wait that a fiber has begun.
* `Registration.Answered` — the end of a wait tells what is so.
* `Store.Remembers` — which fibers have finished, and which have been asked to stop, stays so.
* `Ledger` — what has been told of one fiber.
* `Ledger.GoesOn` — how a fiber may go on from a wait.
* `Ledger.Places`, `World.Promises`, `Ledger.Shelf`, `Ledger.Attends` — what is known of waiting
  places, of those who are to be told, of the exit, and of those who wait for it.
* `Ledger.Holds` — all of it.
-/

namespace Fibers

/-- A wait that a fiber has begun: where, for what, and with which rest. -/
structure Wait where
  /-- The place. -/
  place : SuspensionId
  /-- What it waits for. -/
  registration : Registration
  /-- The rest of the fiber. -/
  run : RunState

/-- What the end of a wait for other fibers tells is so, and a sleep ends without information. -/
def Registration.Answered (store : Store) : Registration → Outcome → Prop
  | .awaitExit fiber _, o => store.isFinished fiber = true ∧ ∃ x, o = .done (.exit x)
  | .firstDone left right, o =>
    ∃ b : Bool, o = .done (.bool b) ∧ store.isFinished (if b then left else right) = true
  | .firstFailure children, o =>
    (o = .done .none ∧ ∀ c ∈ children, store.isFinished c = true) ∨
      ∃ (i : Nat) (c : FiberId), children[i]? = some c ∧ o = .done (.some (.int i)) ∧
        store.isFinished c = true
  | .sleep _, o => o = .done .unit
  | .callback _, _ => True
  | .offer _ _, _ => True
  | .take _, _ => True
  | .awaitClose _, _ => True

/-- What has finished stays so. -/
theorem Registration.Answered.mono {store store' : Store} {registration : Registration}
    {o : Outcome} (h : registration.Answered store o)
    (hmono : ∀ f, store.isFinished f = true → store'.isFinished f = true) :
    registration.Answered store' o := by
  cases registration with
  | awaitExit fiber type => exact ⟨hmono _ h.1, h.2⟩
  | firstDone left right =>
    obtain ⟨b, ho, hfinished⟩ := h
    exact ⟨b, ho, hmono _ hfinished⟩
  | firstFailure children =>
    rcases h with ⟨ho, hall⟩ | ⟨i, c, hc, ho, hfinished⟩
    · exact Or.inl ⟨ho, fun c hc => hmono c (hall c hc)⟩
    · exact Or.inr ⟨i, c, hc, ho, hmono c hfinished⟩
  | sleep _ => exact h
  | callback _ | offer _ _ | take _ | awaitClose _ => trivial

/-- Who has finished has finished for good, and who has been asked to stop stays asked. -/
structure Store.Remembers (store store' : Store) : Prop where
  finished : ∀ f, store.isFinished f = true → store'.isFinished f = true
  interrupted : ∀ f, store.isInterrupted f = true → store'.isInterrupted f = true

namespace Store.Remembers

variable {store store' store'' : Store}

theorem of_fibers (h : store'.fibers = store.fibers) : store.Remembers store' := by
  have hfiber : ∀ f, store'.fiber? f = store.fiber? f := fun f => by
    rw [Store.fiber?, h, Store.fiber?]
  refine ⟨fun f hf => ?_, fun f hf => ?_⟩
  · rwa [Store.isFinished, hfiber]
  · rwa [Store.isInterrupted, hfiber]

theorem refl (store : Store) : store.Remembers store := of_fibers rfl

theorem trans (h : store.Remembers store') (h' : store'.Remembers store'') :
    store.Remembers store'' :=
  ⟨fun f hf => h'.finished f (h.finished f hf), fun f hf => h'.interrupted f (h.interrupted f hf)⟩

/-- A record changes in which nothing is forgotten. -/
theorem modifyFiber (store : Store) (id : FiberId) {f : FiberRecord → FiberRecord}
    (hfinished : ∀ r, r.finished = true → (f r).finished = true)
    (hinterrupted : ∀ r, r.isInterrupted = true → (f r).isInterrupted = true) :
    store.Remembers (store.modifyFiber id f) := by
  have hread : ∀ {read : FiberRecord → Bool}, (∀ r, read r = true → read (f r) = true) →
      ∀ other, (store.fiber? other).any read = true →
        ((store.modifyFiber id f).fiber? other).any read = true := by
    intro read hread other hother
    rw [Store.fiber?_modifyFiber]
    split
    · next heq =>
      subst heq
      obtain ⟨r, hr, htrue⟩ := (Option.any_eq_true ..).mp hother
      rw [hr, Option.map_some, Option.any_some]
      exact hread r htrue
    · exact hother
  exact ⟨hread hfinished, hread hinterrupted⟩

end Store.Remembers

/-- The place of an observer waits for what the observer is going to tell of a fiber. -/
def Observer.Fits (w : World) (fiber : FiberId) : Observer → Prop
  | .report _ => True
  | .exitTo waiter type =>
    ∃ p, w.suspension? waiter = some p ∧ p.registration = .awaitExit fiber type
  | .firstDone waiter left =>
    ∃ p a b, w.suspension? waiter = some p ∧ p.registration = .firstDone a b ∧
      fiber = if left then a else b
  | .firstFailure waiter children position =>
    ∃ p, w.suspension? waiter = some p ∧ p.registration = .firstFailure children ∧
      children[position]? = some fiber

theorem Observer.Fits.preserved {w w' : World} {fiber : FiberId} {observer : Observer}
    (h : observer.Fits w fiber) (hw : w.Preserves w') : observer.Fits w' fiber := by
  cases observer with
  | report type => trivial
  | exitTo waiter type =>
    obtain ⟨p, hp, hregistration⟩ := h
    obtain ⟨state, hp'⟩ := hw.place hp
    exact ⟨_, hp', hregistration⟩
  | firstDone waiter left =>
    obtain ⟨p, a, b, hp, hregistration, hfiber⟩ := h
    obtain ⟨state, hp'⟩ := hw.place hp
    exact ⟨_, a, b, hp', hregistration, hfiber⟩
  | firstFailure waiter children position =>
    obtain ⟨p, hp, hregistration, hfiber⟩ := h
    obtain ⟨state, hp'⟩ := hw.place hp
    exact ⟨_, hp', hregistration, hfiber⟩

/-- The observers by which a place that waits is told of a fiber. -/
def Registration.observers (s : SuspensionId) (c : FiberId) : Registration → List Observer
  | .awaitExit fiber type => if fiber = c then [.exitTo s type] else []
  | .firstDone left right =>
    (if left = c then [.firstDone s true] else []) ++
      if right = c then [.firstDone s false] else []
  | .firstFailure children =>
    (children.zipIdx.filter (·.1 = c)).map fun child => .firstFailure s children child.2
  | .callback _ | .sleep _ | .offer _ _ | .take _ | .awaitClose _ => []

section Observers

variable {s : SuspensionId} {c : FiberId} {registration : Registration} {o : Observer}

theorem Registration.mem_observers_awaitExit {fiber : FiberId} {type : ErrorType} :
    o ∈ (Registration.awaitExit fiber type).observers s c ↔ fiber = c ∧ o = .exitTo s type := by
  simp only [observers]
  split
  · next heq => simp [heq]
  · next hne => simp [hne]

theorem Registration.mem_observers_firstDone {left right : FiberId} :
    o ∈ (Registration.firstDone left right).observers s c ↔
      ∃ b : Bool, o = .firstDone s b ∧ (if b then left else right) = c := by
  simp only [observers, List.mem_append]
  constructor
  · rintro (h | h) <;> split at h
    · next heq => exact ⟨true, List.mem_singleton.mp h, heq⟩
    · cases h
    · next heq => exact ⟨false, List.mem_singleton.mp h, heq⟩
    · cases h
  · rintro ⟨b, rfl, heq⟩
    cases b with
    | true =>
      obtain rfl : left = c := heq
      exact Or.inl (by simp)
    | false =>
      obtain rfl : right = c := heq
      exact Or.inr (by simp)

theorem Registration.mem_observers_firstFailure {children : List FiberId} :
    o ∈ (Registration.firstFailure children).observers s c ↔
      ∃ i, children[i]? = some c ∧ o = .firstFailure s children i := by
  simp only [observers, List.mem_map, List.mem_filter, decide_eq_true_eq]
  constructor
  · rintro ⟨⟨c', i⟩, ⟨hmem, rfl⟩, rfl⟩
    exact ⟨i, List.mem_zipIdx_iff_getElem?.mp hmem, rfl⟩
  · rintro ⟨i, hi, rfl⟩
    exact ⟨(c, i), ⟨List.mem_zipIdx_iff_getElem?.mpr hi, rfl⟩, rfl⟩

/-- An observer tells of one fiber. -/
theorem Registration.eq_of_mem_observers {c' : FiberId} (ho : o ∈ registration.observers s c)
    (ho' : o ∈ registration.observers s c') : c = c' := by
  cases registration with
  | awaitExit fiber type =>
    exact (mem_observers_awaitExit.mp ho).1.symm.trans (mem_observers_awaitExit.mp ho').1
  | firstDone left right =>
    obtain ⟨b, rfl, rfl⟩ := mem_observers_firstDone.mp ho
    obtain ⟨b', heq, rfl⟩ := mem_observers_firstDone.mp ho'
    rw [(Observer.firstDone.inj heq).2]
  | firstFailure children =>
    obtain ⟨i, hi, rfl⟩ := mem_observers_firstFailure.mp ho
    obtain ⟨i', hi', heq⟩ := mem_observers_firstFailure.mp ho'
    obtain ⟨-, -, rfl⟩ := Observer.firstFailure.inj heq
    exact Option.some.inj (hi.symm.trans hi')
  | callback _ | sleep _ | offer _ _ | take _ | awaitClose _ => cases ho

/-- An observer tells one place. -/
theorem Registration.place_eq_of_mem {registration' : Registration} {s' : SuspensionId}
    {c' : FiberId} (ho : o ∈ registration.observers s c)
    (ho' : o ∈ registration'.observers s' c') : s = s' := by
  have hplace : ∀ {s : SuspensionId} {c : FiberId} {registration : Registration},
      o ∈ registration.observers s c → o.waiter? = some s := by
    intro s c registration ho
    cases registration with
    | awaitExit fiber type =>
      rw [(mem_observers_awaitExit.mp ho).2]
      rfl
    | firstDone left right =>
      obtain ⟨b, rfl, -⟩ := mem_observers_firstDone.mp ho
      rfl
    | firstFailure children =>
      obtain ⟨i, -, rfl⟩ := mem_observers_firstFailure.mp ho
      rfl
    | callback _ | sleep _ | offer _ _ | take _ | awaitClose _ => cases ho
  exact Option.some.inj ((hplace ho).symm.trans (hplace ho'))

/-- The place that an observer tells waits for what it tells. -/
theorem Observer.Fits.place {w : World} {fiber : FiberId} (h : o.Fits w fiber)
    (ho : o ∈ registration.observers s c) :
    ∃ p, w.suspension? s = some p ∧ o ∈ p.registration.observers s fiber := by
  cases registration with
  | awaitExit other type =>
    obtain ⟨-, rfl⟩ := Registration.mem_observers_awaitExit.mp ho
    obtain ⟨p, hp, hregistration⟩ := h
    refine ⟨p, hp, ?_⟩
    rw [hregistration]
    exact Registration.mem_observers_awaitExit.mpr ⟨rfl, rfl⟩
  | firstDone left right =>
    obtain ⟨b, rfl, -⟩ := Registration.mem_observers_firstDone.mp ho
    obtain ⟨p, a, b', hp, hregistration, heq⟩ := h
    refine ⟨p, hp, ?_⟩
    rw [hregistration]
    exact Registration.mem_observers_firstDone.mpr ⟨b, rfl, heq.symm⟩
  | firstFailure children =>
    obtain ⟨i, -, rfl⟩ := Registration.mem_observers_firstFailure.mp ho
    obtain ⟨p, hp, hregistration, hi⟩ := h
    refine ⟨p, hp, ?_⟩
    rw [hregistration]
    exact Registration.mem_observers_firstFailure.mpr ⟨i, hi, rfl⟩
  | callback _ | sleep _ | offer _ _ | take _ | awaitClose _ => cases ho

end Observers

/-- An observer is going to be told when a fiber finishes. -/
def World.WillTell (w : World) (fiber : FiberId) (o : Observer) : Prop :=
  ∃ r, w.store.fiber? fiber = some r ∧ r.finished = false ∧ o ∈ r.observers

/-- What has been told of one fiber. -/
structure Ledger where
  /-- The fiber. -/
  fiber : FiberId
  /-- The names of fibers. -/
  names : FiberNames
  /-- The wait that a fiber has begun last and not gone on from. -/
  last : FiberId → Option Wait
  /-- The places at which the fiber has been waited for, each with the type of failures. -/
  asked : List (SuspensionId × ErrorType)
  /-- How the fiber has ended, if it has. -/
  result : Option Outcome
  /-- Who has been given its exit, in order: a waiting place, or the one who started the fiber. -/
  given : List (Option SuspensionId × Exit Value Value)
  /-- Those who are about to be told that it has finished, and those who will never be told because
  there was no such fiber when they asked. -/
  pending : List Observer

namespace Ledger

variable {l : Ledger} {w w' : World}

/-- The types of failures with which the fiber has been waited for. -/
def types (l : Ledger) : List ErrorType := l.asked.map Prod.snd

/-- More is given. -/
def give (l : Ledger) (more : List (Option SuspensionId × Exit Value Value)) : Ledger :=
  { l with given := l.given ++ more }

@[simp] theorem give_nil (l : Ledger) : l.give [] = l := by simp [give]

@[simp] theorem give_give (l : Ledger)
    (more more' : List (Option SuspensionId × Exit Value Value)) :
    (l.give more).give more' = l.give (more ++ more') := by
  simp [give]

/-- The fiber has ended with a value, as far as its exit has not been given away. -/
def Succeeded (l : Ledger) : Prop := l.given = [] → ∃ v, l.result = some (.done v)

/-- The fiber has ended with a failure, as far as its exit has not been given away. -/
def Failed (l : Ledger) : Prop := l.given = [] → ∃ h, l.result = some (.halt h)

/-- The outcome of a wait tells what is so: an exit has been given to whom it is told, no child has
failed where that is told, and a child has failed that is told to have. -/
structure Told (l : Ledger) (store : Store) (s : SuspensionId) (registration : Registration)
    (o : Outcome) : Prop where
  answered : registration.Answered store o
  exit : ∀ type x, registration = .awaitExit l.fiber type → o = .done (.exit x) →
    (some s, x) ∈ l.given
  succeeded : ∀ children, registration = .firstFailure children → o = .done .none →
    l.fiber ∈ children → l.Succeeded
  failed : ∀ children (i : Nat), registration = .firstFailure children →
    o = .done (.some (.int i)) → children[i]? = some l.fiber → l.Failed

/-- A place is over for a request to stop, and has not been given anything. -/
structure Lost (l : Ledger) (w : World) (s : SuspensionId) : Prop where
  isOver : w.isOver s = true
  nothing : ∀ x, (some s, x) ∉ l.given
  asked : ∃ p, w.suspension? s = some p ∧ w.store.isInterrupted p.fiber = true

/-- How a fiber may go on from a wait. -/
inductive GoesOn (l : Ledger) (w : World) (wait : Wait) : RunState → Step → Prop where
  /-- With what it has been told. -/
  | told {o : Outcome} : l.Told w.store wait.place wait.registration o →
      GoesOn l w wait wait.run (.ofOutcome o)
  /-- With a cancellation. -/
  | interrupted (source : FiberId) : wait.run.interruptible = true → l.Lost w wait.place →
      GoesOn l w wait wait.run (.interrupt source)

/-- How a world may become another one without anything being forgotten that has been told. -/
structure Later (more : List (Option SuspensionId × Exit Value Value)) (w w' : World) : Prop where
  preserves : w.Preserves w'
  remembers : w.store.Remembers w'.store
  isOver : ∀ s, w.isOver s = true → w'.isOver s = true
  fresh : ∀ s x, (some s, x) ∈ more → w.isOver s = false

theorem Succeeded.give {more : List (Option SuspensionId × Exit Value Value)} (h : l.Succeeded) :
    (l.give more).Succeeded := fun hnil => h (List.append_eq_nil_iff.mp hnil).1

theorem Failed.give {more : List (Option SuspensionId × Exit Value Value)} (h : l.Failed) :
    (l.give more).Failed := fun hnil => h (List.append_eq_nil_iff.mp hnil).1

theorem Told.later {more : List (Option SuspensionId × Exit Value Value)} {s : SuspensionId}
    {registration : Registration} {o : Outcome} (h : l.Told w.store s registration o)
    (hlater : Later more w w') : (l.give more).Told w'.store s registration o :=
  ⟨h.answered.mono hlater.remembers.finished, fun type x hregistration ho =>
    List.mem_append_left _ (h.exit type x hregistration ho), fun children hregistration ho hmem =>
    (h.succeeded children hregistration ho hmem).give, fun children i hregistration ho hi =>
    (h.failed children i hregistration ho hi).give⟩

theorem Lost.later {more : List (Option SuspensionId × Exit Value Value)} {s : SuspensionId}
    (h : l.Lost w s) (hlater : Later more w w') : (l.give more).Lost w' s := by
  refine ⟨hlater.isOver s h.isOver, fun x hmem => ?_, ?_⟩
  · rcases List.mem_append.mp hmem with hold | hnew
    · exact h.nothing x hold
    · have hlive := hlater.fresh s x hnew
      rw [h.isOver] at hlive
      cases hlive
  · obtain ⟨p, hp, hasked⟩ := h.asked
    obtain ⟨state, hp'⟩ := hlater.preserves.place hp
    exact ⟨_, hp', hlater.remembers.interrupted _ hasked⟩

theorem GoesOn.later {more : List (Option SuspensionId × Exit Value Value)} {wait : Wait}
    {run : RunState} {step : Step} (h : l.GoesOn w wait run step) (hlater : Later more w w') :
    (l.give more).GoesOn w' wait run step := by
  cases h with
  | told htold => exact .told (htold.later hlater)
  | interrupted source hallowed hlost => exact .interrupted source hallowed (hlost.later hlater)

/-- What is known of the end of the fiber does not change. -/
structure Extends (l l' : Ledger) : Prop where
  fiber : l'.fiber = l.fiber
  given : l'.given = l.given
  result : ∀ o, l.result = some o → l'.result = some o

theorem Extends.give {l' : Ledger} (h : l.Extends l')
    (more : List (Option SuspensionId × Exit Value Value)) : (l.give more).Extends (l'.give more) :=
  ⟨h.fiber, congrArg (· ++ more) h.given, h.result⟩

theorem Succeeded.extended {l' : Ledger} (h : l.Succeeded) (hl : l.Extends l') :
    l'.Succeeded := fun hnil => by
  rw [hl.given] at hnil
  exact (h hnil).imp fun _ => hl.result _

theorem Failed.extended {l' : Ledger} (h : l.Failed) (hl : l.Extends l') : l'.Failed :=
  fun hnil => by
    rw [hl.given] at hnil
    exact (h hnil).imp fun _ => hl.result _

theorem Told.extended {l' : Ledger} {store : Store} {s : SuspensionId}
    {registration : Registration} {o : Outcome} (h : l.Told store s registration o)
    (hl : l.Extends l') : l'.Told store s registration o where
  answered := h.answered
  exit := by
    rw [hl.fiber, hl.given]
    exact h.exit
  succeeded children hregistration ho hmem := by
    rw [hl.fiber] at hmem
    exact (h.succeeded children hregistration ho hmem).extended hl
  failed children i hregistration ho hi := by
    rw [hl.fiber] at hi
    exact (h.failed children i hregistration ho hi).extended hl

/-- How a fiber may go on depends on nothing but what has been given and how the fiber of the
ledger has ended. -/
theorem GoesOn.extended {l' : Ledger} {wait : Wait} {run : RunState} {step : Step}
    (h : l.GoesOn w wait run step) (hl : l.Extends l') : l'.GoesOn w wait run step := by
  cases h with
  | told htold => exact .told (htold.extended hl)
  | interrupted source hallowed hlost =>
    refine .interrupted source hallowed ⟨hlost.isOver, ?_, hlost.asked⟩
    rw [hl.given]
    exact hlost.nothing

/-! ### Time passes -/

namespace Later

variable {more more' : List (Option SuspensionId × Exit Value Value)} {w'' : World}

theorem trans (h : Later more w w') (h' : Later more' w' w'') : Later (more ++ more') w w'' where
  preserves := h.preserves.trans h'.preserves
  remembers := h.remembers.trans h'.remembers
  isOver s hs := h'.isOver s (h.isOver s hs)
  fresh s x hmem := by
    rcases List.mem_append.mp hmem with hfirst | hsecond
    · exact h.fresh s x hfirst
    · have hlive := h'.fresh s x hsecond
      exact Bool.eq_false_iff.mpr fun hover => Bool.eq_false_iff.mp hlive (h.isOver s hover)

/-- A world in which no place has changed. -/
theorem of_suspensions (hs : w'.suspensions = w.suspensions)
    (hremembers : w.store.Remembers w'.store) : Later [] w w' where
  preserves := .of_suspensions hs
  remembers := hremembers
  isOver s hover := by rwa [World.isOver_of_suspensions hs]
  fresh s x hmem := by cases hmem

/-- The one who started the fiber is given something. -/
theorem reported (w : World) (x : Exit Value Value) : Later [(none, x)] w w :=
  ⟨.of_suspensions rfl, .refl _, fun _ hs => hs, by simp⟩

/-- A place changes that has not been over, or stays over. -/
theorem setSuspension {s : SuspensionId} {place : Suspension}
    (hplace : w.suspension? s = some place) {state : SuspensionState}
    (hmore : ∀ t x, (some t, x) ∈ more → t = s)
    (hover : place.state.isOver = true → state.isOver = true ∧ more = []) :
    Later more w (w.setSuspension s state) := by
  have hbefore : w.isOver s = place.state.isOver := by rw [World.isOver, hplace, Option.any_some]
  refine ⟨w.preserves_setSuspension s state, .refl _, fun t ht => ?_, fun t x hmem => ?_⟩
  · rw [World.isOver_setSuspension hplace]
    split
    · next heq =>
      subst heq
      exact (hover (hbefore ▸ ht)).1
    · exact ht
  · obtain rfl := hmore t x hmem
    rw [hbefore]
    -- a place that was over before is given nothing
    cases hstate : place.state.isOver with
    | false => rfl
    | true =>
      rw [(hover hstate).2] at hmem
      cases hmem

/-- A wait is completed. -/
theorem resume {s : SuspensionId} (hlive : w.isLive s = true) (o : Outcome)
    (hmore : ∀ e ∈ more, e.1 = some s) : Later more w (w.resume s o).2 := by
  refine ⟨w.preserves_resume s o, w.store_resume s o ▸ .refl _, fun t ht => ?_,
    fun t x hmem => ?_⟩
  · cases hplace : w.suspension? s with
    | none =>
      rw [World.isLive, hplace] at hlive
      cases hlive
    | some place =>
      rw [World.isOver_resume hplace, ht, ite_self]
  · obtain rfl := Option.some.inj (hmore _ hmem)
    exact World.isOver_of_isLive hlive

/-- A place is made. -/
theorem opened (w : World) (fiber : FiberId) (allowed : Bool) (registration : Registration) :
    Later [] w (w.newSuspension fiber allowed registration).2 := by
  have hold : ∀ {s p}, w.suspension? s = some p →
      (w.newSuspension fiber allowed registration).2.suspension? s = some p := by
    intro s p hp
    rw [World.suspension?_newSuspension, if_neg, hp]
    rintro rfl
    rw [World.suspension?_next] at hp
    cases hp
  refine ⟨⟨fun {s p} hp => ⟨p.state, hold hp⟩⟩, ?_, fun s hs => ?_, by simp⟩
  · exact .modifyFiber w.store fiber (fun _ hr => hr) fun _ hr => hr
  · obtain ⟨p, hp, hover⟩ := (Option.any_eq_true ..).mp hs
    rw [World.isOver, hold hp, Option.any_some, hover]

end Later

/-! ### Places -/

/-- What is known of waiting places, and of the fibers that are ready to go on from one. -/
structure Places (l : Ledger) (w : World) : Prop where
  /-- Who is parked is parked for its last wait. -/
  parked : ∀ {s p run onInterrupt}, w.suspension? s = some p → p.state = .waiting run onInterrupt →
    l.last p.fiber = some ⟨s, p.registration, run⟩
  /-- What is told before a fiber is parked is so. -/
  early : ∀ {s p o}, w.suspension? s = some p → p.state = .early o →
    l.Told w.store s p.registration o
  /-- Who is ready goes on from its last wait. -/
  ready : ∀ {task wait}, task ∈ w.tasks.toList → l.last task.fiber = some wait →
    l.GoesOn w wait task.run task.step
  /-- No place is given the exit twice. -/
  once : (l.given.filterMap Prod.fst).Nodup
  /-- A place that has been given the exit has waited for it, and is over. -/
  served : ∀ {s x}, (some s, x) ∈ l.given →
    w.isOver s = true ∧ ∃ p type, w.suspension? s = some p ∧
      p.registration = .awaitExit l.fiber type
  /-- Every place at which the fiber is waited for is known. -/
  asked : ∀ {s p type}, w.suspension? s = some p → p.registration = .awaitExit l.fiber type →
    (s, type) ∈ l.asked

/-- Places and ready fibers stay as they are. -/
theorem Places.data (h : l.Places w) (hs : w'.suspensions = w.suspensions)
    (ht : w'.tasks = w.tasks) (hremembers : w.store.Remembers w'.store) : l.Places w' := by
  have hlater := Later.of_suspensions hs hremembers
  have hsusp : ∀ s, w'.suspension? s = w.suspension? s := fun s => by
    rw [World.suspension?, hs, World.suspension?]
  refine ⟨?_, ?_, ?_, h.once, ?_, fun {s p type} hp => h.asked ((hsusp s).symm.trans hp)⟩
  · intro s p run onInterrupt hp hstate
    exact h.parked ((hsusp s).symm.trans hp) hstate
  · intro s p o hp hstate
    simpa using (h.early ((hsusp s).symm.trans hp) hstate).later hlater
  · intro task wait htask hwait
    rw [ht] at htask
    simpa using (h.ready htask hwait).later hlater
  · intro s x hmem
    obtain ⟨hover, p, type, hp, hregistration⟩ := h.served hmem
    exact ⟨hlater.isOver s hover, p, type, (hsusp s).trans hp, hregistration⟩

/-- A place changes at which nobody comes to be parked but for its last wait, and at which nothing
is told that is not so. -/
theorem Places.setSuspension (h : l.Places w) {s : SuspensionId} {place : Suspension}
    (hplace : w.suspension? s = some place) {state : SuspensionState}
    {more : List (Option SuspensionId × Exit Value Value)}
    (hlater : Later more w (w.setSuspension s state))
    (hmore : ∀ t x, (some t, x) ∈ more → t = s ∧ state.isOver = true ∧
      ∃ type, place.registration = .awaitExit l.fiber type)
    (honce : (more.filterMap Prod.fst).Nodup)
    (hparked : ∀ {run onInterrupt}, state = .waiting run onInterrupt →
      l.last place.fiber = some ⟨s, place.registration, run⟩)
    (hearly : ∀ {o}, state = .early o → (l.give more).Told w.store s place.registration o) :
    (l.give more).Places (w.setSuspension s state) := by
  have hself : (w.setSuspension s state).suspension? s = some { place with state } := by
    rw [World.suspension?_setSuspension, if_pos rfl, hplace, Option.map_some]
  have hother : ∀ {t}, t ≠ s → (w.setSuspension s state).suspension? t = w.suspension? t :=
    fun hne => by rw [World.suspension?_setSuspension, if_neg hne]
  refine ⟨?_, ?_, ?_, ?_, ?_, ?_⟩
  · intro t p run onInterrupt hp hstate
    by_cases heq : t = s
    · subst heq
      obtain rfl := Option.some.inj (hself.symm.trans hp)
      exact hparked hstate
    · exact h.parked ((hother heq).symm.trans hp) hstate
  · intro t p o hp hstate
    by_cases heq : t = s
    · subst heq
      obtain rfl := Option.some.inj (hself.symm.trans hp)
      exact hearly hstate
    · exact (h.early ((hother heq).symm.trans hp) hstate).later hlater
  · intro task wait htask hwait
    exact (h.ready htask hwait).later hlater
  · -- a place that has been given something before is over
    rw [give, List.filterMap_append]
    refine h.once.append honce fun t hold hnew => ?_
    obtain ⟨⟨_, x⟩, hx, rfl⟩ := List.mem_filterMap.mp hold
    obtain ⟨⟨_, y⟩, hy, heq⟩ := List.mem_filterMap.mp hnew
    obtain rfl : _ = some t := heq
    have hlive := hlater.fresh t y hy
    rw [(h.served hx).1] at hlive
    cases hlive
  · intro t x hmem
    rcases List.mem_append.mp hmem with hold | hnew
    · obtain ⟨hbefore, p, type, hp, hregistration⟩ := h.served hold
      obtain ⟨state', hp'⟩ := hlater.preserves.place hp
      exact ⟨hlater.isOver t hbefore, _, type, hp', hregistration⟩
    · obtain ⟨rfl, hstate, type, hregistration⟩ := hmore t x hnew
      refine ⟨?_, _, type, hself, hregistration⟩
      rw [World.isOver, hself, Option.any_some]
      exact hstate
  · intro t p type hp hregistration
    by_cases heq : t = s
    · subst heq
      obtain rfl := Option.some.inj (hself.symm.trans hp)
      exact h.asked hplace hregistration
    · exact h.asked ((hother heq).symm.trans hp) hregistration

/-- A fiber becomes ready. -/
theorem Places.schedule (h : l.Places w) {fiber : FiberId} {run : RunState} {step : Step}
    (hgo : ∀ wait, l.last fiber = some wait → l.GoesOn w wait run step) :
    l.Places (w.schedule fiber run step) := by
  have hlater : Later [] w (w.schedule fiber run step) := .of_suspensions rfl (.refl _)
  refine ⟨h.parked, h.early, ?_, h.once, h.served, h.asked⟩
  intro task wait htask hwait
  simp only [World.schedule, Fifo.toList_push, List.mem_append, List.mem_singleton] at htask
  rcases htask with hold | rfl
  · simpa using (h.ready hold hwait).later hlater
  · simpa using (hgo wait hwait).later hlater

/-- A place is made. -/
theorem Places.opened (h : l.Places w) (fiber : FiberId) (allowed : Bool)
    {registration : Registration}
    (hasked : ∀ type, registration = .awaitExit l.fiber type →
      (⟨w.suspensions.next⟩, type) ∈ l.asked) :
    l.Places (w.newSuspension fiber allowed registration).2 := by
  have hlater := Later.opened w fiber allowed registration
  have hback : ∀ {s p}, (w.newSuspension fiber allowed registration).2.suspension? s = some p →
      p.state ≠ .registering → w.suspension? s = some p := by
    intro s p hp hstate
    rw [World.suspension?_newSuspension] at hp
    split at hp
    · obtain rfl := Option.some.inj hp
      exact absurd rfl hstate
    · exact hp
  refine ⟨?_, ?_, ?_, h.once, ?_, fun {s p type} hp hregistration => ?_⟩
  · intro s p run onInterrupt hp hstate
    exact h.parked (hback hp (by rw [hstate]; simp)) hstate
  · intro s p o hp hstate
    simpa using (h.early (hback hp (by rw [hstate]; simp)) hstate).later hlater
  · intro task wait htask hwait
    simpa using (h.ready htask hwait).later hlater
  · intro s x hmem
    obtain ⟨hover, p, type, hp, hregistration⟩ := h.served hmem
    obtain ⟨state, hp'⟩ := hlater.preserves.place hp
    exact ⟨hlater.isOver s hover, _, type, hp', hregistration⟩
  · rw [World.suspension?_newSuspension] at hp
    split at hp
    · next heq =>
      obtain rfl := Option.some.inj hp
      exact heq ▸ hasked type hregistration
    · exact h.asked hp hregistration

/-- The one who started the fiber is given its exit. -/
theorem Places.report (h : l.Places w) (x : Exit Value Value) : (l.give [(none, x)]).Places w := by
  have hlater := Later.reported w x
  refine ⟨h.parked, fun hp hstate => (h.early hp hstate).later hlater,
    fun htask hwait => (h.ready htask hwait).later hlater, ?_, fun {s y} hmem => ?_, h.asked⟩
  · rw [give, List.filterMap_append]
    simpa using h.once
  simp only [give, List.mem_append, List.mem_singleton, Prod.mk.injEq, reduceCtorEq, false_and,
    or_false] at hmem
  exact h.served hmem

/-! ### The exit -/

/-- What is found in the place of the exit. -/
inductive Shelf (l : Ledger) (w : World) : Prop where
  /-- Nothing, as long as the fiber has not finished. -/
  | going : l.result = none → w.store.isFinished l.fiber = false →
      w.store.exit? l.fiber = none → l.given = [] → Shelf l w
  /-- The exit, as long as nobody has been given it. -/
  | kept {o : Outcome} {types : List ErrorType} : l.result = some o →
      w.store.isFinished l.fiber = true → w.store.exit? l.fiber = some (o.passed types) →
      types ⊆ l.types → l.given = [] → Shelf l w
  /-- Nothing or a defect after that.  The first one has been given the exit, and all others the
  defect. -/
  | taken {o : Outcome} {types : List ErrorType} {type : ErrorType} {who : Option SuspensionId}
      {rest : List (Option SuspensionId × Exit Value Value)} : l.result = some o →
      w.store.isFinished l.fiber = true →
      (w.store.exit? l.fiber = none ∨ w.store.exit? l.fiber = some (w.exitTaken l.fiber)) →
      types ⊆ l.types →
      (∀ s, who = some s → ∃ p, w.suspension? s = some p ∧
        p.registration = .awaitExit l.fiber type) →
      l.given = (who, (o.passed types).untag type) :: rest →
      (∀ e ∈ rest, e.2 = w.store.names.observed l.fiber) → Shelf l w

/-- Nothing happens to the exit. -/
theorem Shelf.preserved (h : l.Shelf w) (hw : w.Preserves w')
    (hfinished : w'.store.isFinished l.fiber = w.store.isFinished l.fiber)
    (hexit : w'.store.exit? l.fiber = w.store.exit? l.fiber)
    (hnames : w'.store.names = w.store.names) : l.Shelf w' := by
  have htaken : w'.exitTaken l.fiber = w.exitTaken l.fiber := by
    rw [World.exitTaken, World.exitTaken, hnames]
  cases h with
  | going hresult hgoing hnone hgiven =>
    exact .going hresult (hfinished.trans hgoing) (hexit.trans hnone) hgiven
  | kept hresult hdone hsome htypes hgiven =>
    exact .kept hresult (hfinished.trans hdone) (hexit.trans hsome) htypes hgiven
  | taken hresult hdone hgone htypes hwho hgiven hrest =>
    refine .taken hresult (hfinished.trans hdone) ?_ htypes (fun s hs => ?_) hgiven ?_
    · rw [hexit, htaken]
      exact hgone
    · obtain ⟨p, hp, hregistration⟩ := hwho s hs
      obtain ⟨state, hp'⟩ := hw.place hp
      exact ⟨_, hp', hregistration⟩
    · rw [hnames]
      exact hrest

/-- A fiber that has finished and is not known to have failed has ended with a value, or its exit has
been given away. -/
theorem Shelf.succeeded (h : l.Shelf w) (hfinished : w.store.isFinished l.fiber = true)
    (hfailed : w.store.hasFailed l.fiber = false) : l.Succeeded := by
  intro hnil
  cases h with
  | going _ hgoing _ _ =>
    rw [hfinished] at hgoing
    cases hgoing
  | taken _ _ _ _ _ hgiven _ =>
    rw [hnil] at hgiven
    cases hgiven
  | @kept o types hresult _ hexit _ _ =>
    cases o with
    | done v => exact ⟨v, hresult⟩
    | halt failure =>
      rw [Store.hasFailed_of_exit? hexit] at hfailed
      obtain ⟨failure', heq⟩ := Exit.passed_halt types failure
      rw [heq] at hfailed
      cases hfailed

/-- A fiber that has finished and is known to have failed has ended with a failure, or its exit has
been given away. -/
theorem Shelf.failed (h : l.Shelf w) (hfinished : w.store.isFinished l.fiber = true)
    (hfailed : w.store.hasFailed l.fiber = true) : l.Failed := by
  intro hnil
  cases h with
  | going _ hgoing _ _ =>
    rw [hfinished] at hgoing
    cases hgoing
  | taken _ _ _ _ _ hgiven _ =>
    rw [hnil] at hgiven
    cases hgiven
  | @kept o types hresult _ hexit _ _ =>
    cases o with
    | halt failure => exact ⟨failure, hresult⟩
    | done v =>
      rw [Store.hasFailed_of_exit? hexit, Exit.passed_done] at hfailed
      cases hfailed

/-! ### Everything -/

/-- An observer has nothing to tell any more, because the fiber of the ledger has not failed. -/
def Waives (l : Ledger) (o : Observer) : Prop :=
  l.Succeeded ∧ ∃ s children i, o = .firstFailure s children i

/-- Whoever is parked until the fiber of the ledger finishes, or fails, is going to be told, if there
was such a fiber and it has not succeeded. -/
def Attends (l : Ledger) (w : World) : Prop :=
  ∀ {s p run onInterrupt o}, w.suspension? s = some p → p.state = .waiting run onInterrupt →
    o ∈ p.registration.observers s l.fiber →
      o ∈ l.pending ∨ w.WillTell l.fiber o ∨ l.Waives o

theorem Waives.give {o : Observer} {more : List (Option SuspensionId × Exit Value Value)}
    (h : l.Waives o) : (l.give more).Waives o := ⟨h.1.give, h.2⟩

theorem Waives.extended {l' : Ledger} {o : Observer} (h : l.Waives o) (hl : l.Extends l') :
    l'.Waives o := ⟨h.1.extended hl, h.2⟩

end Ledger

/-- Alarms wake those who sleep, and fibers that finish tell those who wait for it. -/
structure World.Promises (w : World) : Prop where
  alarms : ∀ {a}, a ∈ w.store.alarms.pending →
    ∃ p millis, w.suspension? a.payload = some p ∧ p.registration = .sleep millis
  observers : ∀ {fiber r o}, w.store.fiber? fiber = some r → o ∈ r.observers → o.Fits w fiber

namespace Ledger

/-- The ledger fits the world in everything but the exit. -/
structure Tracks (l : Ledger) (w : World) : Prop where
  names : w.store.names = l.names
  places : l.Places w
  promises : w.Promises
  attends : l.Attends w
  /-- Who has not been created has not begun to wait. -/
  unborn : ∀ {f}, w.store.fiber? f = none → l.last f = none

/-- The ledger fits the world. -/
structure Holds (l : Ledger) (w : World) : Prop extends Tracks l w where
  shelf : l.Shelf w
  /-- What the one who started the fiber has been given has been reported. -/
  reports : (w.store.reports.filterMap fun r => if r.1 = l.fiber then some r.2 else none) =
    l.given.filterMap fun e => if e.1 = none then some e.2 else none

end Ledger

/-! ### Changes that are not told -/

/-- What is known of a fiber as far as others are going to be told. -/
def FiberRecord.news (r : FiberRecord) : Bool × List Observer := (r.finished, r.observers)

/-- Nothing changes that tells who is to be told, and no fiber finishes. -/
structure World.Quiet (w w' : World) : Prop where
  suspensions : w'.suspensions = w.suspensions
  tasks : w'.tasks = w.tasks
  names : w'.store.names = w.store.names
  alarms : ∀ {a}, a ∈ w'.store.alarms.pending → a ∈ w.store.alarms.pending
  remembers : w.store.Remembers w'.store
  news : ∀ f, (w'.store.fiber? f).map FiberRecord.news = (w.store.fiber? f).map FiberRecord.news

namespace World.Quiet

variable {w w' : World}

theorem of_eq (hs : w'.suspensions = w.suspensions) (ht : w'.tasks = w.tasks)
    (hn : w'.store.names = w.store.names) (ha : w'.store.alarms = w.store.alarms)
    (hf : w'.store.fibers = w.store.fibers) : w.Quiet w' :=
  ⟨hs, ht, hn, fun h => ha ▸ h, .of_fibers hf, fun f => by rw [Store.fiber?, hf, Store.fiber?]⟩

theorem refl (w : World) : w.Quiet w := of_eq rfl rfl rfl rfl rfl

theorem modifyFiber (w : World) (id : FiberId) {f : FiberRecord → FiberRecord}
    (hf : ∀ r, (f r).news = r.news)
    (hasked : ∀ r, r.isInterrupted = true → (f r).isInterrupted = true) :
    w.Quiet (w.modifyFiber id f) := by
  have hfinished : ∀ r, r.finished = true → (f r).finished = true := fun r hr =>
    (congrArg Prod.fst (hf r)).trans hr
  refine ⟨rfl, rfl, rfl, fun h => h, .modifyFiber w.store id hfinished hasked, fun other => ?_⟩
  simp only [World.modifyFiber, Store.fiber?_modifyFiber]
  split
  · next heq =>
    rw [heq]
    cases w.store.fiber? id <;> simp [hf]
  · rfl

variable (h : w.Quiet w')
include h

theorem preserves : w.Preserves w' := .of_suspensions h.suspensions

theorem isFinished (f : FiberId) : w'.store.isFinished f = w.store.isFinished f := by
  have hread : ∀ w : World, w.store.isFinished f =
      ((w.store.fiber? f).map FiberRecord.news).any Prod.fst := by
    intro w
    unfold Store.isFinished
    cases w.store.fiber? f <;> rfl
  rw [hread, hread, h.news]

theorem observers {f : FiberId} {r' : FiberRecord} (hr' : w'.store.fiber? f = some r') :
    ∃ r, w.store.fiber? f = some r ∧ r.observers = r'.observers := by
  have hnews := h.news f
  rw [hr'] at hnews
  cases hr : w.store.fiber? f with
  | none =>
    rw [hr] at hnews
    cases hnews
  | some r =>
    rw [hr] at hnews
    exact ⟨r, rfl, congrArg Prod.snd (Option.some.inj hnews).symm⟩

theorem willTell {f : FiberId} {o : Observer} (hw : w.WillTell f o) : w'.WillTell f o := by
  obtain ⟨r, hr, hgoing, ho⟩ := hw
  have hnews := h.news f
  rw [hr] at hnews
  obtain ⟨r', hr', heq⟩ := Option.map_eq_some_iff.mp hnews
  obtain ⟨hfinished, hobservers⟩ := Prod.mk.inj heq
  exact ⟨r', hr', hfinished.trans hgoing, hobservers ▸ ho⟩

theorem absent {f : FiberId} (hf : w'.store.fiber? f = none) : w.store.fiber? f = none := by
  have hnews := h.news f
  rw [hf] at hnews
  exact Option.map_eq_none_iff.mp hnews.symm

theorem later : Ledger.Later [] w w' :=
  .of_suspensions h.suspensions h.remembers

theorem promises (hw : w.Promises) : w'.Promises := by
  refine ⟨fun {a} ha => ?_, fun {f r' o} hr' ho => ?_⟩
  · obtain ⟨p, millis, hp, hregistration⟩ := hw.alarms (h.alarms ha)
    exact ⟨p, millis, by rwa [World.suspension?, h.suspensions], hregistration⟩
  · obtain ⟨r, hr, heq⟩ := h.observers hr'
    exact (hw.observers hr (heq ▸ ho)).preserved h.preserves

end World.Quiet

namespace Ledger

variable {l : Ledger} {w w' : World}

namespace Tracks

theorem quiet (h : l.Tracks w) (hw : w.Quiet w') : l.Tracks w' where
  names := hw.names.trans h.names
  places := h.places.data hw.suspensions hw.tasks hw.remembers
  promises := hw.promises h.promises
  attends {s p run onInterrupt o} hp hstate ho := by
    have hp' : w.suspension? s = some p := by rwa [World.suspension?, ← hw.suspensions]
    exact (h.attends hp' hstate ho).imp_right (Or.imp_left hw.willTell)
  unborn hf := h.unborn (hw.absent hf)

/-- What is known of places changes, and nothing else; nobody comes to be parked who is not going to
be told. -/
theorem of_places (h : l.Tracks w) {more : List (Option SuspensionId × Exit Value Value)}
    (hstore : w'.store = w.store) (hplaces : (l.give more).Places w') (hlater : Later more w w')
    (hattends : ∀ {s p run onInterrupt}, w'.suspension? s = some p →
      p.state = .waiting run onInterrupt → w.suspension? s = some p ∨
        ∀ o ∈ p.registration.observers s l.fiber,
          o ∈ l.pending ∨ w.WillTell l.fiber o ∨ l.Waives o) :
    (l.give more).Tracks w' where
  names := by rw [hstore]; exact h.names
  places := hplaces
  promises := by
    refine ⟨fun {a} ha => ?_, fun {f r o} hr ho => ?_⟩
    · rw [hstore] at ha
      obtain ⟨p, millis, hp, hregistration⟩ := h.promises.alarms ha
      obtain ⟨state, hp'⟩ := hlater.preserves.place hp
      exact ⟨_, millis, hp', hregistration⟩
    · rw [hstore] at hr
      exact (h.promises.observers hr ho).preserved hlater.preserves
  attends {s p run onInterrupt o} hp hstate ho := by
    rw [World.WillTell, hstore]
    refine Or.imp_right (Or.imp_right Waives.give) ?_
    rcases hattends hp hstate with hold | hnew
    · exact h.attends hold hstate ho
    · exact hnew o ho
  unborn hf := by
    rw [hstore] at hf
    exact h.unborn hf

/-- A fiber becomes ready. -/
theorem schedule (h : l.Tracks w) {fiber : FiberId} {run : RunState} {step : Step}
    (hgo : ∀ wait, l.last fiber = some wait → l.GoesOn w wait run step) :
    l.Tracks (w.schedule fiber run step) :=
  ⟨h.names, h.places.schedule hgo, ⟨h.promises.alarms, h.promises.observers⟩, h.attends, h.unborn⟩

/-- A place at which nobody is going to wait any longer is given up. -/
theorem vacate (h : l.Tracks w) {s : SuspensionId} {place : Suspension}
    (hplace : w.suspension? s = some place) :
    l.Tracks (w.setSuspension s .over) ∧ Later [] w (w.setSuspension s .over) := by
  have hlater : Later [] w (w.setSuspension s .over) :=
    .setSuspension hplace (by simp) fun _ => ⟨rfl, rfl⟩
  have hset : (l.give []).Places (w.setSuspension s .over) :=
    h.places.setSuspension hplace hlater (by simp) (by simp) (fun heq => by cases heq)
      fun heq => by cases heq
  have htracks : (l.give []).Tracks (w.setSuspension s .over) := by
    refine h.of_places rfl hset hlater fun {t p run c} hp hwait => ?_
    rw [World.suspension?_setSuspension, hplace] at hp
    split at hp
    · obtain rfl := Option.some.inj hp
      cases hwait
    · exact Or.inl hp
  rw [give_nil] at htracks
  exact ⟨htracks, hlater⟩

/-- **A wait is completed**: what is told is so, and an exit that is told is given to the place. -/
theorem resume (h : l.Tracks w) {s : SuspensionId} {p : Suspension}
    (hp : w.suspension? s = some p) (hlive : w.isLive s = true) {o : Outcome}
    {more : List (Option SuspensionId × Exit Value Value)}
    (hmore : ∀ e ∈ more, e.1 = some s ∧ ∃ type, p.registration = .awaitExit l.fiber type)
    (honce : (more.filterMap Prod.fst).Nodup)
    (htold : (l.give more).Told w.store s p.registration o) :
    (l.give more).Tracks (w.resume s o).2 := by
  have hlast : p.state.isOver = false := by
    have hover := World.isOver_of_isLive hlive
    rwa [World.isOver, hp, Option.any_some] at hover
  have hplace : ∀ {state : SuspensionState}, state.isOver = true →
      (∀ {o'}, state = .early o' → (l.give more).Told w.store s p.registration o') →
        (l.give more).Tracks (w.setSuspension s state) := by
    intro state hstate hearly
    have hnot : ∀ {run onInterrupt}, state ≠ .waiting run onInterrupt := by
      rintro run onInterrupt rfl
      cases hstate
    have hgiven : ∀ t x, (some t, x) ∈ more → t = s ∧ state.isOver = true ∧
        ∃ type, p.registration = .awaitExit l.fiber type := by
      intro t x hmem
      obtain ⟨heq, htype⟩ := hmore _ hmem
      exact ⟨Option.some.inj heq, hstate, htype⟩
    have hlater : Later more w (w.setSuspension s state) :=
      .setSuspension hp (fun t x hmem => (hgiven t x hmem).1) fun hbefore => by
        rw [hlast] at hbefore
        cases hbefore
    have hset := h.places.setSuspension hp hlater hgiven honce (fun heq => absurd heq hnot) hearly
    refine h.of_places rfl hset hlater fun {t q run c} hq hwait => ?_
    rw [World.suspension?_setSuspension, hp] at hq
    split at hq
    · obtain rfl := Option.some.inj hq
      exact absurd hwait hnot
    · exact Or.inl hq
  unfold World.resume
  rw [hp]
  simp only
  cases hstate : p.state with
  | registering =>
    refine hplace rfl fun heq => ?_
    obtain rfl := SuspensionState.early.inj heq
    exact htold
  | waiting run onInterrupt =>
    refine (hplace rfl fun heq => by cases heq).schedule fun wait hwait => ?_
    -- the parked fiber goes on from the wait for which it has been parked
    obtain rfl := Option.some.inj ((h.places.parked hp hstate).symm.trans hwait)
    exact .told htold
  | _ =>
    rw [hstate] at hlast
    cases hlast

/-- The one who started the fiber is given its exit. -/
theorem report (h : l.Tracks w) (x : Exit Value Value) : (l.give [(none, x)]).Tracks w :=
  ⟨h.names, h.places.report x, h.promises, fun hp hstate ho =>
    (h.attends hp hstate ho).imp_right (Or.imp_right Waives.give), h.unborn⟩

end Tracks

/-- The shelf has to do only with the end of the fiber and with what has been given. -/
theorem Shelf.of_given {l' : Ledger} (h : l.Shelf w) (hfiber : l'.fiber = l.fiber)
    (htypes : l.types ⊆ l'.types) (hresult : l'.result = l.result) (hgiven : l'.given = l.given) :
    l'.Shelf w := by
  obtain ⟨fiber, names, last, asked, result, given, pending⟩ := l
  obtain ⟨fiber', names', last', asked', result', given', pending'⟩ := l'
  obtain rfl : fiber' = fiber := hfiber
  obtain rfl : result' = result := hresult
  obtain rfl : given' = given := hgiven
  cases h with
  | going hresult hgoing hnone hgiven => exact .going hresult hgoing hnone hgiven
  | kept hresult hdone hsome hpassed hgiven =>
    exact .kept hresult hdone hsome (List.Subset.trans hpassed htypes) hgiven
  | taken hresult hdone hgone hpassed hwho hgiven hrest =>
    exact .taken hresult hdone hgone (List.Subset.trans hpassed htypes) hwho hgiven hrest

/-- What is found where the exit has been taken before. -/
theorem takeExit_of_gone (hfinished : w.store.isFinished l.fiber = true)
    (hgone : w.store.exit? l.fiber = none ∨ w.store.exit? l.fiber = some (w.exitTaken l.fiber)) :
    (w.takeExit l.fiber).1 = w.exitTaken l.fiber := by
  rcases hgone with hnone | hsome
  · rw [World.takeExit_of_none hnone hfinished]
  · rw [World.takeExit_of_some hsome]

/-- Somebody is given what is found on the shelf, which is empty then. -/
theorem Shelf.give_taken (h : l.Shelf w) (hfinished : w.store.isFinished l.fiber = true)
    {who : Option SuspensionId} {type : ErrorType}
    (hwho : ∀ s, who = some s → ∃ p, w.suspension? s = some p ∧
      p.registration = .awaitExit l.fiber type)
    (hw : w.Quiet w') (hexit : w'.store.exit? l.fiber = none) :
    (l.give [(who, (w.takeExit l.fiber).1.untag type)]).Shelf w' := by
  have hdone' := (hw.isFinished l.fiber).trans hfinished
  have hplace : ∀ {s : SuspensionId} {type : ErrorType},
      (∃ p, w.suspension? s = some p ∧ p.registration = .awaitExit l.fiber type) →
      ∃ p, w'.suspension? s = some p ∧ p.registration = .awaitExit l.fiber type := by
    rintro s type ⟨p, hp, hregistration⟩
    obtain ⟨state, hp'⟩ := hw.preserves.place hp
    exact ⟨_, hp', hregistration⟩
  cases h with
  | going _ hgoing _ _ =>
    rw [hfinished] at hgoing
    cases hgoing
  | @kept o types hresult _ hsome htypes hgiven =>
    rw [World.takeExit_of_some hsome]
    have hgiven' : (l.give [(who, (o.passed types).untag type)]).given =
        (who, (o.passed types).untag type) :: [] := by
      rw [give, hgiven, List.nil_append]
    exact .taken hresult hdone' (Or.inl hexit) htypes
      (fun s hs => hplace (hwho s hs)) hgiven' (by simp)
  | @taken o types first who' rest hresult _ hgone htypes hwho' hgiven hrest =>
    -- who comes later gets the defect
    rw [takeExit_of_gone hfinished hgone, World.untag_exitTaken]
    have hgiven' : (l.give [(who, w.store.names.observed l.fiber)]).given =
        (who', (o.passed types).untag first) ::
          (rest ++ [(who, w.store.names.observed l.fiber)]) := by
      rw [give, hgiven, List.cons_append]
    refine .taken hresult hdone' (Or.inl hexit) htypes
      (fun s hs => hplace (hwho' s hs)) hgiven' fun e he => ?_
    rw [hw.names]
    rcases List.mem_append.mp he with hold | hnew
    · exact hrest e hold
    · rw [List.mem_singleton.mp hnew]
      rfl

/-- What has been found on the shelf is put back by a waiter that is gone. -/
theorem Shelf.restored (h : l.Shelf w) (hfinished : w.store.isFinished l.fiber = true)
    {type : ErrorType} (htype : type ∈ l.types) (hw : w.Quiet w')
    (hexit : w'.store.exit? l.fiber = some (((w.takeExit l.fiber).1.untag type).tag type)) :
    l.Shelf w' := by
  have hdone' := (hw.isFinished l.fiber).trans hfinished
  cases h with
  | going _ hgoing _ _ =>
    rw [hfinished] at hgoing
    cases hgoing
  | @kept o types hresult _ hsome htypes hgiven =>
    rw [World.takeExit_of_some hsome, ← Exit.passed_append] at hexit
    refine .kept hresult hdone' hexit (List.append_subset.mpr ⟨htypes, ?_⟩) hgiven
    exact List.cons_subset.mpr ⟨htype, List.nil_subset _⟩
  | taken hresult hdone hgone htypes hwho hgiven hrest =>
    have hsame : w'.exitTaken l.fiber = w.exitTaken l.fiber := by
      rw [World.exitTaken, World.exitTaken, hw.names]
    rw [takeExit_of_gone hfinished hgone, World.untag_exitTaken, World.tag_observed,
      ← hsame] at hexit
    -- but for the shelf itself nothing has changed
    refine .taken hresult hdone' (Or.inr hexit)
      htypes (fun s hs => ?_) hgiven ?_
    · obtain ⟨p, hp, hregistration⟩ := hwho s hs
      obtain ⟨state, hp'⟩ := hw.preserves.place hp
      exact ⟨_, hp', hregistration⟩
    · rw [hw.names]
      exact hrest

namespace Holds

/-- Nothing changes that a ledger tells. -/
theorem quiet (h : l.Holds w) (hw : w.Quiet w') (hreports : w'.store.reports = w.store.reports)
    (hexit : w'.store.exit? l.fiber = w.store.exit? l.fiber) : l.Holds w' where
  toTracks := h.toTracks.quiet hw
  shelf := h.shelf.preserved hw.preserves (hw.isFinished _) hexit hw.names
  reports := by rw [hreports]; exact h.reports

/-- Places change, and nothing is given. -/
theorem of_tracks (h : l.Holds w) (hw : l.Tracks w') (hstore : w'.store = w.store)
    (hpreserves : w.Preserves w') : l.Holds w' where
  toTracks := hw
  shelf := h.shelf.preserved hpreserves (by rw [hstore]) (by rw [hstore]) (by rw [hstore])
  reports := by rw [hstore]; exact h.reports

theorem schedule (h : l.Holds w) {fiber : FiberId} {run : RunState} {step : Step}
    (hgo : ∀ wait, l.last fiber = some wait → l.GoesOn w wait run step) :
    l.Holds (w.schedule fiber run step) :=
  h.of_tracks (h.toTracks.schedule hgo) rfl (.of_suspensions rfl)

theorem vacate (h : l.Holds w) {s : SuspensionId} {place : Suspension}
    (hplace : w.suspension? s = some place) : l.Holds (w.setSuspension s .over) :=
  h.of_tracks (h.toTracks.vacate hplace).1 rfl (w.preserves_setSuspension s _)

end Holds

end Ledger

end Fibers
