import Fibers.Proofs.Telling

/-!
# What happens to alarms and leases

A fiber that sleeps is woken by an alarm, and a lease that is released is marked.  Hardly anything
that happens in a world has to do with either of them.  `Stir` has one constructor for each way in
which a world changes as far as alarms, the places of those who sleep, and leases are concerned; it
is shown that everything a fiber does, and everything that comes from outside, is made up of these.

A fiber that sleeps is told by nobody but its alarm.  That those who wait for something else are not
mistaken for it is what `World.Restful` says, together with `World.Orderly` for the channels.

## Main definitions

* `World.Wakeful` — a place that has nothing to do with alarms.
* `World.Restful` — only those who sleep have to do with alarms.
* `Stir` — a change of the world, with the leases that are released in it.

## Main results

* `Stir.restful` — whatever happens leaves a restful world.
* `World.carryOut_stir`, `Workshop.Move.stir` — **whatever is done to the world is made up of such
  changes.**
-/

namespace Fibers

/-! ### Those who sleep -/

/-- The wait of a fiber that sleeps. -/
def Registration.isSleep : Registration → Bool
  | .sleep _ => true
  | .callback _ => false
  | .awaitExit _ _ => false
  | .firstDone _ _ => false
  | .firstFailure _ => false
  | .offer _ _ => false
  | .take _ => false
  | .awaitClose _ => false

/-- The key of the alarm that is called off if a wait is interrupted. -/
def Canceler.alarm? : Canceler → Option Nat
  | .alarm key => some key
  | .nothing => none
  | .leave _ _ _ => none
  | .action _ => none

/-- The key of the alarm for which a fiber is parked. -/
def SuspensionState.alarm? : SuspensionState → Option Nat
  | .waiting _ onInterrupt => onInterrupt.alarm?
  | .registering => none
  | .early _ => none
  | .over => none

/-- Who waits at a channel does not sleep. -/
theorem Registration.isSleep_of_line? {registration : Registration} {line : ChannelId × Line}
    (h : registration.line? = some line) : registration.isSleep = false := by
  cases registration with
  | sleep _ => cases h
  | callback _ | awaitExit _ _ | firstDone _ _ | firstFailure _ | offer _ _ | take _
  | awaitClose _ => rfl

/-- An alarm gets the key that is next. -/
theorem Alarms.key_schedule {α : Type} (deadline : Nat) (payload : α) (c : Alarms α) :
    (c.schedule deadline payload).1 = c.nextKey := by
  unfold schedule
  split <;> rfl

namespace World

/-- A place that has nothing to do with alarms. -/
def Wakeful (w : World) (s : SuspensionId) : Prop :=
  ∃ p, w.suspension? s = some p ∧ p.registration.isSleep = false

/-- A place that is going to be told when some fiber finishes. -/
def Expects (w : World) (s : SuspensionId) : Prop :=
  ∃ fiber r o, w.store.fiber? fiber = some r ∧ o ∈ r.observers ∧ o.waiter? = some s

/-- Only those who sleep have to do with alarms. -/
structure Restful (w : World) : Prop where
  /-- Nobody who is going to be told when a fiber finishes sleeps. -/
  observers : ∀ {s}, w.Expects s → w.Wakeful s
  /-- Who is parked sleeps exactly if an alarm is to be called off when it is interrupted. -/
  sleepers : ∀ {s p run onInterrupt}, w.suspension? s = some p →
    p.state = .waiting run onInterrupt → p.registration.isSleep = onInterrupt.alarm?.isSome

/-- A fiber lies down at a place of its own, with an alarm that is going to wake it. -/
def lieDown (w : World) (fiber : FiberId) (run : RunState) (millis : Nat) : World :=
  let s : SuspensionId := ⟨w.suspensions.next⟩
  let (key, alarms) := w.store.alarms.schedule (w.store.now + millis) s
  let w := (w.newSuspension fiber run.interruptible (.sleep millis)).2
  { w with store := { w.store with alarms } }.setSuspension s (.waiting run (.alarm key))

/-- Marks a lease as released. -/
def spendLease (w : World) (lease : LeaseId) : World :=
  { w with
    store := { w.store with
      leases := w.store.leases.modify lease.index fun l => { l with released := true } } }

end World

/-- `Stir w leases w'` says that the world `w` becomes `w'`; `leases` are those that are
released. -/
inductive Stir : World → List LeaseId → World → Prop where
  /-- Nothing of this happens. -/
  | data {w w' : World} : w'.suspensions = w.suspensions → w'.store.alarms = w.store.alarms →
      w'.store.leases = w.store.leases →
      (∀ {s}, w'.Expects s → w.Expects s ∨ w.Wakeful s) → Stir w [] w'
  /-- A lease is made. -/
  | leased {w : World} (release : ReleaseId) :
      Stir w [] { w with store := { w.store with leases := w.store.leases.push { release } } }
  /-- A lease is released. -/
  | spent {w : World} {lease : LeaseId} {l : Lease} :
      w.store.lease? lease = some l → l.released = false → Stir w [lease] (w.spendLease lease)
  /-- A place is made for a fiber that does not sleep. -/
  | opened {w : World} (fiber : FiberId) (allowed : Bool) {registration : Registration} :
      registration.isSleep = false → Stir w [] (w.newSuspension fiber allowed registration).2
  /-- A place changes at which nobody sleeps. -/
  | changed {w : World} {s : SuspensionId} {place : Suspension} {state : SuspensionState} :
      w.suspension? s = some place → place.registration.isSleep = false → state.alarm? = none →
      Stir w [] (w.setSuspension s state)
  /-- A fiber lies down. -/
  | bedded {w : World} (fiber : FiberId) (run : RunState) (millis : Nat) :
      Stir w [] (w.lieDown fiber run millis)
  /-- A fiber that sleeps gives up, and its alarm is called off. -/
  | roused {w : World} {s : SuspensionId} {place : Suspension} {key : Nat} :
      w.suspension? s = some place → place.state.alarm? = some key →
      Stir w [] ((w.setSuspension s .over).cancel (.alarm key))
  /-- The first alarm rings. -/
  | rang {w : World} {alarm : Alarm SuspensionId} {alarms : Alarms SuspensionId} (now : Nat)
      (outcome : Outcome) : w.store.alarms.first? = some (alarm, alarms) →
      Stir w []
        (World.resume { w with store := { w.store with alarms, now } } alarm.payload outcome).2
  /-- One thing after the other. -/
  | trans {w w' w'' : World} {leases leases' : List LeaseId} :
      Stir w leases w' → Stir w' leases' w'' → Stir w (leases ++ leases') w''

/-! ### What stays so -/

namespace World

variable {w w' : World} {s : SuspensionId}

theorem Wakeful.preserved (hs : w.Wakeful s) (h : w.Preserves w') : w'.Wakeful s := by
  obtain ⟨p, hp, hsleep⟩ := hs
  obtain ⟨state, hp'⟩ := h.place hp
  exact ⟨_, hp', hsleep⟩

theorem preserves_newSuspension (w : World) (fiber : FiberId) (allowed : Bool)
    (registration : Registration) : w.Preserves (w.newSuspension fiber allowed registration).2 := by
  refine ⟨fun {s p} hp => ⟨p.state, ?_⟩⟩
  rw [suspension?_newSuspension, if_neg, hp]
  rintro rfl
  rw [suspension?_next] at hp
  cases hp

/-- What is found at a place after a fiber has lain down. -/
theorem suspension?_lieDown (w : World) (fiber : FiberId) (run : RunState) (millis : Nat)
    (t : SuspensionId) : (w.lieDown fiber run millis).suspension? t =
      if t = ⟨w.suspensions.next⟩ then
        some ⟨fiber, run.interruptible, .sleep millis, .waiting run (.alarm w.store.alarms.nextKey)⟩
      else w.suspension? t := by
  change ((w.newSuspension fiber run.interruptible (.sleep millis)).2.setSuspension
    ⟨w.suspensions.next⟩ (.waiting run (.alarm (w.store.alarms.schedule (w.store.now + millis)
      (⟨w.suspensions.next⟩ : SuspensionId)).1))).suspension? t = _
  rw [suspension?_setSuspension, Alarms.key_schedule]
  split
  · have hnew := w.suspension?_newSuspension fiber run.interruptible (.sleep millis)
      ⟨w.suspensions.next⟩
    rw [hnew.trans (if_pos rfl), Option.map_some]
  · next hne => exact (w.suspension?_newSuspension _ _ _ t).trans (if_neg hne)

theorem preserves_lieDown (w : World) (fiber : FiberId) (run : RunState) (millis : Nat) :
    w.Preserves (w.lieDown fiber run millis) := by
  refine ⟨fun {s p} hp => ⟨p.state, ?_⟩⟩
  rw [suspension?_lieDown, if_neg, hp]
  rintro rfl
  rw [suspension?, Numbered.get?_next] at hp
  cases hp

theorem Expects.of_fibers (h : w'.store.fibers = w.store.fibers) (hs : w'.Expects s) :
    w.Expects s := by
  obtain ⟨fiber, r, o, hr, ho, hwaiter⟩ := hs
  rw [Store.fiber?, h] at hr
  exact ⟨fiber, r, o, hr, ho, hwaiter⟩

/-- Who expects something after the record of a fiber has changed. -/
theorem Expects.of_modifyFiber {id : FiberId} {f : FiberRecord → FiberRecord}
    (hs : (w.modifyFiber id f).Expects s) : w.Expects s ∨
      ∃ r o, w.store.fiber? id = some r ∧ o ∈ (f r).observers ∧ o.waiter? = some s := by
  obtain ⟨fiber, r, o, hr, ho, hwaiter⟩ := hs
  simp only [modifyFiber, Store.fiber?_modifyFiber] at hr
  split at hr
  · obtain ⟨r', hr', rfl⟩ := Option.map_eq_some_iff.mp hr
    exact Or.inr ⟨r', o, hr', ho, hwaiter⟩
  · exact Or.inl ⟨fiber, r, o, hr, ho, hwaiter⟩

theorem Expects.of_newSuspension {fiber : FiberId} {allowed : Bool} {registration : Registration}
    (hs : (w.newSuspension fiber allowed registration).2.Expects s) : w.Expects s := by
  rcases Expects.of_modifyFiber
    (w := { w with
      suspensions := w.suspensions.push { fiber, interruptible := allowed, registration } })
    hs with hold | ⟨r, o, hr, ho, hwaiter⟩
  · exact hold
  · exact ⟨fiber, r, o, hr, ho, hwaiter⟩

end World

namespace Stir

variable {w w' : World} {leases : List LeaseId} {s : SuspensionId}

/-- A place stays that of its fiber and of its wait. -/
theorem preserves (h : Stir w leases w') : w.Preserves w' := by
  induction h with
  | data hs _ _ _ => exact .of_suspensions hs
  | leased _ | spent _ _ => exact .of_suspensions rfl
  | opened fiber allowed _ => exact World.preserves_newSuspension _ fiber allowed _
  | changed _ _ _ => exact World.preserves_setSuspension _ _ _
  | bedded fiber run millis => exact World.preserves_lieDown _ fiber run millis
  | @roused w s place key _ _ => exact ⟨(w.preserves_setSuspension s .over).place⟩
  | @rang w alarm alarms now outcome _ =>
    exact ⟨(World.preserves_resume
      { w with store := { w.store with alarms, now } } _ outcome).place⟩
  | trans _ _ ih ih' => exact ih.trans ih'

theorem wakeful (h : Stir w leases w') (hs : w.Wakeful s) : w'.Wakeful s := hs.preserved h.preserves

/-- Nobody comes to be told of the end of a fiber who sleeps. -/
theorem expects (h : Stir w leases w') (hs : w'.Expects s) : w.Expects s ∨ w'.Wakeful s := by
  induction h with
  | data hsusp _ _ hexpects =>
    exact (hexpects hs).imp_right fun hwake => hwake.preserved (.of_suspensions hsusp)
  | leased _ | spent _ _ => exact Or.inl (hs.of_fibers rfl)
  | opened _ _ _ => exact Or.inl hs.of_newSuspension
  | changed _ _ _ => exact Or.inl (hs.of_fibers rfl)
  | @bedded w fiber run millis =>
    have hnew : (w.newSuspension fiber run.interruptible (.sleep millis)).2.Expects s :=
      hs.of_fibers rfl
    exact Or.inl hnew.of_newSuspension
  | roused _ _ => exact Or.inl (hs.of_fibers rfl)
  | rang now outcome _ => exact Or.inl (hs.of_fibers (by rw [World.store_resume]))
  | trans _ hlater ih ih' =>
    rcases ih' hs with hmid | hwake
    · exact (ih hmid).imp_right hlater.wakeful
    · exact Or.inr hwake

/-- **Whatever happens leaves a restful world.** -/
theorem restful (h : Stir w leases w') (hw : w.Restful) : w'.Restful := by
  refine ⟨fun {s} hs => (h.expects hs).elim (fun hold => h.wakeful (hw.observers hold)) id, ?_⟩
  induction h with
  | data hsusp _ _ _ =>
    intro s p run onInterrupt hp
    rw [World.suspension?, hsusp] at hp
    exact hw.sleepers hp
  | leased _ | spent _ _ => exact hw.sleepers
  | opened fiber allowed _ =>
    intro s p run onInterrupt hp hstate
    rw [World.suspension?_newSuspension] at hp
    split at hp
    · obtain rfl := Option.some.inj hp
      cases hstate
    · exact hw.sleepers hp hstate
  | changed hplace hsleep halarm =>
    intro t p run onInterrupt hp hstate
    rw [World.suspension?_setSuspension, hplace, Option.map_some] at hp
    split at hp
    · obtain rfl := Option.some.inj hp
      simp only at hstate
      rw [hstate] at halarm
      exact hsleep.trans (by rw [show onInterrupt.alarm? = none from halarm]; rfl)
    · exact hw.sleepers hp hstate
  | bedded fiber run millis =>
    intro t p run' onInterrupt hp hstate
    rw [World.suspension?_lieDown] at hp
    split at hp
    · obtain rfl := Option.some.inj hp
      obtain ⟨-, rfl⟩ := SuspensionState.waiting.inj hstate
      rfl
    · exact hw.sleepers hp hstate
  | @roused w s place key hplace _ =>
    intro t p run onInterrupt hp hstate
    have hp' : (w.setSuspension s .over).suspension? t = some p := hp
    rw [World.suspension?_setSuspension, hplace, Option.map_some] at hp'
    split at hp'
    · obtain rfl := Option.some.inj hp'
      cases hstate
    · exact hw.sleepers hp' hstate
  | @rang w alarm alarms now outcome _ =>
    intro t p run onInterrupt hp hstate
    rw [World.suspension?_resume] at hp
    split at hp
    · obtain ⟨place, hplace, rfl⟩ := Option.map_eq_some_iff.mp hp
      have hover := SuspensionState.run?_of_isOver
        (SuspensionState.isOver_completed outcome place.state)
      simp only at hstate
      rw [hstate] at hover
      cases hover
    · exact hw.sleepers hp hstate
  | trans hfirst _ ih ih' =>
    have hmid : World.Restful _ :=
      ⟨fun {s} hs => (hfirst.expects hs).elim (fun hold => hfirst.wakeful (hw.observers hold)) id,
        ih hw⟩
    exact fun {_ _ _ _} hp hstate => ih' hmid hp hstate

/-! ### Changes that have nothing to do with alarms and leases -/

/-- Data that tells nothing of fibers changes. -/
theorem unrelated (hs : w'.suspensions = w.suspensions) (ha : w'.store.alarms = w.store.alarms)
    (hl : w'.store.leases = w.store.leases) (hf : w'.store.fibers = w.store.fibers) :
    Stir w [] w' :=
  .data hs ha hl fun hs => Or.inl (hs.of_fibers hf)

theorem refl (w : World) : Stir w [] w := unrelated rfl rfl rfl rfl

theorem schedule (w : World) (fiber : FiberId) (run : RunState) (step : Step) :
    Stir w [] (w.schedule fiber run step) := unrelated rfl rfl rfl rfl

theorem setChannel (w : World) (c : ChannelId) (ch : Channel Value SuspensionId) :
    Stir w [] (w.setChannel c ch) := unrelated rfl rfl rfl rfl

/-- The record of a fiber changes; who comes to be told of its end does not sleep. -/
theorem modifyFiber (w : World) (id : FiberId) {f : FiberRecord → FiberRecord}
    (hf : ∀ r, w.store.fiber? id = some r → ∀ o ∈ (f r).observers,
      o ∈ r.observers ∨ ∀ s, o.waiter? = some s → w.Wakeful s) :
    Stir w [] (w.modifyFiber id f) := by
  refine .data rfl rfl rfl fun {s} hs => ?_
  rcases hs.of_modifyFiber with hold | ⟨r, o, hr, ho, hwaiter⟩
  · exact Or.inl hold
  · rcases hf r hr o ho with hold | hwake
    · exact Or.inl ⟨id, r, o, hr, hold, hwaiter⟩
    · exact Or.inr (hwake s hwaiter)

/-- The record of a fiber changes, but for those who are told of its end. -/
theorem keepsObservers (w : World) (id : FiberId) {f : FiberRecord → FiberRecord}
    (hf : ∀ r, (f r).observers = r.observers) : Stir w [] (w.modifyFiber id f) :=
  modifyFiber w id fun r _ _ ho => Or.inl (hf r ▸ ho)

/-- A fiber is created whose end nobody waits for yet. -/
theorem push (w : World) {r : FiberRecord} (hr : ∀ o ∈ r.observers, o.waiter? = none) :
    Stir w [] { w with store := { w.store with fibers := w.store.fibers.push r } } := by
  refine .data rfl rfl rfl fun {s} hs => ?_
  obtain ⟨fiber, r', o, hr', ho, hwaiter⟩ := hs
  rw [Store.fiber?_push] at hr'
  split at hr'
  · obtain rfl := Option.some.inj hr'
    rw [hr o ho] at hwaiter
    cases hwaiter
  · exact Or.inl ⟨fiber, r', o, hr', ho, hwaiter⟩

end Stir

namespace World

variable {w w' : World} {s : SuspensionId} {c : ChannelId} {ch : Channel Value SuspensionId}

/-- The wait at a place is completed at which nobody sleeps. -/
theorem stir_resume (hs : w.Wakeful s) (outcome : Outcome) :
    Stir w [] (w.resume s outcome).2 := by
  obtain ⟨p, hp, hsleep⟩ := hs
  unfold resume
  rw [hp]
  simp only
  cases p.state with
  | registering => exact .changed hp hsleep rfl
  | waiting run onInterrupt =>
    exact Stir.trans (.changed hp hsleep rfl) (.schedule (w.setSuspension s .over) _ _ _)
  | _ => exact .refl w

/-! ### Channels -/

/-- Several who do not sleep are told something. -/
theorem stir_tell {told : List (SuspensionId × Answer Value)} (h : ∀ t ∈ told, w.Wakeful t.1) :
    Stir w [] (w.tell told) := by
  unfold tell
  induction told generalizing w with
  | nil => exact .refl w
  | cons t told ih =>
    have hone := stir_resume (h t List.mem_cons_self) t.2.outcome
    exact Stir.trans hone (ih fun t' ht' => hone.wakeful (h t' (List.mem_cons_of_mem _ ht')))

/-- Something is asked of a channel. -/
theorem stir_ask (hw : w.Orderly) (hch : w.store.channel? c = some ch)
    {request : Request Value SuspensionId} (hasks : w.Asks c ch request) :
    Stir w [] (w.ask c ch request) := by
  refine Stir.trans (.setChannel w c _) (stir_tell fun t ht => ?_)
  obtain ⟨p, line, hp, hline, -⟩ := hw.of_told hch hasks (List.mem_map_of_mem ht)
  exact ⟨p, hp, Registration.isSleep_of_line? hline⟩

theorem stir_takeElement (hw : w.Orderly) (hch : w.store.channel? c = some ch) :
    Stir w [] (w.takeElement c ch).2 := by
  generalize htake : w.takeElement c ch = taken
  obtain ⟨v, w'⟩ := taken
  cases v with
  | none =>
    rw [takeElement_none htake]
    exact .refl w
  | some v =>
    rw [(takeElement_some hw hch htake).1]
    exact stir_ask hw hch (asks_of_nobody (by simp) rfl)

theorem stir_takeUpTo (hw : w.Orderly) (c : ChannelId) (limit : Nat) :
    Stir w [] (w.takeUpTo c limit).2 := by
  induction limit generalizing w with
  | zero => exact .refl w
  | succ limit ih =>
    unfold takeUpTo
    split
    · exact .refl w
    · next ch hch =>
      have htake := stir_takeElement hw hch
      have htold := chronicles_takeElement hw hch
      split
      · next w' heq => rwa [heq] at htake
      · next v w' heq =>
        rw [heq] at htake htold
        exact Stir.trans htake (ih (htold.orderly hw))

theorem stir_drain (hw : w.Orderly) (c : ChannelId) (limit : Option Nat) :
    Stir w [] (w.drain c limit).2 := by
  unfold drain
  split
  · exact .refl w
  · split
    · exact .refl w
    · exact stir_takeUpTo hw c _

theorem stir_close (hw : w.Orderly) (c : ChannelId) (source : FiberId) :
    Stir w [] (w.close c source) := by
  cases hch : w.store.channel? c with
  | none =>
    have hsame : w.close c source = w := by simp [World.close, hch]
    rw [hsame]
    exact .refl w
  | some ch =>
    rw [close_eq hch]
    exact stir_ask hw hch (asks_of_nobody (by simp) rfl)

/-! ### Actions -/

theorem stir_perform (hw : w.Orderly) (op : Operation) : Stir w [] (w.perform op).2 := by
  cases op with
  | newChannel capacity =>
    simp only [perform]
    split
    · exact .refl w
    · exact .unrelated rfl rfl rfl rfl
  | drain channel limit => exact stir_drain hw channel limit
  | close channel source => exact stir_close hw channel source
  | complete waiter outcome =>
    simp only [perform, answer]
    split
    · next hopen =>
      obtain ⟨p, hp, hcallback⟩ := (Option.any_eq_true ..).mp hopen
      refine stir_resume ⟨p, hp, ?_⟩ outcome
      cases hregistration : p.registration <;> rw [hregistration] at hcallback <;>
        first | rfl | cases hcallback
    · exact .refl w
  | newLease release => exact .leased release
  | observe | log _ | newCell _ | writeCell _ _ | keep _ _ | newMark | useMark _ =>
    exact .unrelated rfl rfl rfl rfl

theorem stir_run {α : Type} (a : Action α) {w : World} (hw : w.Orderly) :
    Stir w [] (a.run w).2 := by
  induction a generalizing w with
  | done a => exact .refl w
  | panic d => exact .refl w
  | perform op next ih =>
    exact Stir.trans (stir_perform hw op) (ih _ ((chronicles_perform hw op).orderly hw))

/-! ### Interruption -/

/-- A fiber that sleeps is interrupted. -/
theorem stir_interruptAt_sleeper {place : Suspension} {run : RunState} {key : Nat}
    (hplace : w.suspension? s = some place) (hstate : place.state = .waiting run (.alarm key))
    (fiber source : FiberId) : Stir w [] (w.interruptAt fiber s source) := by
  have hroused : Stir w [] ((w.setSuspension s .over).cancel (.alarm key)) :=
    .roused hplace (by rw [hstate]; rfl)
  simp only [interruptAt, hplace, Option.map_some, hstate]
  exact hroused.trans (.schedule _ fiber run _)

/-- A fiber is interrupted that is parked but does not sleep. -/
theorem stir_interruptAt_awake (hw : w.Orderly) {place : Suspension} {run : RunState}
    {onInterrupt : Canceler} (hplace : w.suspension? s = some place)
    (hstate : place.state = .waiting run onInterrupt)
    (hsleep : place.registration.isSleep = false) (hkey : onInterrupt.alarm? = none)
    (fiber source : FiberId) : Stir w [] (w.interruptAt fiber s source) := by
  have hvacated : Stir w [] (w.setSuspension s .over) := .changed hplace hsleep rfl
  simp only [interruptAt, hplace, Option.map_some, hstate]
  suffices h : Stir w [] _ from h.trans (.schedule _ fiber run _)
  cases onInterrupt with
  | alarm key => cases hkey
  | nothing => exact hvacated
  | leave c line ticket =>
    refine hvacated.trans ?_
    simp only [cancel]
    split
    · exact .refl _
    · exact .unrelated rfl rfl rfl rfl
  | action a =>
    have hstays : (Canceler.action a).Stays := by
      intro c line ticket heq
      cases heq
    have hover : (w.setSuspension s .over).Orderly :=
      hw.vacate hplace rfl (hw.out_of_waiting hplace hstate hstays)
    exact hvacated.trans (stir_run a hover)

/-- The wait of a fiber is interrupted if it is parked. -/
theorem stir_interruptAt (hw : w.Orderly) (hrest : w.Restful) (fiber : FiberId) (s : SuspensionId)
    (source : FiberId) : Stir w [] (w.interruptAt fiber s source) := by
  cases hplace : w.suspension? s with
  | none => simpa only [interruptAt, hplace] using .refl w
  | some place =>
    cases hstate : place.state with
    | waiting run onInterrupt =>
      cases halarm : onInterrupt.alarm? with
      | some key =>
        obtain rfl : onInterrupt = .alarm key := by
          cases onInterrupt <;> cases halarm
          rfl
        exact stir_interruptAt_sleeper hplace hstate fiber source
      | none =>
        have hsleep := hrest.sleepers hplace hstate
        rw [halarm] at hsleep
        exact stir_interruptAt_awake hw hplace hstate hsleep halarm fiber source
    | _ => simpa only [interruptAt, hplace, Option.map_some, hstate] using .refl w

theorem stir_recordInterruptor (w : World) (target source : FiberId) :
    Stir w [] (w.recordInterruptor target source) :=
  .keepsObservers w target fun r => by split <;> rfl

/-- A fiber is asked to stop. -/
theorem stir_interrupt (hw : w.Orderly) (hrest : w.Restful) (target source : FiberId) :
    Stir w [] (w.interrupt target source) := by
  have hrecord := w.stir_recordInterruptor target source
  have hw' := (w.idles_recordInterruptor target source).chronicles.orderly hw
  simp only [interrupt]
  split
  · exact hrecord
  · split
    · exact hrecord.trans (stir_interruptAt hw' (hrecord.restful hrest) _ _ _)
    · exact hrecord

theorem stir_interruptUnfinished (hw : w.Orderly) (hrest : w.Restful) (fibers : List FiberId)
    (source : FiberId) : Stir w [] (w.interruptUnfinished fibers source) := by
  unfold interruptUnfinished
  induction fibers generalizing w with
  | nil => exact .refl w
  | cons f fibers ih =>
    have hone : Stir w [] (if w.store.isFinished f then w else w.interrupt f source) ∧
        World.Orderly (if w.store.isFinished f then w else w.interrupt f source) := by
      split
      · exact ⟨.refl w, hw⟩
      · exact ⟨stir_interrupt hw hrest f source, (chronicles_interrupt hw f source).orderly hw⟩
    exact hone.1.trans (ih hone.2 (hone.1.restful hrest))

/-! ### News of a fiber that has finished -/

theorem stir_takeExit (w : World) (fiber : FiberId) : Stir w [] (w.takeExit fiber).2 := by
  unfold takeExit
  split
  · exact .keepsObservers w fiber fun _ => rfl
  · exact .refl w

/-- An observer is told that does not sleep. -/
theorem stir_notify (w : World) (fiber : FiberId) {observer : Observer}
    (h : ∀ s, observer.waiter? = some s → w.Wakeful s) : Stir w [] (w.notify fiber observer) := by
  have htake := w.stir_takeExit fiber
  cases observer with
  | report type => exact htake.trans (.unrelated rfl rfl rfl rfl)
  | exitTo waiter type =>
    unfold notify
    simp only
    have hresume := stir_resume (htake.wakeful (h waiter rfl))
      (.done (.exit ((w.takeExit fiber).1.untag type)))
    split
    · next w' heq =>
      rw [heq] at hresume
      exact htake.trans hresume
    · next w' heq =>
      rw [heq] at hresume
      exact (htake.trans hresume).trans (.keepsObservers w' fiber fun _ => rfl)
  | firstDone waiter left => exact stir_resume (h waiter rfl) _
  | firstFailure waiter children position =>
    unfold notify
    simp only
    split
    · exact stir_resume (h waiter rfl) _
    · exact .refl w

theorem stir_notifyAll (w : World) (fiber : FiberId) {observers : List Observer}
    (h : ∀ o ∈ observers, ∀ s, o.waiter? = some s → w.Wakeful s) :
    Stir w [] (observers.foldl (fun w observer => w.notify fiber observer) w) := by
  induction observers generalizing w with
  | nil => exact .refl w
  | cons o observers ih =>
    have hone := w.stir_notify fiber (h o List.mem_cons_self)
    refine hone.trans (ih _ fun o' ho' s hs => ?_)
    exact hone.wakeful (h o' (List.mem_cons_of_mem _ ho') s hs)

theorem stir_observe (w : World) (fiber : FiberId) {observer : Observer}
    (h : ∀ s, observer.waiter? = some s → w.Wakeful s) : Stir w [] (w.observe fiber observer) := by
  unfold observe
  split
  · exact w.stir_notify fiber h
  · refine .modifyFiber w fiber fun r _ o ho => ?_
    rcases List.mem_append.mp ho with hold | hnew
    · exact Or.inl hold
    · rw [List.mem_singleton.mp hnew]
      exact Or.inr h

theorem stir_observeChildren (w : World) {waiter : SuspensionId} (hwaiter : w.Wakeful waiter)
    (children : List FiberId) : Stir w [] (w.observeChildren waiter children) := by
  unfold observeChildren
  generalize children.zipIdx = positions
  induction positions generalizing w with
  | nil => exact .refl w
  | cons c positions ih =>
    have hone : Stir w [] (w.observe c.1 (.firstFailure waiter children c.2)) := by
      refine w.stir_observe c.1 fun s hs => ?_
      obtain rfl := Option.some.inj hs
      exact hwaiter
    exact hone.trans (ih _ (hone.wakeful hwaiter))

/-! ### Waits -/

/-- What is registered at a channel is one request, and on interruption a line is left at most. -/
theorem Registers.stir {request : Request Value SuspensionId} {result : Canceler × World}
    (h : Registers w c ch request s result) (hw : w.Orderly)
    (hch : w.store.channel? c = some ch) (hasks : w.Asks c ch request) :
    Stir w [] result.2 ∧ result.1.alarm? = none := by
  refine ⟨h.world ▸ stir_ask hw hch hasks, ?_⟩
  rcases h.waits with ⟨hnothing, -⟩ | ⟨ticket, hleave, -⟩
  · rw [hnothing]
    rfl
  · rw [hleave]
    rfl

/-- A wait that is no sleep is registered. -/
theorem stir_register (hw : w.Orderly) {p : Suspension} (hp : w.suspension? s = some p)
    (hstate : p.state = .registering)
    (hout : ∀ {c ch e}, w.store.channel? c = some ch → e ∈ ch.entries → e.place ≠ s)
    (hsleep : p.registration.isSleep = false) :
    Stir w [] (w.register s p.registration).2 ∧
      ∀ {onInterrupt}, (w.register s p.registration).1 = .ok onInterrupt →
        onInterrupt.alarm? = none := by
  have hwake : w.Wakeful s := ⟨p, hp, hsleep⟩
  have hfresh : ∀ {c ch}, w.store.channel? c = some ch → s ∉ ch.entries.map Entry.place := by
    intro c ch hch hmem
    obtain ⟨e, he, heq⟩ := List.mem_map.mp hmem
    exact hout hch he heq
  have hasks := fun {c ch} (hch : w.store.channel? c = some ch) =>
    @asks_of_registering w s p hp hstate c ch (hfresh hch)
  cases hregistration : p.registration with
  | sleep millis =>
    rw [hregistration] at hsleep
    cases hsleep
  | callback f =>
    have hrun := stir_run (f s) hw
    simp only [register]
    split
    · next a w' heq =>
      rw [heq] at hrun
      exact ⟨hrun, fun heq => Except.ok.inj heq ▸ rfl⟩
    · next d w' heq =>
      rw [heq] at hrun
      refine ⟨hrun, fun heq => ?_⟩
      cases heq
  | awaitExit fiber type =>
    exact ⟨w.stir_observe fiber fun t ht => Option.some.inj ht ▸ hwake,
      fun heq => Except.ok.inj heq ▸ rfl⟩
  | firstDone left right =>
    have hleft : Stir w [] (w.observe left (.firstDone s true)) :=
      w.stir_observe left fun t ht => Option.some.inj ht ▸ hwake
    exact ⟨hleft.trans (stir_observe _ right fun t ht =>
      Option.some.inj ht ▸ hleft.wakeful hwake), fun heq => Except.ok.inj heq ▸ rfl⟩
  | firstFailure children =>
    exact ⟨w.stir_observeChildren hwake children, fun heq => Except.ok.inj heq ▸ rfl⟩
  | offer c v =>
    rw [hregistration] at hasks
    cases hch : w.store.channel? c with
    | none =>
      simp only [register, registerOffer, hch]
      exact ⟨.refl w, fun heq => Except.ok.inj heq ▸ rfl⟩
    | some ch =>
      obtain ⟨hstir, halarm⟩ :=
        (registerOffer_registers hw hch v s).stir hw hch (hasks hch rfl rfl)
      exact ⟨hstir, fun heq => Except.ok.inj heq ▸ halarm⟩
  | take c =>
    rw [hregistration] at hasks
    cases hch : w.store.channel? c with
    | none =>
      simp only [register, registerTake, hch]
      exact ⟨.refl w, fun heq => Except.ok.inj heq ▸ rfl⟩
    | some ch =>
      obtain ⟨hstir, halarm⟩ := (registerTake_registers hw hch s).stir hw hch (hasks hch rfl rfl)
      exact ⟨hstir, fun heq => Except.ok.inj heq ▸ halarm⟩
  | awaitClose c =>
    rw [hregistration] at hasks
    cases hch : w.store.channel? c with
    | none =>
      simp only [register, registerClose, hch]
      exact ⟨.refl w, fun heq => Except.ok.inj heq ▸ rfl⟩
    | some ch =>
      obtain ⟨hstir, halarm⟩ := (registerClose_registers hch s).stir hw hch (hasks hch rfl rfl)
      exact ⟨hstir, fun heq => Except.ok.inj heq ▸ halarm⟩

/-- A fiber that is going to sleep lies down, unless it has been asked to stop and may be. -/
theorem park_eq_lieDown (w : World) (fiber : FiberId) (run : RunState) (millis : Nat) :
    w.park fiber run (.sleep millis) =
      (none, if run.interruptible && (w.lieDown fiber run millis).store.isInterrupted fiber then
          (w.lieDown fiber run millis).interruptAt fiber ⟨w.suspensions.next⟩
            ((w.lieDown fiber run millis).store.interruptor fiber)
        else w.lieDown fiber run millis) := by
  have hnew := (w.suspension?_newSuspension fiber run.interruptible (.sleep millis)
    ⟨w.suspensions.next⟩).trans (if_pos rfl)
  -- while the alarm is set nothing happens at the place
  simp only [park, register]
  generalize hplace : World.suspension? _ _ = place
  obtain rfl : place = some ⟨fiber, run.interruptible, .sleep millis, .registering⟩ :=
    hplace.symm.trans hnew
  rfl

/-- A fiber that does not sleep is parked at its place. -/
theorem stir_parkAt (hw : w.Orderly) (hrest : w.Restful) {place : Suspension} {r : FiberRecord}
    (hplace : w.suspension? s = some place) (hstate : place.state = .registering)
    (hr : w.store.fiber? place.fiber = some r) (hs : r.suspension = some s) (run : RunState)
    {onInterrupt : Canceler} (hfits : w.Fits s onInterrupt)
    (hsleep : place.registration.isSleep = false) (halarm : onInterrupt.alarm? = none) :
    Stir w [] (w.parkAt place.fiber s run onInterrupt) := by
  have hpark : Stir w [] (w.setSuspension s (.waiting run onInterrupt)) :=
    .changed hplace hsleep halarm
  have htold : w.Chronicles (w.setSuspension s (.waiting run onInterrupt)) :=
    ⟨_, .parked run hplace hstate hr hs hfits⟩
  simp only [parkAt]
  split
  · exact hpark.trans (stir_interruptAt (htold.orderly hw) (hpark.restful hrest) _ _ _)
  · exact hpark

/-- A fiber begins to wait. -/
theorem stir_park (hw : w.Orderly) (hrest : w.Restful) {fiber : FiberId} (hin : w.InHand fiber)
    (run : RunState) (registration : Registration) :
    Stir w [] (w.park fiber run registration).2 := by
  cases hsleep : registration.isSleep with
  | true =>
    obtain ⟨millis, rfl⟩ : ∃ millis, registration = .sleep millis := by
      cases registration <;> cases hsleep
      exact ⟨_, rfl⟩
    have hbedded : Stir w [] (w.lieDown fiber run millis) := .bedded fiber run millis
    rw [park_eq_lieDown]
    simp only
    split
    · have hplace :=
        (w.suspension?_lieDown fiber run millis ⟨w.suspensions.next⟩).trans (if_pos rfl)
      exact hbedded.trans (stir_interruptAt_sleeper hplace rfl _ _)
    · exact hbedded
  | false =>
    simp only [park]
    generalize hnew : w.newSuspension fiber run.interruptible registration = new
    obtain ⟨s, w₁⟩ := new
    obtain ⟨htold, ⟨state, hp, hvacant⟩, ⟨r, hr, hs⟩, hfits⟩ :=
      registered_newSuspension hw hin run.interruptible registration hnew
    -- the registration is no sleep, so whatever it does stirs no alarm
    have hregister : Stir w [] (w₁.register s registration).2 ∧
        ∀ {onInterrupt}, (w₁.register s registration).1 = .ok onInterrupt →
          onInterrupt.alarm? = none := by
      obtain rfl : (w.newSuspension fiber run.interruptible registration).1 = s := by rw [hnew]
      obtain rfl : (w.newSuspension fiber run.interruptible registration).2 = w₁ := by rw [hnew]
      have hopened : w.Chronicles (w.newSuspension fiber run.interruptible registration).2 :=
        ⟨_, .opened fiber run.interruptible registration hin.absent⟩
      have hplace := (w.suspension?_newSuspension fiber run.interruptible registration
        (w.newSuspension fiber run.interruptible registration).1).trans (if_pos rfl)
      obtain ⟨hstir, halarm⟩ := stir_register (hopened.orderly hw) hplace rfl
        (fun hch he => hw.out_of_next fiber run.interruptible registration hch he) hsleep
      exact ⟨Stir.trans (.opened fiber run.interruptible hsleep) hstir, halarm⟩
    generalize w₁.register s registration = registered at hp htold hr hfits hregister
    obtain ⟨result, w₂⟩ := registered
    obtain ⟨hstir, halarm⟩ := hregister
    simp only at hp htold hr hfits hstir halarm ⊢
    have hover : Stir w [] (w₂.setSuspension s .over) := hstir.trans (.changed hp hsleep rfl)
    cases result with
    | error d => exact hover
    | ok onInterrupt =>
      rw [hp, Option.map_some]
      cases state with
      | registering =>
        exact hstir.trans (stir_parkAt (htold.orderly hw) (hstir.restful hrest) hp rfl hr hs run
          (hfits rfl) hsleep (halarm rfl))
      | waiting run' onInterrupt' => cases hvacant
      | _ => exact hover

/-! ### Fibers come and go -/

/-- A fiber finishes. -/
theorem stir_complete (hw : w.Orderly) (hrest : w.Restful) (fiber : FiberId) (outcome : Outcome) :
    Stir w [] (w.complete fiber outcome) := by
  cases hr : w.store.fiber? fiber with
  | none => simpa only [complete, hr] using .refl w
  | some record =>
    have hchildren : Stir w [] (w.modifyFiber fiber fun f => { f with children := [] }) :=
      .keepsObservers w fiber fun _ => rfl
    have hidle : w.Idles (w.modifyFiber fiber fun f => { f with children := [] }) :=
      .modifyFiber w fiber (fun _ => rfl) (fun _ => rfl) fun _ _ _ ho => Or.inl ho
    have hbefore := hchildren.trans (stir_interruptUnfinished (hidle.chronicles.orderly hw)
      (hchildren.restful hrest) record.children fiber)
    have hrest' := hbefore.restful hrest
    simp only [complete, hr]
    generalize (w.modifyFiber fiber fun f => { f with children := [] }).interruptUnfinished
      record.children fiber = w₁ at hbefore hrest'
    have hfinish : Stir w₁ [] (w₁.modifyFiber fiber fun f =>
        { f with exit := some outcome, finished := true, suspension := none, observers := [] }) :=
      .modifyFiber w₁ fiber fun _ _ _ ho => by cases ho
    refine (hbefore.trans hfinish).trans (stir_notifyAll _ fiber fun o ho s hs => ?_)
    -- those who are told now have been waiting for the end of the fiber
    cases hr₁ : w₁.store.fiber? fiber with
    | none => simp [hr₁] at ho
    | some r =>
      rw [hr₁, Option.map_some, Option.getD_some] at ho
      exact hfinish.wakeful (hrest'.observers ⟨fiber, r, o, hr₁, ho, hs⟩)

theorem stir_fork (w : World) (parent : FiberId) (run : RunState) (child : Instruction)
    (daemon : Bool) : Stir w [] (w.fork parent run child daemon).2 := by
  have hpush : Stir w [] { w with store := { w.store with fibers := w.store.fibers.push {} } } :=
    .push w (by simp)
  cases daemon with
  | true => exact hpush.trans (.schedule _ _ _ _)
  | false =>
    have hchild : Stir { w with store := { w.store with fibers := w.store.fibers.push {} } } []
        (addChild { w with store := { w.store with fibers := w.store.fibers.push {} } } parent
          w.store.nextFiber) := .keepsObservers _ parent fun _ => rfl
    exact (hpush.trans hchild).trans (.schedule _ _ _ _)

theorem stir_startRoot (budget : Nat) (w : World) (effect : Instruction) (environment : Value)
    (report : Option ErrorType) :
    Stir w [] (Machine.startRoot { budget, world := w } effect environment report).2.world := by
  refine Stir.trans (.push w ?_) (.schedule _ _ _ _)
  intro o ho
  obtain ⟨type, -, rfl⟩ := List.mem_map.mp (Option.toList_map .. ▸ ho)
  rfl

/-! ### Plans -/

theorem stir_attemptUpdate (hw : w.Orderly) (cell : CellId) (f : Value → Action (Update Value)) :
    Stir w [] (w.attemptUpdate cell f).2 := by
  unfold attemptUpdate
  split
  · exact .refl w
  · next c _ =>
    have hrun := stir_run (f c.value) hw
    split
    · next d w' heq => rwa [heq] at hrun
    · next update w' heq =>
      rw [heq] at hrun
      refine hrun.trans ?_
      unfold commitUpdate
      split
      · exact .refl w'
      · split
        · exact .refl w'
        · exact .unrelated rfl rfl rfl rfl

theorem stir_buildRelease (hw : w.Orderly) (release : ReleaseId) (x : Exit Value Value) :
    Stir w [] (w.buildRelease release x).2 := by
  -- a release is built of earlier ones
  induction hindex : release.index using Nat.strongRecOn generalizing release w with
  | _ index ih =>
    subst hindex
    rw [buildRelease]
    split
    · exact .refl w
    · exact stir_run _ hw
    · split
      · next hlt => exact ih _ hlt hw _ rfl
      · exact .refl w
    · split
      · next hlt =>
        have hfirst := ih _ hlt.1 hw _ rfl
        exact hfirst.trans (ih _ hlt.2 ((chronicles_buildRelease hw _ x).orderly hw) _ rfl)
      · exact .refl w
    · split
      · next inner _ hlt =>
        have hbuild := ih _ hlt hw _ rfl
        split
        · next i w' heq => rwa [heq] at hbuild
        · next d w' heq => rwa [heq] at hbuild
      · exact .refl w

/-- The leases that a plan releases. -/
def spentBy (w : World) : Plan → List LeaseId
  | .releaseLease _ lease _ =>
    match w.store.lease? lease with
    | none => []
    | some l => if l.released then [] else [lease]
  | _ => []

/-- What is done with a lease that has not been released. -/
theorem carryOut_spends {lease : LeaseId} {l : Lease} (hl : w.store.lease? lease = some l)
    (hopen : l.released = false) (fiber : FiberId) (run : RunState) (x : Exit Value Value) :
    w.carryOut fiber (.releaseLease run lease x) =
      (some (run, .ofBuilt ((w.spendLease lease).buildRelease l.release x).1),
        ((w.spendLease lease).buildRelease l.release x).2) := by
  simp only [carryOut, evaluate, hl, hopen, Bool.false_eq_true, if_false]
  rfl

/-- Nothing is done with a lease that has been released, or that there is not. -/
theorem carryOut_spent {lease : LeaseId}
    (h : ∀ l, w.store.lease? lease = some l → l.released = true) (fiber : FiberId)
    (run : RunState) (x : Exit Value Value) :
    w.carryOut fiber (.releaseLease run lease x) = (some (run, .value .unit), w) := by
  simp only [carryOut, evaluate]
  cases hl : w.store.lease? lease with
  | none => rfl
  | some l =>
    simp only [h l hl, if_true]

/-- **Every plan is made up of such changes.** -/
theorem carryOut_stir (hw : w.Orderly) (hrest : w.Restful) {fiber : FiberId}
    (hin : w.InHand fiber) (plan : Plan) :
    Stir w (w.spentBy plan) (w.carryOut fiber plan).2 := by
  cases plan with
  | proceed run step => exact .refl w
  | finish outcome => exact stir_complete hw hrest fiber outcome
  | build run code | translate run code | compute run code => exact stir_run code hw
  | update run cell f => exact stir_attemptUpdate hw cell f
  | release run id exit => exact stir_buildRelease hw id exit
  | releaseLease run lease exit =>
    cases hl : w.store.lease? lease with
    | none =>
      rw [carryOut_spent (by simp [hl])]
      simp only [spentBy, hl]
      exact .refl w
    | some l =>
      cases hopen : l.released with
      | true =>
        rw [carryOut_spent (by simp [hl, hopen])]
        simp only [spentBy, hl, hopen, if_true]
        exact .refl w
      | false =>
        rw [carryOut_spends hl hopen]
        simp only [spentBy, hl, hopen, Bool.false_eq_true, if_false]
        have hspent : w.Chronicles (w.spendLease lease) := .unrelated rfl rfl rfl rfl
        exact Stir.trans (.spent hl hopen) (stir_buildRelease (hspent.orderly hw) l.release exit)
  | reserve run v release => exact .unrelated rfl rfl rfl rfl
  | fork run child daemon => exact w.stir_fork fiber run child daemon
  | signal run target => exact stir_interrupt hw hrest target fiber
  | wait run registration =>
    rw [carryOut_wait]
    exact stir_park hw hrest hin run registration
  | makeWay run => exact .schedule _ _ _ _

end World

/-! ### Workshops -/

/-- The leases that are released in an event. -/
def Event.spent : Event → List LeaseId
  | .iterated w _ (.eval (.releaseLease lease _)) =>
    match w.store.lease? lease with
    | none => []
    | some l => if l.released then [] else [lease]
  | _ => []

namespace Workshop

variable {budget minted : Nat} {s s' : Workshop} {events record : List (FiberId × Event)}

/-- The leases that are released in some events. -/
def spentIn (events : List (FiberId × Event)) : List LeaseId := events.flatMap fun e => e.2.spent

/-- An iteration releases what its plan does. -/
theorem spent_iterated (w : World) (fiber : FiberId) (run : RunState) (step : Step) :
    (Event.iterated w run step).spent = w.spentBy (step.plan (w.pending fiber) fiber run) := by
  cases step with
  | eval i => cases i <;> rfl
  | attempt cell f => rfl
  | value v =>
    change [] = w.spentBy (run.planValue v)
    rcases run.planValue_cases v with ⟨heq, -⟩ | ⟨rest, code, heq⟩ | ⟨rest, heq⟩ <;> rw [heq] <;>
      rfl
  | halt h =>
    change [] = w.spentBy (run.planHalt (w.pending fiber) h)
    rcases run.planHalt_cases (w.pending fiber) h with
      ⟨heq, -⟩ | ⟨-, rest, code, heq⟩ | ⟨rest, code, heq⟩ | ⟨rest, h', heq⟩ <;> rw [heq] <;> rfl

/-- Giving way releases nothing. -/
theorem spentIn_iteration (w : World) (fiber : FiberId) (stops : Bool) (run : RunState)
    (step : Step) :
    spentIn (((if stops = true then [Event.stopped w] else []) ++
      [Event.iterated w run step]).map (fiber, ·)) = (Event.iterated w run step).spent := by
  cases stops <;> exact List.append_nil _

/-- What is known of places, channels and alarms in every world that is reached. -/
structure Kempt (s : Workshop) : Prop where
  valid : s.Valid
  orderly : s.world.Orderly
  restful : s.world.Restful

/-- **Every move is made up of such changes.** -/
theorem Move.stir (h : Move budget s events s') (hs : s.Kempt) :
    Stir s.world (spentIn events) s'.world := by
  obtain ⟨hvalid, hw, hrest⟩ := hs
  cases h with
  | pick _ _ => exact .unrelated rfl rfl rfl rfl
  | @advance w before after slice m hm =>
    subst hm
    obtain ⟨a, ha⟩ := hvalid.stands slice.fiber
    obtain ⟨-, hin, -, -⟩ := stands_of_running ha
    simp only [Machine.advance, Slice.doings]
    generalize (if Machine.counts slice.step then slice.used + 1 else slice.used) = used
    by_cases hused : max budget 1 < used
    · simp only [if_pos hused]
      exact .schedule w _ _ _
    · have hstir := World.carryOut_stir hw hrest hin
        ((w.divert slice.fiber slice.run slice.step).plan (w.pending slice.fiber) slice.fiber
          slice.run)
      simp only [if_neg hused, World.iterate_eq_carryOut]
      rw [spentIn_iteration, spent_iterated w slice.fiber]
      generalize w.carryOut slice.fiber _ = progress at hstir
      obtain ⟨_ | next, w'⟩ := progress <;> exact hstir
  | interrupt target source => exact World.stir_interrupt hw hrest target source
  | act a => exact World.stir_run a hw
  | ring hm =>
    unfold Machine.ring at hm
    split at hm
    · cases hm
    · next alarm alarms hfirst =>
      obtain rfl := Option.some.inj hm
      exact .rang _ _ hfirst
  | start effect environment report => exact World.stir_startRoot budget _ effect environment report

theorem kempt_init (minted : Nat) : (init minted).Kempt where
  valid := valid_init minted
  orderly := World.orderly_init minted
  restful := by
    refine ⟨fun {s} hs => ?_, fun {s p run onInterrupt} hp _ => ?_⟩
    · obtain ⟨fiber, r, o, hr, -⟩ := hs
      simp [init, World.init, Store.init, Store.fiber?, Numbered.get?, Numbered.startingAt] at hr
    · simp [init, World.init, World.suspension?, Numbered.get?] at hp

theorem Move.kempt (h : Move budget s events s') (hs : s.Kempt) : s'.Kempt where
  valid := h.valid hs.valid
  orderly := (h.chronicles hs.valid hs.orderly).orderly hs.orderly
  restful := (h.stir hs).restful hs.restful

/-- **Every run is made up of such changes.** -/
theorem Run.stir (h : Run budget s record s') (hs : s.Kempt) :
    s'.Kempt ∧ Stir s.world (spentIn record) s'.world := by
  induction h with
  | rest => exact ⟨hs, .refl _⟩
  | @move s s₁ s₂ events record hmove _ ih =>
    obtain ⟨hend, hlater⟩ := ih (hmove.kempt hs)
    have hwhole := (hmove.stir hs).trans hlater
    rw [spentIn, spentIn, ← List.flatMap_append] at hwhole
    exact ⟨hend, hwhole⟩

end Workshop

end Fibers
