import Mathlib.Data.List.Forall2
import Mathlib.Data.List.Nodup
import Fibers.Proofs.Appointments
import Fibers.Proofs.Heeding
import Fibers.Proofs.Stirring

/-!
# Who sleeps

A fiber that sleeps has an alarm, and an alarm that is pending wakes a fiber that sleeps.  The alarm
comes to be when the fiber lies down, and it is taken away by two parties: by those who call it off
because the fiber is interrupted, and by the time that passes.

Time passes in two parts.  First all alarms whose deadline has passed are taken off the clock, then
each of them wakes its fiber.  In between all kinds of things may happen: the fiber whose alarm has
been taken off the clock may be interrupted, and may have finished when its alarm comes to wake it.
So what is invariant has to be said of the alarms that are pending and of those that are on their
way, and it is only when none is on its way that the pending ones are those of the fibers that
sleep.

## Main definitions

* `World.SleepsAt` — a fiber is parked in a sleep.
* `World.Punctual` — what holds of the alarms that are pending and of those that are on their way.
* `World.Matched` — the pending alarms are those of the fibers that sleep, one each.
* `Vigil`, `Vigil.Move`, `Vigil.Run` — a workshop in which the time passes.

## Main results

* `Stir.punctual` — whatever is done in a workshop leaves the alarms as they should be.
* `Vigil.Run.sound` — so does the time that passes.
* `Vigil.Run.watches_over_sleepers` — **no alarm is left over, and none is missing.**
-/

namespace Fibers

/-- Who sleeps does not wait at a channel. -/
theorem Registration.line?_of_isSleep {registration : Registration}
    (h : registration.isSleep = true) : registration.line? = none := by
  cases hline : registration.line? with
  | none => rfl
  | some line =>
    rw [isSleep_of_line? hline] at h
    cases h

theorem Alarms.nextKey_schedule {α : Type} (deadline : Nat) (payload : α) (c : Alarms α) :
    (c.schedule deadline payload).2.nextKey = c.nextKey + 1 := by
  unfold schedule
  split <;> rfl

theorem Alarms.stopped_schedule {α : Type} (deadline : Nat) (payload : α) (c : Alarms α) :
    (c.schedule deadline payload).2.stopped = c.stopped := by
  unfold schedule
  split <;> rfl

theorem Alarms.of_first? {α : Type} {c c' : Alarms α} {a : Alarm α} (h : c.first? = some (a, c')) :
    c.pending = a :: c'.pending ∧ c'.nextKey = c.nextKey ∧ c'.stopped = c.stopped := by
  unfold first? at h
  split at h
  · cases h
  · next b pending hpending =>
    obtain ⟨rfl, rfl⟩ := Prod.mk.inj (Option.some.inj h)
    exact ⟨hpending, rfl, rfl⟩

namespace World

/-! ### Places of those who sleep -/

/-- A fiber is parked in a sleep at a place. -/
def SleepsAt (w : World) (fiber : FiberId) (s : SuspensionId) : Prop :=
  ∃ p run onInterrupt, w.suspension? s = some p ∧ p.fiber = fiber ∧
    p.registration.isSleep = true ∧ p.state = .waiting run onInterrupt

/-- Somebody is parked in a sleep at a place, for the alarm with a key. -/
def AsleepAt (w : World) (s : SuspensionId) (key : Nat) : Prop :=
  ∃ p, w.suspension? s = some p ∧ p.registration.isSleep = true ∧ p.state.alarm? = some key

/-- A sleep at a place is over. -/
def RisenAt (w : World) (s : SuspensionId) : Prop :=
  ∃ p, w.suspension? s = some p ∧ p.registration.isSleep = true ∧ p.state = .over

variable {w w' : World} {due due' : List (Alarm SuspensionId)} {s t : SuspensionId}
  {fiber : FiberId} {key key' : Nat}

theorem AsleepAt.key_eq (h : w.AsleepAt s key) (h' : w.AsleepAt s key') : key = key' := by
  obtain ⟨p, hp, -, hkey⟩ := h
  obtain ⟨p', hp', -, hkey'⟩ := h'
  obtain rfl := Option.some.inj (hp.symm.trans hp')
  exact Option.some.inj (hkey.symm.trans hkey')

theorem AsleepAt.not_risen (h : w.AsleepAt s key) : ¬ w.RisenAt s := by
  rintro ⟨p', hp', -, hover⟩
  obtain ⟨p, hp, -, hkey⟩ := h
  obtain rfl := Option.some.inj (hp.symm.trans hp')
  rw [hover] at hkey
  cases hkey

theorem AsleepAt.sleepsAt (h : w.AsleepAt s key) : ∃ fiber, w.SleepsAt fiber s := by
  obtain ⟨p, hp, hsleep, hkey⟩ := h
  cases hstate : p.state with
  | waiting run onInterrupt => exact ⟨p.fiber, p, run, onInterrupt, hp, rfl, hsleep, hstate⟩
  | _ =>
    rw [hstate] at hkey
    cases hkey

theorem AsleepAt.isSleep (h : w.AsleepAt s key) {p : Suspension} (hp : w.suspension? s = some p) :
    p.registration.isSleep = true := by
  obtain ⟨p', hp', hsleep, -⟩ := h
  rw [Option.some.inj (hp.symm.trans hp')]
  exact hsleep

/-- Only who sleeps is parked for an alarm. -/
theorem asleepAt_of_alarm (hrest : w.Restful) {p : Suspension} (hp : w.suspension? s = some p)
    (hkey : p.state.alarm? = some key) : w.AsleepAt s key := by
  refine ⟨p, hp, ?_, hkey⟩
  cases hstate : p.state with
  | waiting run onInterrupt =>
    rw [hstate] at hkey
    rw [hrest.sleepers hp hstate, show onInterrupt.alarm? = some key from hkey]
    rfl
  | _ =>
    rw [hstate] at hkey
    cases hkey

/-- Who sleeps does so for an alarm. -/
theorem SleepsAt.asleepAt (h : w.SleepsAt fiber s) (hrest : w.Restful) :
    ∃ key, w.AsleepAt s key := by
  obtain ⟨p, run, onInterrupt, hp, -, hsleep, hstate⟩ := h
  obtain ⟨key, hkey⟩ := Option.isSome_iff_exists.mp ((hrest.sleepers hp hstate).symm.trans hsleep)
  refine ⟨key, p, hp, hsleep, ?_⟩
  rw [hstate]
  exact hkey

/-- A fiber sleeps at one place at a time. -/
theorem SleepsAt.place_eq (hw : w.Orderly) (h : w.SleepsAt fiber s) (h' : w.SleepsAt fiber t) :
    s = t := by
  obtain ⟨p, run, _, hp, hfiber, -, hstate⟩ := h
  obtain ⟨p', run', _, hp', hfiber', -, hstate'⟩ := h'
  obtain ⟨r, hr, hs⟩ := hw.recorded hp hstate
  obtain ⟨r', hr', ht⟩ := hw.recorded hp' hstate'
  rw [hfiber] at hr
  rw [hfiber'] at hr'
  obtain rfl := Option.some.inj (hr.symm.trans hr')
  exact Option.some.inj (hs.symm.trans ht)

/-! ### Alarms that are pending, and alarms on their way -/

/-- What holds of the alarms that are pending, and of those that are on their way. -/
structure Punctual (w : World) (due : List (Alarm SuspensionId)) : Prop where
  /-- The clock has not been stopped. -/
  running : w.store.alarms.stopped = false
  /-- Every alarm has a key of its own. -/
  keys : ((w.store.alarms.pending ++ due).map Alarm.key).Nodup
  /-- No alarm has a key that has not been given out. -/
  below : ∀ a ∈ w.store.alarms.pending ++ due, a.key < w.store.alarms.nextKey
  /-- A pending alarm wakes somebody who sleeps. -/
  wakes : ∀ a ∈ w.store.alarms.pending, w.AsleepAt a.payload a.key
  /-- So does an alarm on its way, unless it comes too late. -/
  called : ∀ a ∈ due, w.AsleepAt a.payload a.key ∨ w.RisenAt a.payload
  /-- Who sleeps is woken by an alarm. -/
  awaits : ∀ {s key}, w.AsleepAt s key →
    ∃ a ∈ w.store.alarms.pending ++ due, a.payload = s ∧ a.key = key

namespace Punctual

variable {a b : Alarm SuspensionId}

theorem eq_of_key (h : w.Punctual due) (ha : a ∈ w.store.alarms.pending ++ due)
    (hb : b ∈ w.store.alarms.pending ++ due) (hkey : a.key = b.key) : a = b :=
  List.inj_on_of_nodup_map h.keys ha hb hkey

/-- There is one alarm for a sleep. -/
theorem eq_of_payload (h : w.Punctual due) (ha : a ∈ w.store.alarms.pending)
    (hb : b ∈ w.store.alarms.pending ++ due) (hpayload : b.payload = a.payload) : b = a := by
  have hasleep := h.wakes a ha
  refine h.eq_of_key hb (List.mem_append_left _ ha) ?_
  rcases List.mem_append.mp hb with hpending | hdue
  · exact (hpayload ▸ h.wakes b hpending).key_eq hasleep
  · rcases h.called b hdue with hother | hrisen
    · exact (hpayload ▸ hother).key_eq hasleep
    · exact absurd (hpayload ▸ hrisen) hasleep.not_risen

end Punctual

/-- Nobody sleeps at a place. -/
def Unused (w : World) (s : SuspensionId) : Prop :=
  ∀ p, w.suspension? s = some p → p.registration.isSleep = false

/-- Alarms stay as they are if nothing happens at the places of those who sleep. -/
theorem Punctual.frame (h : w.Punctual due) (halarms : w'.store.alarms = w.store.alarms)
    (hplaces : ∀ s, w'.suspension? s = w.suspension? s ∨ w.Unused s ∧ w'.Unused s) :
    w'.Punctual due := by
  have hasleep : ∀ {s key}, w'.AsleepAt s key ↔ w.AsleepAt s key := by
    intro s key
    rcases hplaces s with hsame | ⟨hold, hnew⟩
    · simp only [AsleepAt, hsame]
    · constructor
      · rintro ⟨p, hp, hsleep, -⟩
        rw [hnew p hp] at hsleep
        cases hsleep
      · rintro ⟨p, hp, hsleep, -⟩
        rw [hold p hp] at hsleep
        cases hsleep
  have hrisen : ∀ {s}, w.RisenAt s → w'.RisenAt s := by
    rintro s ⟨p, hp, hsleep, hover⟩
    rcases hplaces s with hsame | ⟨hold, -⟩
    · exact ⟨p, hsame.trans hp, hsleep, hover⟩
    · rw [hold p hp] at hsleep
      cases hsleep
  constructor
  · rw [halarms]
    exact h.running
  · rw [halarms]
    exact h.keys
  · rw [halarms]
    exact h.below
  · rw [halarms]
    exact fun a ha => hasleep.mpr (h.wakes a ha)
  · exact fun a ha => (h.called a ha).imp hasleep.mpr hrisen
  · intro s key hs
    rw [halarms]
    exact h.awaits (hasleep.mp hs)

/-- A sleep is over, and its alarm is gone. -/
theorem Punctual.risen (h : w.Punctual due) (hs : w'.RisenAt s)
    (hother : ∀ t, t ≠ s → w'.suspension? t = w.suspension? t)
    (hstopped : w'.store.alarms.stopped = w.store.alarms.stopped)
    (hnext : w'.store.alarms.nextKey = w.store.alarms.nextKey)
    (hsub : (w'.store.alarms.pending ++ due').Sublist (w.store.alarms.pending ++ due))
    (hpending : ∀ a ∈ w'.store.alarms.pending, a ∈ w.store.alarms.pending ∧ a.payload ≠ s)
    (hdue : ∀ a ∈ due', a ∈ due)
    (hkeeps : ∀ a ∈ w.store.alarms.pending ++ due, a.payload ≠ s →
      a ∈ w'.store.alarms.pending ++ due') : w'.Punctual due' := by
  have hasleep : ∀ {t key}, t ≠ s → (w'.AsleepAt t key ↔ w.AsleepAt t key) := by
    intro t key hne
    simp only [AsleepAt, hother t hne]
  refine ⟨hstopped.trans h.running, ?_, ?_, ?_, ?_, ?_⟩
  · exact h.keys.sublist (hsub.map Alarm.key)
  · intro a ha
    rw [hnext]
    exact h.below a (hsub.subset ha)
  · intro a ha
    obtain ⟨hold, hne⟩ := hpending a ha
    exact (hasleep hne).mpr (h.wakes a hold)
  · intro a ha
    by_cases heq : a.payload = s
    · exact Or.inr (heq ▸ hs)
    · refine (h.called a (hdue a ha)).imp (hasleep heq).mpr fun hrisen => ?_
      simpa only [RisenAt, hother _ heq] using hrisen
  · intro t key ht
    by_cases heq : t = s
    · exact absurd (heq ▸ hs) ht.not_risen
    · obtain ⟨a, ha, rfl, hkey⟩ := h.awaits ((hasleep heq).mp ht)
      exact ⟨a, hkeeps a ha heq, rfl, hkey⟩

/-- A fiber has lain down, and an alarm has been set for it. -/
theorem Punctual.lieDown (h : w.Punctual due) (fiber : FiberId) (run : RunState) (millis : Nat) :
    (w.lieDown fiber run millis).Punctual due := by
  let alarm : Alarm SuspensionId :=
    ⟨w.store.now + millis, w.store.alarms.nextKey, ⟨w.suspensions.next⟩⟩
  have halarms : (w.lieDown fiber run millis).store.alarms =
      (w.store.alarms.schedule (w.store.now + millis) ⟨w.suspensions.next⟩).2 := rfl
  have hpending : (w.lieDown fiber run millis).store.alarms.pending =
      Alarms.insert alarm w.store.alarms.pending := by
    rw [halarms, Alarms.schedule, h.running]
    rfl
  have hperm : ((w.lieDown fiber run millis).store.alarms.pending ++ due).Perm
      (alarm :: (w.store.alarms.pending ++ due)) := by
    rw [hpending]
    exact (Alarms.insert_perm alarm _).append_right due
  -- the new place is that of the fiber, and there has been nothing at it before
  have hnew : (w.lieDown fiber run millis).AsleepAt alarm.payload alarm.key := by
    refine ⟨_, (w.suspension?_lieDown fiber run millis _).trans (if_pos rfl), rfl, rfl⟩
  have hnone : w.suspension? alarm.payload = none := Numbered.get?_next _
  have hother : ∀ {t}, t ≠ alarm.payload →
      (w.lieDown fiber run millis).suspension? t = w.suspension? t := fun hne =>
    (w.suspension?_lieDown fiber run millis _).trans (if_neg hne)
  have hasleep : ∀ {t key}, w.AsleepAt t key → (w.lieDown fiber run millis).AsleepAt t key := by
    rintro t key ⟨p, hp, hasleep⟩
    refine ⟨p, (hother ?_).trans hp, hasleep⟩
    rintro rfl
    rw [hnone] at hp
    cases hp
  have hrisen : ∀ {t}, w.RisenAt t → (w.lieDown fiber run millis).RisenAt t := by
    rintro t ⟨p, hp, hover⟩
    refine ⟨p, (hother ?_).trans hp, hover⟩
    rintro rfl
    rw [hnone] at hp
    cases hp
  constructor
  · rw [halarms, Alarms.stopped_schedule]
    exact h.running
  · refine (hperm.map Alarm.key).nodup_iff.mpr (List.nodup_cons.mpr ⟨fun hmem => ?_, h.keys⟩)
    obtain ⟨a, ha, hkey⟩ := List.mem_map.mp hmem
    have hlt := h.below a ha
    rw [hkey] at hlt
    exact absurd hlt (Nat.lt_irrefl _)
  · intro a ha
    rw [halarms, Alarms.nextKey_schedule]
    rcases List.mem_cons.mp (hperm.mem_iff.mp ha) with rfl | hold
    · exact Nat.lt_succ_self _
    · exact Nat.lt_succ_of_lt (h.below a hold)
  · intro a ha
    rw [hpending] at ha
    rcases Alarms.mem_insert.mp ha with rfl | hold
    · exact hnew
    · exact hasleep (h.wakes a hold)
  · exact fun a ha => (h.called a ha).imp hasleep hrisen
  · intro t key ht
    by_cases heq : t = alarm.payload
    · subst heq
      exact ⟨alarm, hperm.mem_iff.mpr List.mem_cons_self, rfl, hnew.key_eq ht⟩
    · obtain ⟨p, hp, hasleep⟩ := ht
      obtain ⟨a, ha, hpayload⟩ := h.awaits ⟨p, (hother heq).symm.trans hp, hasleep⟩
      exact ⟨a, hperm.mem_iff.mpr (List.mem_cons_of_mem _ ha), hpayload⟩

/-- A sleep that is completed is over. -/
theorem AsleepAt.resume (h : w.AsleepAt s key) (outcome : Outcome) :
    (w.resume s outcome).2.RisenAt s := by
  obtain ⟨p, hp, hsleep, hkey⟩ := h
  refine ⟨{ p with state := p.state.completed outcome }, ?_, hsleep, ?_⟩
  · rw [suspension?_resume, if_pos rfl, hp]
    rfl
  · simp only
    cases hstate : p.state with
    | waiting run onInterrupt => rfl
    | _ =>
      rw [hstate] at hkey
      cases hkey

/-- A fiber that sleeps has given up, and its alarm has been called off. -/
theorem Punctual.calledOff (h : w.Punctual due) (hrest : w.Restful) {place : Suspension}
    (hplace : w.suspension? s = some place) (hkey : place.state.alarm? = some key) :
    ((w.setSuspension s .over).cancel (.alarm key)).Punctual due := by
  have hasleep := asleepAt_of_alarm hrest hplace hkey
  have hover : (w.setSuspension s .over).suspension? s = some { place with state := .over } := by
    rw [suspension?_setSuspension, if_pos rfl, hplace]
    rfl
  have hsleep := hasleep.isSleep hplace
  refine h.risen ⟨_, hover, hsleep, rfl⟩
    (fun t hne => (suspension?_setSuspension ..).trans (if_neg hne)) rfl rfl
    (List.filter_sublist.append (.refl due)) ?_ (fun _ ha => ha) ?_
  · -- no alarm is left that wakes somebody at the place
    intro a ha
    obtain ⟨hold, hne⟩ := Alarms.mem_cancel.mp ha
    exact ⟨hold, fun heq => hne ((heq ▸ h.wakes a hold).key_eq hasleep)⟩
  · intro a ha hne
    rcases List.mem_append.mp ha with hold | hdue
    · refine List.mem_append_left _ (Alarms.mem_cancel.mpr ⟨hold, fun hsame => hne ?_⟩)
      obtain ⟨b, hb, hpayload, hkey'⟩ := h.awaits hasleep
      rw [h.eq_of_key ha hb (hsame.trans hkey'.symm), hpayload]
    · exact List.mem_append_right _ hdue

/-! ### Alarms that come off the clock -/

/-- Some alarms come off the clock, and are on their way then. -/
theorem Punctual.takenOff (h : w.Punctual due) {alarms : Alarms SuspensionId} (now : Nat)
    (hstopped : alarms.stopped = w.store.alarms.stopped)
    (hnext : alarms.nextKey = w.store.alarms.nextKey)
    (hperm : (alarms.pending ++ due').Perm (w.store.alarms.pending ++ due))
    (hpending : ∀ a ∈ alarms.pending, a ∈ w.store.alarms.pending)
    (hdue : ∀ a ∈ due', a ∈ w.store.alarms.pending ∨ a ∈ due) :
    Punctual { w with store := { w.store with alarms, now } } due' where
  running := hstopped.trans h.running
  keys := (hperm.map Alarm.key).nodup_iff.mpr h.keys
  below a ha := hnext ▸ h.below a (hperm.mem_iff.mp ha)
  wakes a ha := h.wakes a (hpending a ha)
  called a ha := (hdue a ha).elim (fun hold => Or.inl (h.wakes a hold)) (h.called a)
  awaits hs := by
    obtain ⟨a, ha, hfor⟩ := h.awaits hs
    exact ⟨a, hperm.mem_iff.mpr ha, hfor⟩

variable {a : Alarm SuspensionId}

/-- An alarm that has come off the clock is the only one with its key. -/
theorem Punctual.key_ne (h : w.Punctual (a :: due)) :
    ∀ b ∈ w.store.alarms.pending ++ due, b.key ≠ a.key := by
  have hkeys := (List.perm_middle.map Alarm.key).nodup_iff.mp h.keys
  rw [List.map_cons, List.nodup_cons] at hkeys
  exact fun b hb heq => hkeys.1 (heq ▸ List.mem_map_of_mem hb)

/-- Nobody else is going to wake whom an alarm on its way is for. -/
theorem Punctual.payload_ne (h : w.Punctual (a :: due)) :
    ∀ b ∈ w.store.alarms.pending, b.payload ≠ a.payload := by
  intro b hb heq
  have hsame := h.eq_of_payload hb (List.mem_append_right _ List.mem_cons_self) heq.symm
  exact h.key_ne b (List.mem_append_left _ hb) (congrArg Alarm.key hsame).symm

/-- An alarm wakes whom it is for, or comes too late. -/
theorem Punctual.fire (h : w.Punctual (a :: due)) (outcome : Outcome) :
    (w.resume a.payload outcome).2.Punctual due := by
  have hrisen : (w.resume a.payload outcome).2.RisenAt a.payload := by
    rcases h.called a List.mem_cons_self with hasleep | ⟨p, hp, hsleep, hover⟩
    · exact hasleep.resume outcome
    · refine ⟨{ p with state := p.state.completed outcome }, ?_, hsleep, by rw [hover]; rfl⟩
      rw [suspension?_resume, if_pos rfl, hp]
      rfl
  refine h.risen hrisen (fun t hne => (suspension?_resume ..).trans (if_neg hne)) ?_ ?_ ?_ ?_
    (fun b hb => List.mem_cons_of_mem _ hb) ?_ <;> rw [store_resume]
  · exact (List.Sublist.refl _).append (List.sublist_cons_self _ _)
  · exact fun b hb => ⟨hb, h.payload_ne b hb⟩
  · intro b hb hne
    rcases List.mem_append.mp hb with hpending | hdue
    · exact List.mem_append_left _ hpending
    · rcases List.mem_cons.mp hdue with rfl | hrest
      · exact absurd rfl hne
      · exact List.mem_append_right _ hrest

/-- The alarms whose deadline has passed come off the clock. -/
theorem Punctual.collect (h : w.Punctual []) (now : Nat) :
    Punctual { w with store := { w.store with alarms := (w.store.alarms.due now).2, now } }
      (w.store.alarms.due now).1 := by
  have hparts := Alarms.due_append_pending now w.store.alarms
  refine h.takenOff now rfl rfl ?_ (fun a ha => ?_) fun a ha => Or.inl ?_
  · rw [List.append_nil]
    exact List.perm_append_comm.trans (.of_eq hparts)
  · exact hparts ▸ List.mem_append_right _ ha
  · exact hparts ▸ List.mem_append_left _ ha

/-- The first alarm comes off the clock, and wakes whom it is for. -/
theorem Punctual.rang (h : w.Punctual due) {alarms : Alarms SuspensionId} (now : Nat)
    (hfirst : w.store.alarms.first? = some (a, alarms)) (outcome : Outcome) :
    (resume { w with store := { w.store with alarms, now } } a.payload outcome).2.Punctual due := by
  obtain ⟨hpending, hnext, hstopped⟩ := Alarms.of_first? hfirst
  refine Punctual.fire (h.takenOff now hstopped hnext ?_ (fun b hb => ?_) fun b hb => ?_) outcome
  · rw [hpending]
    exact List.perm_middle
  · exact hpending ▸ List.mem_cons_of_mem _ hb
  · rcases List.mem_cons.mp hb with rfl | hdue
    · exact Or.inl (hpending ▸ List.mem_cons_self)
    · exact Or.inr hdue

end World

namespace Stir

variable {w w' : World} {leases : List LeaseId} {due : List (Alarm SuspensionId)}

/-- **Whatever is done in a workshop leaves the alarms as they should be.** -/
theorem punctual (h : Stir w leases w') (hrest : w.Restful) (hw : w.Punctual due) :
    w'.Punctual due := by
  induction h with
  | data hsusp halarms _ _ =>
    exact hw.frame halarms fun s => Or.inl (by rw [World.suspension?, hsusp, World.suspension?])
  | leased _ | spent _ _ => exact hw.frame rfl fun _ => Or.inl rfl
  | @opened w fiber allowed registration hsleep =>
    refine hw.frame rfl fun s => ?_
    rw [World.suspension?_newSuspension]
    split
    · next heq =>
      refine Or.inr ⟨fun p hp => ?_, fun p hp => ?_⟩
      · rw [heq, World.suspension?_next] at hp
        cases hp
      · rw [World.suspension?_newSuspension, if_pos heq] at hp
        obtain rfl := Option.some.inj hp
        exact hsleep
    · exact Or.inl rfl
  | @changed w s place state hplace hsleep _ =>
    refine hw.frame rfl fun t => ?_
    by_cases heq : t = s
    · subst heq
      refine Or.inr ⟨fun p hp => ?_, fun p hp => ?_⟩
      · rw [Option.some.inj (hp.symm.trans hplace)]
        exact hsleep
      · rw [World.suspension?_setSuspension, if_pos rfl, hplace] at hp
        rw [← Option.some.inj hp]
        exact hsleep
    · exact Or.inl (by rw [World.suspension?_setSuspension, if_neg heq])
  | bedded fiber run millis => exact hw.lieDown fiber run millis
  | roused hplace hkey => exact hw.calledOff hrest hplace hkey
  | rang now outcome hfirst => exact hw.rang now hfirst outcome
  | trans hfirst _ ih ih' => exact ih' (hfirst.restful hrest) (ih hrest hw)

end Stir

namespace World

variable {w : World} {due : List (Alarm SuspensionId)} {s : SuspensionId} {fiber : FiberId}

/-! ### One alarm for each who sleeps -/

/-- The pending alarms are those of the fibers that sleep, one each. -/
def Matched (w : World) : Prop :=
  ∃ fibers : List FiberId, fibers.Nodup ∧ (∀ fiber, fiber ∈ fibers ↔ ∃ s, w.SleepsAt fiber s) ∧
    List.Forall₂ (fun a fiber => w.SleepsAt fiber a.payload) w.store.alarms.pending fibers

/-- The fiber that a place is for. -/
def keeper (w : World) (s : SuspensionId) : FiberId :=
  ((w.suspension? s).map Suspension.fiber).getD .none

theorem SleepsAt.keeper_eq (h : w.SleepsAt fiber s) : w.keeper s = fiber := by
  obtain ⟨p, _, _, hp, hfiber, -⟩ := h
  rw [keeper, hp]
  exact hfiber

/-- **If no alarm is on its way, the pending ones are those of the fibers that sleep.** -/
theorem Punctual.matched (h : w.Punctual []) (hw : w.Orderly) (hrest : w.Restful) : w.Matched := by
  have hkeys := h.keys
  rw [List.append_nil] at hkeys
  have hwakes : ∀ a ∈ w.store.alarms.pending, w.SleepsAt (w.keeper a.payload) a.payload := by
    intro a ha
    obtain ⟨fiber, hsleeps⟩ := (h.wakes a ha).sleepsAt
    rwa [hsleeps.keeper_eq]
  refine ⟨w.store.alarms.pending.map fun a => w.keeper a.payload, ?_, fun fiber => ?_, ?_⟩
  · refine List.Nodup.map_on (fun a ha b hb heq => ?_) (List.Nodup.of_map _ hkeys)
    -- two alarms for one fiber are for one place
    have hplace := (hwakes b hb).place_eq hw (heq ▸ hwakes a ha)
    exact h.eq_of_payload hb (List.mem_append_left _ ha) hplace.symm
  · constructor
    · intro hmem
      obtain ⟨a, ha, rfl⟩ := List.mem_map.mp hmem
      exact ⟨a.payload, hwakes a ha⟩
    · rintro ⟨s, hsleeps⟩
      obtain ⟨key, hasleep⟩ := hsleeps.asleepAt hrest
      obtain ⟨a, ha, rfl, -⟩ := h.awaits hasleep
      rw [List.append_nil] at ha
      exact List.mem_map.mpr ⟨a, ha, hsleeps.keeper_eq⟩
  · exact List.forall₂_map_right_iff.mpr (List.forall₂_same.mpr hwakes)

/-! ### How a sleep ends -/

/-- Nobody sleeps at a place where a sleep is over, nor does its fiber elsewhere. -/
theorem SleepsAt.not_of_risen {w' : World} (hw : w.Orderly) (h : w.SleepsAt fiber s)
    (hrisen : w'.RisenAt s) (hother : ∀ t, t ≠ s → w'.suspension? t = w.suspension? t)
    (t : SuspensionId) : ¬ w'.SleepsAt fiber t := by
  rintro ⟨p, run, onInterrupt, hp, hfiber, hsleep, hstate⟩
  by_cases heq : t = s
  · obtain ⟨p', hp', -, hover⟩ := hrisen
    rw [heq, hp'] at hp
    rw [← Option.some.inj hp, hover] at hstate
    cases hstate
  · rw [hother t heq] at hp
    exact heq (SleepsAt.place_eq hw ⟨p, run, onInterrupt, hp, hfiber, hsleep, hstate⟩ h)

/-- What becomes of a fiber whose sleep ends: it does not sleep any more, it is ready to go on with
a step, and there is no alarm left for its sleep; the other alarms are left alone. -/
structure Rises (w : World) (fiber : FiberId) (s : SuspensionId) (step : Step) (w' : World) :
    Prop where
  awake : ∀ t, ¬ w'.SleepsAt fiber t
  ready : ∃ run, .active run step ∈ w'.ready fiber
  alarms : w'.store.alarms.pending = w.store.alarms.pending.filter (·.payload ≠ s)

/-- The alarms of a sleep are told by their key, and by the place. -/
theorem Punctual.filter_key (h : w.Punctual due) {key : Nat} (hasleep : w.AsleepAt s key) :
    w.store.alarms.pending.filter (fun a => a.key ≠ key) =
      w.store.alarms.pending.filter (·.payload ≠ s) := by
  refine List.filter_congr fun a ha => ?_
  have hiff : a.key = key ↔ a.payload = s := by
    constructor
    · intro hkey
      obtain ⟨b, hb, hpayload, hkey'⟩ := h.awaits hasleep
      rw [h.eq_of_key (List.mem_append_left _ ha) hb (hkey.trans hkey'.symm), hpayload]
    · rintro rfl
      exact (h.wakes a ha).key_eq hasleep
  simp only [ne_eq, hiff]

/-- **Interrupting a fiber that sleeps takes its alarm away**, if interruption is allowed. -/
theorem Punctual.interrupted (h : w.Punctual due) (hw : w.Orderly) (hrest : w.Restful)
    (hsleeps : w.SleepsAt fiber s) (hallowed : w.isInterruptible s = true) (source : FiberId) :
    w.Rises fiber s (.interrupt ((w.interrupt fiber source).store.interruptor fiber))
      (w.interrupt fiber source) := by
  obtain ⟨key, hasleep⟩ := hsleeps.asleepAt hrest
  obtain ⟨p, run, onInterrupt, hp, rfl, hsleep, hstate⟩ := id hsleeps
  rw [isInterruptible, hp, Option.any_some] at hallowed
  obtain rfl : onInterrupt = .alarm key := by
    obtain ⟨p', hp', -, hkey⟩ := hasleep
    obtain rfl := Option.some.inj (hp.symm.trans hp')
    rw [hstate] at hkey
    cases onInterrupt <;> cases hkey
    rfl
  have hexposed : w.Exposed p.fiber s run (.alarm key) := ⟨p, hp, rfl, hallowed, hstate⟩
  have hexposed' : (w.recordInterruptor p.fiber source).Exposed p.fiber s run (.alarm key) :=
    hexposed.of_suspensions rfl
  rw [interrupt_of_exposed hw hexposed source, interruptAt_of_exposed hexposed']
  have hplaces : ∀ t, ((w.recordInterruptor p.fiber source).setSuspension s .over).suspension? t =
      if t = s then (w.suspension? s).map fun p => { p with state := .over } else w.suspension? t :=
    fun t => w.suspension?_setSuspension s t .over
  refine ⟨hsleeps.not_of_risen hw ⟨{ p with state := .over }, ?_, hsleep, rfl⟩ fun t hne => ?_,
    ⟨run, ?_⟩, h.filter_key hasleep⟩
  · exact (hplaces s).trans ((if_pos rfl).trans (by rw [hp]; rfl))
  · exact (hplaces t).trans (if_neg hne)
  · rw [ready_schedule, if_pos rfl]
    exact List.mem_append_right _ (List.mem_singleton_self _)

/-- **A fiber that sleeps where interruption is not allowed goes on sleeping**, and keeps its
alarm. -/
theorem SleepsAt.kept (hw : w.Orderly) (h : w.SleepsAt fiber s)
    (hfalse : w.isInterruptible s = false) (source : FiberId) :
    (w.interrupt fiber source).SleepsAt fiber s ∧
      (w.interrupt fiber source).store.alarms = w.store.alarms := by
  have hnot : ∀ t run onInterrupt, ¬ w.Exposed fiber t run onInterrupt := by
    intro t run onInterrupt hexposed
    obtain ⟨p, run', onInterrupt', hp, rfl, -, hstate⟩ := h
    obtain ⟨r, hr, hs⟩ := hw.recorded hp hstate
    have ht := hexposed.recorded hw
    rw [hr, Option.bind_some, hs] at ht
    obtain rfl := Option.some.inj ht
    obtain ⟨p', hp', -, hallowed, -⟩ := hexposed
    rw [isInterruptible, hp', Option.any_some, hallowed] at hfalse
    cases hfalse
  rw [interrupt_of_not_exposed hw hnot source]
  exact ⟨h, rfl⟩

variable {a : Alarm SuspensionId}

/-- **A fiber that is woken does not sleep any more**, and no alarm is left for it. -/
theorem Punctual.woken (h : w.Punctual (a :: due)) (hw : w.Orderly) (hrest : w.Restful)
    (hsleeps : w.SleepsAt fiber a.payload) (outcome : Outcome) :
    w.Rises fiber a.payload (.ofOutcome outcome) (w.resume a.payload outcome).2 := by
  obtain ⟨key, hasleep⟩ := hsleeps.asleepAt hrest
  refine ⟨hsleeps.not_of_risen hw (hasleep.resume outcome) fun t hne =>
    (suspension?_resume ..).trans (if_neg hne), ?_, ?_⟩
  · obtain ⟨p, run, onInterrupt, hp, rfl, -, hstate⟩ := hsleeps
    refine ⟨run, ?_⟩
    rw [resume, hp]
    simp only [hstate]
    rw [ready_schedule, if_pos rfl]
    exact List.mem_append_right _ (List.mem_singleton_self _)
  · rw [store_resume]
    exact (List.filter_eq_self.mpr fun b hb => by simpa using h.payload_ne b hb).symm

end World

/-! ### A workshop in which the time passes -/

theorem Workshop.Valid.influenced {w w' : World} {running : List Slice}
    (hvalid : Workshop.Valid ⟨w, running⟩) (h : w.Influences w') :
    Workshop.Valid ⟨w', running⟩ := by
  obtain ⟨es, hes⟩ := h.carries
  have heffect := effect_of_carries hes hvalid.sound running
  refine ⟨heffect.sound, fun fiber => ?_⟩
  obtain ⟨a, ha⟩ := hvalid.stands fiber
  obtain ⟨_, b, hb, -⟩ := heffect.stands ha
  exact ⟨b, hb⟩

/-- A fiber that sleeps has not finished. -/
theorem Workshop.Valid.going_of_sleepsAt {s : Workshop} (hvalid : s.Valid) {fiber : FiberId}
    {t : SuspensionId} (h : s.world.SleepsAt fiber t) :
    ∃ r, s.world.store.fiber? fiber = some r ∧ r.finished = false := by
  obtain ⟨p, run, onInterrupt, hp, hfiber, -, hstate⟩ := h
  obtain ⟨a, hphase, htokens⟩ := hvalid.stands fiber
  obtain ⟨before, after, hheld, -⟩ :=
    World.held_setSuspension_over hp (by rw [hstate]; rfl : p.state.run? = some run) fiber
  have hwaits : .waiting run ∈ a.tokens := by
    rw [← htokens, hheld, if_pos hfiber]
    simp
  cases a with
  | waiting run' => exact Option.map_eq_some_iff.mp hphase
  | active run' step => simp [Standing.tokens] at hwaits
  | unborn | ended _ => cases hwaits

/-- A workshop, and the alarms that have come off the clock and have not woken anybody yet. -/
structure Vigil where
  /-- The workshop. -/
  workshop : Workshop
  /-- The alarms on their way, the next one first. -/
  due : List (Alarm SuspensionId)

namespace Vigil

/-- Nothing has happened yet. -/
def init (minted : Nat) : Vigil := ⟨.init minted, []⟩

/-- The world. -/
abbrev world (v : Vigil) : World := v.workshop.world

/-- What may happen next: something in the workshop, or a pass over the clock, which takes the
alarms off it whose deadline has passed, and lets each of them wake its fiber. -/
inductive Move (budget : Nat) : Vigil → List (FiberId × Event) → Vigil → Prop where
  /-- Something happens in the workshop. -/
  | work {s s' : Workshop} {events : List (FiberId × Event)} {due : List (Alarm SuspensionId)} :
      Workshop.Move budget s events s' → Move budget ⟨s, due⟩ events ⟨s', due⟩
  /-- It is later now, and a pass over the clock begins. -/
  | collect {w : World} {running : List Slice} {now : Nat} : w.store.now ≤ now →
      Move budget ⟨⟨w, running⟩, []⟩ []
        ⟨⟨{ w with store := { w.store with alarms := (w.store.alarms.due now).2, now } }, running⟩,
          (w.store.alarms.due now).1⟩
  /-- The next alarm on its way wakes its fiber, if that still sleeps. -/
  | fire {w : World} {running : List Slice} {a : Alarm SuspensionId}
      {due : List (Alarm SuspensionId)} :
      Move budget ⟨⟨w, running⟩, a :: due⟩ []
        ⟨⟨(w.resume a.payload (.done .unit)).2, running⟩, due⟩

/-- Moves in a row, with what the fibers do in them. -/
inductive Run (budget : Nat) : Vigil → List (FiberId × Event) → Vigil → Prop where
  /-- Nothing happens. -/
  | rest {v : Vigil} : Run budget v [] v
  /-- One thing happens, then others. -/
  | move {v v' v'' : Vigil} {events record : List (FiberId × Event)} :
      Move budget v events v' → Run budget v' record v'' → Run budget v (events ++ record) v''

/-- What holds of places, channels and alarms in every state that is reached. -/
structure Sound (v : Vigil) : Prop where
  kempt : v.workshop.Kempt
  punctual : v.world.Punctual v.due

variable {budget minted : Nat} {v v' : Vigil} {events record : List (FiberId × Event)}

theorem sound_init (minted : Nat) : (init minted).Sound := by
  refine ⟨Workshop.kempt_init minted, rfl, List.nodup_nil, ?_, ?_, ?_, ?_⟩
  · exact fun a ha => by cases ha
  · exact fun a ha => by cases ha
  · exact fun a ha => by cases ha
  · rintro s key ⟨p, hp, -⟩
    simp [init, Workshop.init, World.init, World.suspension?, Numbered.get?] at hp

/-- **Whatever happens leaves a sound state.** -/
theorem Move.sound (h : Move budget v events v') (hv : v.Sound) : v'.Sound := by
  obtain ⟨⟨hvalid, hw, hrest⟩, hpunctual⟩ := hv
  cases h with
  | work hmove =>
    exact ⟨hmove.kempt ⟨hvalid, hw, hrest⟩,
      (hmove.stir ⟨hvalid, hw, hrest⟩).punctual hrest hpunctual⟩
  | @collect w running now _ =>
    have hold : ∀ a ∈ (w.store.alarms.due now).2.pending, a ∈ w.store.alarms.pending :=
      fun a ha => Alarms.due_append_pending now w.store.alarms ▸ List.mem_append_right _ ha
    have hidles := w.idles_alarms (fun a ha => Or.inl (hold a ha)) now
    exact ⟨⟨hvalid.influenced (.unrelated rfl rfl rfl), hidles.chronicles.orderly hw,
      hrest.observers, hrest.sleepers⟩, hpunctual.collect now⟩
  | @fire w running a due =>
    have hplain : w.Plain a.payload := by
      rcases hpunctual.called a List.mem_cons_self with ⟨p, hp, hsleep, -⟩ | ⟨p, hp, hsleep, -⟩ <;>
        exact ⟨p, hp, Registration.line?_of_isSleep hsleep⟩
    -- as far as others are concerned the alarm could as well have rung when it came off the clock
    have hrang := @Stir.rang { w with store := { w.store with
      alarms := { w.store.alarms with pending := a :: w.store.alarms.pending } } } a w.store.alarms
      w.store.now (.done .unit) rfl
    exact ⟨⟨hvalid.influenced (w.influences_resume _ _),
      (World.chronicles_resume hplain _).orderly hw,
      hrang.restful ⟨hrest.observers, hrest.sleepers⟩⟩, hpunctual.fire _⟩

theorem Run.sound (h : Run budget v record v') (hv : v.Sound) : v'.Sound := by
  induction h with
  | rest => exact hv
  | move hmove _ ih => exact ih (hmove.sound hv)

/-- What holds of those who sleep, and of the clock. -/
structure Watchful (v : Vigil) : Prop where
  /-- Between passes over the clock the pending alarms are those of the fibers that sleep, one
  each. -/
  matched : v.due = [] → v.world.Matched
  /-- A fiber that sleeps where interruption is allowed is woken by an interruption, and its alarm
  is taken away. -/
  interrupted {fiber : FiberId} {s : SuspensionId} : v.world.SleepsAt fiber s →
    v.world.isInterruptible s = true → ∀ source, v.world.Rises fiber s
      (.interrupt ((v.world.interrupt fiber source).store.interruptor fiber))
      (v.world.interrupt fiber source)
  /-- One that sleeps where it is not allowed goes on sleeping, and its alarm is kept. -/
  kept {fiber : FiberId} {s : SuspensionId} : v.world.SleepsAt fiber s →
    v.world.isInterruptible s = false → ∀ source,
      (v.world.interrupt fiber source).SleepsAt fiber s ∧
        (v.world.interrupt fiber source).store.alarms = v.world.store.alarms
  /-- An alarm on its way wakes a fiber that still sleeps, and no alarm is left for it. -/
  woken {a : Alarm SuspensionId} {due : List (Alarm SuspensionId)} {fiber : FiberId} :
    v.due = a :: due → v.world.SleepsAt fiber a.payload →
      v.world.Rises fiber a.payload (.value .unit) (v.world.resume a.payload (.done .unit)).2
  /-- Nothing is pending when all fibers have finished. -/
  quiet : (∀ fiber r, v.world.store.fiber? fiber = some r → r.finished = true) →
    v.world.store.alarms.pending = []

/-- **No alarm is left over, and none is missing**, whatever fibers do, whoever is asked to stop,
and whenever the time passes. -/
theorem Run.watches_over_sleepers (h : Run budget (init minted) record v) : v.Watchful := by
  obtain ⟨⟨hvalid, hw, hrest⟩, hpunctual⟩ := h.sound (sound_init minted)
  refine ⟨fun hdue => ?_, fun hsleeps hallowed source => ?_, fun hsleeps hfalse source => ?_,
    fun hdue hsleeps => ?_, fun hfinished => ?_⟩
  · rw [hdue] at hpunctual
    exact hpunctual.matched hw hrest
  · exact hpunctual.interrupted hw hrest hsleeps hallowed source
  · exact hsleeps.kept hw hfalse source
  · rw [hdue] at hpunctual
    exact hpunctual.woken hw hrest hsleeps (.done .unit)
  · refine List.eq_nil_iff_forall_not_mem.mpr fun a ha => ?_
    obtain ⟨fiber, hsleeps⟩ := (hpunctual.wakes a ha).sleepsAt
    obtain ⟨r, hr, hgoing⟩ := hvalid.going_of_sleepsAt hsleeps
    rw [hfinished fiber r hr] at hgoing
    cases hgoing

/-! ### A limit on the time -/

theorem Run.append {v'' : Vigil} {record' : List (FiberId × Event)} (h : Run budget v record v')
    (h' : Run budget v' record' v'') : Run budget v (record ++ record') v'' := by
  induction h with
  | rest => exact h'
  | move hmove _ ih =>
    rw [List.append_assoc]
    exact .move hmove (ih h')

/-- What happens in a workshop may happen at any time. -/
theorem Run.work {s s' : Workshop} (h : Workshop.Run budget s record s')
    (due : List (Alarm SuspensionId)) : Run budget ⟨s, due⟩ record ⟨s', due⟩ := by
  induction h with
  | rest => exact .rest
  | move hmove _ ih => exact .move (.work hmove) ih

/-- A fiber is started that wants to sleep, and is not given the time, and makes some moves. -/
def limited (n : Nat) : Machine :=
  (Machine.startRoot (.init 16 0) (Effect.timeout 5 (Effect.sleep 10) : Effect ⟨"E"⟩) .unit
    none).2.moves none n

/-- The alarm that limits the time. -/
def limit : Alarm SuspensionId := ⟨5, 1, ⟨2⟩⟩

/-- The time is up, and the alarm is on its way. -/
def expired : World :=
  let w := (limited 18).world
  { w with store := { w.store with alarms := (w.store.alarms.due 5).2, now := 5 } }

/-- The alarm has woken its fiber, and some moves. -/
def released (n : Nat) : Machine :=
  Machine.moves none n { budget := 16, world := (expired.resume limit.payload (.done .unit)).2 }

/-- Two fibers sleep for a while, and in the end nobody does. -/
theorem Run.watches_over_sleepers_limited :
    ∃ v v' record record', Run 16 (init 0) record v ∧ Run 16 v record' v' ∧
      v.Watchful ∧ v.due = [] ∧ v.world.store.alarms.pending.length = 2 ∧
      v'.Watchful ∧ v'.due = [] ∧ v'.world.store.alarms.pending.length = 0 := by
  have hlimited : Workshop.Run 16 (.init 0) ((limited 0).record none 18) (limited 18).workshop :=
    .idle (.start _ .unit none) (Machine.moves_run none 18 (limited 0))
  have hidle : (limited 18).workshop = ⟨(limited 18).world, []⟩ := by
    have hnone : (limited 18).running = none := Option.isNone_iff_eq_none.mp (by decide +kernel)
    rw [Machine.workshop, hnone]
    rfl
  -- a pass over the clock takes one of the two alarms off it, and wakes its fiber
  have hdue : ((limited 18).world.store.alarms.due 5).1 = [limit] := by decide +kernel
  have hcollect : Move 16 ⟨⟨(limited 18).world, []⟩, []⟩ [] ⟨⟨expired, []⟩, [limit]⟩ :=
    hdue ▸ @Move.collect 16 (limited 18).world [] 5 (by decide +kernel)
  have hfire : Move 16 ⟨⟨expired, []⟩, [limit]⟩ [] ⟨(released 0).workshop, []⟩ := .fire
  have hlater := Run.move hcollect <| .move hfire <|
    Run.work (Machine.moves_run none 40 (released 0)) []
  rw [← hidle] at hlater
  have hsleep : Run 16 (init 0) _ ⟨(limited 18).workshop, []⟩ := Run.work hlimited []
  exact ⟨_, _, _, _, hsleep, hlater, hsleep.watches_over_sleepers, rfl, by decide +kernel,
    (hsleep.append hlater).watches_over_sleepers, rfl, by decide +kernel⟩

end Vigil

end Fibers
