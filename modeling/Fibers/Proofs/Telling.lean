import Fibers.Proofs.Recording
import Fibers.Proofs.Workshop

/-!
# Every run has a chronicle

Whatever an action does, the registration of a wait, a request for interruption and the news that
a fiber has finished are told by chronicles, and so is every plan of a fiber, every move and
every run of a workshop.

## Main results

* `Action.chronicles_run` — whatever an action does.
* `World.chronicles_interrupt` — a request for interruption.
* `World.chronicles_park` — a wait.
* `World.chronicles_complete` — the end of a fiber.
* `World.chronicles_carryOut` — every plan.
* `Workshop.Run.exists_chronicle` — **every run has a chronicle.**
-/

namespace Fibers

namespace World

variable {w w' : World}

/-! ### Actions -/

theorem chronicles_perform (hw : w.Orderly) (op : Operation) :
    w.Chronicles (w.perform op).2 := by
  cases op with
  | newChannel capacity =>
    simp only [perform, Channel.new]
    by_cases hzero : capacity = some 0
    · rw [if_pos hzero]
      exact .refl w
    · rw [if_neg hzero]
      exact ⟨_, .made hzero⟩
  | drain channel limit => exact chronicles_drain hw channel limit
  | close channel source => exact chronicles_close w channel source
  | complete waiter outcome =>
    simp only [perform, answer]
    split
    · next hopen =>
      obtain ⟨p, hp, hcallback⟩ := (Option.any_eq_true ..).mp hopen
      refine chronicles_resume ⟨p, hp, ?_⟩ outcome
      cases hregistration : p.registration <;> rw [hregistration] at hcallback <;>
        first | rfl | cases hcallback
    · exact .refl w
  | observe => exact .refl w
  | log _ | newCell _ | writeCell _ _ | keep _ _ | newMark | useMark _ | newLease _ =>
    exact .unrelated rfl rfl rfl rfl

end World

/-- **Whatever an action does is told by a chronicle.** -/
theorem Action.chronicles_run {α : Type} (a : Action α) {w : World} (hw : w.Orderly) :
    w.Chronicles (a.run w).2 := by
  induction a generalizing w with
  | done a => exact .refl w
  | panic d => exact .refl w
  | perform op next ih =>
    have hop := World.chronicles_perform hw op
    exact hop.trans (ih _ (hop.orderly hw))

namespace World

variable {w w' : World}

theorem Chronicles.preserves (h : w.Chronicles w') : w.Preserves w' := by
  obtain ⟨deeds, h⟩ := h
  exact h.preserves

theorem Chronicles.plain {s : SuspensionId} (h : w.Chronicles w') (hs : w.Plain s) : w'.Plain s :=
  hs.preserved h.preserves

/-! ### Interruption -/

theorem idles_alarms (w : World) {alarms : Alarms SuspensionId}
    (h : ∀ a ∈ alarms.pending, a ∈ w.store.alarms.pending ∨ w.Plain a.payload) (now : Nat) :
    w.Idles { w with store := { w.store with alarms, now } } where
  suspensions := rfl
  channels := rfl
  old hr := ⟨_, hr, rfl, rfl⟩
  new hnone hr := by
    rw [show w.store.fiber? _ = some _ from hr] at hnone
    cases hnone
  files hs := by
    cases hs with
    | alarm hmem heq =>
      rcases h _ hmem with hold | hplain
      · exact Or.inl (.alarm hold heq)
      · exact Or.inr (heq ▸ hplain)
    | observer hr ho hwaiter => exact Or.inl (.observer hr ho hwaiter)

theorem chronicles_cancel (hw : w.Orderly) {onInterrupt : Canceler} (hstays : onInterrupt.Stays) :
    w.Chronicles (w.cancel onInterrupt) := by
  cases onInterrupt with
  | nothing => exact .refl w
  | alarm key =>
    exact (w.idles_alarms (fun _ ha => Or.inl (Alarms.mem_cancel.mp ha).1) w.store.now).chronicles
  | leave c line ticket => exact absurd rfl (hstays c line ticket)
  | action a => exact a.chronicles_run hw

/-- The wait of a parked fiber is interrupted, and what is to be done then is done. -/
theorem exists_interrupted (hw : w.Orderly) {s : SuspensionId} {place : Suspension}
    {run : RunState} {onInterrupt : Canceler} (hplace : w.suspension? s = some place)
    (hstate : place.state = .waiting run onInterrupt) (source : FiberId) :
    ∃ deeds, Chronicle w (.interrupted s source :: .cancelled s :: deeds)
      (((w.setSuspension s .over).cancel onInterrupt).schedule place.fiber run
        (.interrupt source)) := by
  by_cases hstays : onInterrupt.Stays
  · have hover : (w.setSuspension s .over).Orderly :=
      hw.vacate hplace rfl (hw.out_of_waiting hplace hstate hstays)
    obtain ⟨deeds, hcancel⟩ := chronicles_cancel hover hstays
    exact ⟨_, .interrupted source hplace hstate hstays hcancel⟩
  · -- it stands in a line, and leaves it
    simp only [Canceler.Stays, not_forall, ne_eq, not_not] at hstays
    obtain ⟨c, line, ticket, rfl⟩ := hstays
    obtain ⟨ch, hch, -⟩ := hw.leaves hplace hstate
    have hcancel : (w.setSuspension s .over).cancel (.leave c line ticket) =
        (w.setSuspension s .over).setChannel c (ch.leave line ticket) := by
      have hch' : (w.setSuspension s .over).store.channel? c = some ch := hch
      simp only [cancel, hch']
      rfl
    rw [hcancel]
    exact ⟨_, .left source hplace hstate hch⟩

/-- The wait of a fiber is interrupted if it is parked. -/
theorem chronicles_interruptAt (hw : w.Orderly) {fiber : FiberId} {s : SuspensionId}
    {place : Suspension} (hplace : w.suspension? s = some place) (hfiber : place.fiber = fiber)
    (source : FiberId) : w.Chronicles (w.interruptAt fiber s source) := by
  subst hfiber
  unfold interruptAt
  rw [hplace, Option.map_some]
  cases hstate : place.state with
  | waiting run onInterrupt =>
    obtain ⟨deeds, h⟩ := exists_interrupted hw hplace hstate source
    exact ⟨_, h⟩
  | _ => exact .refl w

theorem idles_recordInterruptor (w : World) (target source : FiberId) :
    w.Idles (w.recordInterruptor target source) := by
  refine .modifyFiber w target (fun r => ?_) (fun r => ?_) fun r _ o ho => Or.inl ?_
  · split <;> rfl
  · split <;> rfl
  · split at ho <;> exact ho

/-- **A request for interruption is told by a chronicle.** -/
theorem chronicles_interrupt (hw : w.Orderly) (target source : FiberId) :
    w.Chronicles (w.interrupt target source) := by
  have hrecord := (w.idles_recordInterruptor target source).chronicles
  have hw' := hrecord.orderly hw
  simp only [interrupt]
  split
  · exact hrecord
  · next s hs =>
    split
    · -- the place known of the fiber is its own
      obtain ⟨r, hr, hsusp⟩ := Option.bind_eq_some_iff.mp hs
      obtain ⟨place, hplace, hfiber⟩ := hw'.owner hr hsusp
      exact hrecord.trans (chronicles_interruptAt hw' hplace hfiber _)
    · exact hrecord

theorem chronicles_interruptUnfinished (hw : w.Orderly) (fibers : List FiberId)
    (source : FiberId) : w.Chronicles (w.interruptUnfinished fibers source) := by
  unfold interruptUnfinished
  induction fibers generalizing w with
  | nil => exact .refl w
  | cons f fibers ih =>
    have hone : w.Chronicles (if w.store.isFinished f then w else w.interrupt f source) := by
      split
      · exact .refl w
      · exact chronicles_interrupt hw f source
    exact hone.trans (ih (hone.orderly hw))

/-! ### News of a fiber that has finished -/

theorem idles_takeExit (w : World) (fiber : FiberId) : w.Idles (w.takeExit fiber).2 := by
  unfold takeExit
  split
  · exact .modifyFiber w fiber (fun _ => rfl) (fun _ => rfl) fun _ _ _ ho => Or.inl ho
  · exact .refl w

theorem idles_restoreExit (w : World) (fiber : FiberId) (outcome : Outcome) :
    w.Idles (w.restoreExit fiber outcome) :=
  .modifyFiber w fiber (fun _ => rfl) (fun _ => rfl) fun _ _ _ ho => Or.inl ho

/-- Telling an observer whose wait does not end at a channel. -/
theorem chronicles_notify (w : World) (fiber : FiberId) {observer : Observer}
    (h : ∀ s, observer.waiter? = some s → w.Plain s) : w.Chronicles (w.notify fiber observer) := by
  have htake := (w.idles_takeExit fiber).chronicles
  cases observer with
  | report type => exact htake.trans (.unrelated rfl rfl rfl rfl)
  | exitTo waiter type =>
    unfold notify
    simp only
    have hresume := chronicles_resume (htake.plain (h waiter rfl))
      (.done (.exit ((w.takeExit fiber).1.untag type)))
    split
    · next w' heq =>
      rw [heq] at hresume
      exact htake.trans hresume
    · next w' heq =>
      rw [heq] at hresume
      exact (htake.trans hresume).trans (idles_restoreExit _ _ _).chronicles
  | firstDone waiter left => exact chronicles_resume (h waiter rfl) _
  | firstFailure waiter children position =>
    unfold notify
    simp only
    split
    · exact chronicles_resume (h waiter rfl) _
    · exact .refl w

theorem chronicles_observe (w : World) (fiber : FiberId) {observer : Observer}
    (h : ∀ s, observer.waiter? = some s → w.Plain s) :
    w.Chronicles (w.observe fiber observer) := by
  unfold observe
  split
  · exact w.chronicles_notify fiber h
  · have hidle : w.Idles (w.modifyFiber fiber fun f =>
        { f with observers := f.observers ++ [observer] }) := by
      refine .modifyFiber w fiber (fun _ => rfl) (fun _ => rfl) fun r _ o ho => ?_
      rcases List.mem_append.mp ho with hold | hnew
      · exact Or.inl hold
      · rw [List.mem_singleton.mp hnew]
        exact Or.inr h
    exact hidle.chronicles

theorem chronicles_observeChildren (w : World) {waiter : SuspensionId} (hwaiter : w.Plain waiter)
    (children : List FiberId) : w.Chronicles (w.observeChildren waiter children) := by
  unfold observeChildren
  generalize children.zipIdx = positions
  induction positions generalizing w with
  | nil => exact .refl w
  | cons c positions ih =>
    have hone : w.Chronicles (w.observe c.1 (.firstFailure waiter children c.2)) := by
      refine w.chronicles_observe c.1 fun s hs => ?_
      obtain rfl := Option.some.inj hs
      exact hwaiter
    exact hone.trans (ih _ (hone.plain hwaiter))

theorem chronicles_notifyAll (w : World) (fiber : FiberId) {observers : List Observer}
    (h : ∀ o ∈ observers, ∀ s, o.waiter? = some s → w.Plain s) :
    w.Chronicles (observers.foldl (fun w observer => w.notify fiber observer) w) := by
  induction observers generalizing w with
  | nil => exact .refl w
  | cons o observers ih =>
    have hone := w.chronicles_notify fiber (h o List.mem_cons_self)
    refine hone.trans (ih _ fun o' ho' s hs => ?_)
    exact hone.plain (h o' (List.mem_cons_of_mem _ ho') s hs)

/-! ### Registration -/

/-- A wait is registered: what has happened is told, and what is to be done on interruption fits
the place. -/
structure Enrolls (w : World) (s : SuspensionId) (result : Except Defect Canceler × World) :
    Prop where
  chronicles : w.Chronicles result.2
  fits : ∀ {onInterrupt}, result.1 = .ok onInterrupt → result.2.Fits s onInterrupt

/-- A place that stands in no line and is not going to leave one. -/
theorem fits_of_out {s : SuspensionId} {onInterrupt : Canceler} (hstays : onInterrupt.Stays)
    (hout : ∀ {c ch e}, w.store.channel? c = some ch → e ∈ ch.entries → e.place ≠ s) :
    w.Fits s onInterrupt where
  stands hch he heq := absurd heq (hout hch he)
  leaves heq := absurd heq (hstays _ _ _)

/-- A place that stands in a line is going to leave it. -/
theorem Orderly.fits_of_entry (hw : w.Orderly) {s : SuspensionId} {c : ChannelId}
    {ch : Channel Value SuspensionId} {line : Line} {ticket : Nat}
    (hch : w.store.channel? c = some ch) (hmem : ⟨line, ticket, s⟩ ∈ ch.entries) :
    w.Fits s (.leave c line ticket) where
  stands {c' ch' e} hc' he heq := by
    obtain ⟨p, hp, hline, -⟩ := hw.lines hch hmem
    obtain ⟨p', hp', hline', -⟩ := hw.lines hc' he
    rw [heq] at hp'
    obtain rfl := Option.some.inj (hp.symm.trans hp')
    rw [hline, Option.some.injEq, Prod.mk.injEq] at hline'
    obtain ⟨rfl, -⟩ := hline'
    obtain rfl := Option.some.inj (hch.symm.trans hc')
    -- everyone stands in a line once
    have hsame := List.inj_on_of_nodup_map (hw.channels hch).places hmem he heq.symm
    rw [← hsame]
  leaves {c' line' ticket'} heq := by
    obtain ⟨rfl, rfl, rfl⟩ := Canceler.leave.inj heq
    exact ⟨ch, hch, hmem⟩

/-- A wait that does not end at a channel. -/
theorem enrolls_of_plain (hw : w.Orderly) {s : SuspensionId} (hs : w.Plain s)
    {result : Except Defect Canceler × World} (h : w.Chronicles result.2)
    (hstays : ∀ {onInterrupt}, result.1 = .ok onInterrupt → onInterrupt.Stays) :
    w.Enrolls s result where
  chronicles := h
  fits heq := fits_of_out (hstays heq) ((h.orderly hw).out_of_plain (h.plain hs))

/-- A wait that ends at a channel. -/
theorem enrolls_of_registers (hw : w.Orderly) {c : ChannelId} {ch : Channel Value SuspensionId}
    (hch : w.store.channel? c = some ch) {request : Request Value SuspensionId}
    (hasks : w.Asks c ch request) {s : SuspensionId} {result : Canceler × World}
    (h : Registers w c ch request s result) : w.Enrolls s (.ok result.1, result.2) := by
  have htold : w.Chronicles result.2 := by
    rw [h.world]
    exact ⟨_, .asked hch hasks⟩
  have hw' := htold.orderly hw
  have hch' : result.2.store.channel? c = some (ch.serve request).2 := by
    rw [h.world, channel?_ask hch, if_pos rfl]
  have hdisjoint := hasks.served.told (hw.channels hch) fun s hs => hasks.fresh hs
  refine ⟨htold, fun {onInterrupt} heq => ?_⟩
  obtain rfl := Except.ok.inj heq
  rcases h.waits with ⟨hnothing, hmem⟩ | ⟨ticket, hleave, hmem⟩
  · -- who has been told something stands in no line
    rw [hnothing]
    refine fits_of_out (by intro c line ticket heq; cases heq) fun {c' ch' e} hc' he heq => ?_
    obtain ⟨p, line, hp, hregistration, -⟩ := hw.of_told hch hasks hmem
    obtain ⟨state, hp'⟩ := htold.preserves.place hp
    obtain ⟨p', hp'', hline', -⟩ := hw'.lines hc' he
    rw [heq] at hp''
    obtain rfl := Option.some.inj (hp'.symm.trans hp'')
    simp only [hregistration, Option.some.injEq, Prod.mk.injEq] at hline'
    obtain ⟨rfl, -⟩ := hline'
    obtain rfl := Option.some.inj (hch'.symm.trans hc')
    have hnot := (List.nodup_append.mp hdisjoint).2.2 _ hmem _ (List.mem_map_of_mem he)
    exact hnot heq.symm
  · rw [hleave]
    exact hw'.fits_of_entry hch' hmem

/-- Somebody who is about to wait asks for the end of the wait. -/
theorem asks_of_registering {s : SuspensionId} {p : Suspension} (hp : w.suspension? s = some p)
    (hstate : p.state = .registering) {c : ChannelId} {ch : Channel Value SuspensionId}
    (hfresh : s ∉ ch.entries.map Entry.place) {request : Request Value SuspensionId}
    (hasker : request.asker? = some s)
    (hregistration : request.registration? c = some p.registration) : w.Asks c ch request where
  stays line ticket t := by
    rintro rfl
    cases hasker
  asker hs := by
    obtain rfl := Option.some.inj (hasker.symm.trans hs)
    exact ⟨p, hp, hstate, hregistration⟩
  fresh hs := by
    obtain rfl := Option.some.inj (hasker.symm.trans hs)
    exact hfresh

/-- **The registration of a wait is told by a chronicle.** -/
theorem enrolls_register (hw : w.Orderly) {s : SuspensionId} {p : Suspension}
    (hp : w.suspension? s = some p) (hstate : p.state = .registering)
    (hout : ∀ {c ch e}, w.store.channel? c = some ch → e ∈ ch.entries → e.place ≠ s) :
    w.Enrolls s (w.register s p.registration) := by
  have hplain : p.registration.line? = none → w.Plain s := fun hline => ⟨p, hp, hline⟩
  have hnothing : Canceler.nothing.Stays := by
    intro c line ticket heq
    cases heq
  -- at a channel that has not been made nothing happens
  have hnone : w.Enrolls s (.ok .nothing, w) :=
    ⟨.refl w, fun heq => Except.ok.inj heq ▸ fits_of_out hnothing hout⟩
  have hfresh : ∀ {c ch}, w.store.channel? c = some ch → s ∉ ch.entries.map Entry.place := by
    intro c ch hch hmem
    obtain ⟨e, he, heq⟩ := List.mem_map.mp hmem
    exact hout hch he heq
  have hasks := fun {c ch} (hch : w.store.channel? c = some ch) =>
    @asks_of_registering w s p hp hstate c ch (hfresh hch)
  cases hregistration : p.registration with
  | callback f =>
    rw [hregistration] at hplain
    have hrun := (f s).chronicles_run hw
    refine enrolls_of_plain hw (hplain rfl) ?_ fun {onInterrupt} heq => ?_
    · simp only [register]
      split
      · next onInterrupt w' heq => rwa [heq] at hrun
      · next d w' heq => rwa [heq] at hrun
    · simp only [register] at heq
      split at heq
      · obtain rfl := Except.ok.inj heq
        intro c line ticket heq
        cases heq
      · cases heq
  | sleep millis =>
    rw [hregistration] at hplain
    refine enrolls_of_plain hw (hplain rfl) ?_ fun {onInterrupt} heq => ?_
    · refine (w.idles_alarms (fun a ha => ?_) w.store.now).chronicles
      rcases Alarms.of_mem_schedule ha with rfl | hold
      · exact Or.inr (hplain rfl)
      · exact Or.inl hold
    · obtain rfl := Except.ok.inj heq
      intro c line ticket heq
      cases heq
  | awaitExit fiber type =>
    rw [hregistration] at hplain
    refine enrolls_of_plain hw (hplain rfl) ?_ fun heq => Except.ok.inj heq ▸ hnothing
    exact w.chronicles_observe fiber fun t ht => Option.some.inj ht ▸ hplain rfl
  | firstDone left right =>
    rw [hregistration] at hplain
    refine enrolls_of_plain hw (hplain rfl) ?_ fun heq => Except.ok.inj heq ▸ hnothing
    have hleft : w.Chronicles (w.observe left (.firstDone s true)) :=
      w.chronicles_observe left fun t ht => Option.some.inj ht ▸ hplain rfl
    exact hleft.trans (chronicles_observe _ right fun t ht =>
      Option.some.inj ht ▸ hleft.plain (hplain rfl))
  | firstFailure children =>
    rw [hregistration] at hplain
    refine enrolls_of_plain hw (hplain rfl) ?_ fun heq => Except.ok.inj heq ▸ hnothing
    exact w.chronicles_observeChildren (hplain rfl) children
  | offer c v =>
    rw [hregistration] at hasks
    cases hch : w.store.channel? c with
    | none => simpa [register, registerOffer, hch] using hnone
    | some ch =>
      exact enrolls_of_registers hw hch (hasks hch rfl rfl) (registerOffer_registers hw hch v s)
  | take c =>
    rw [hregistration] at hasks
    cases hch : w.store.channel? c with
    | none => simpa [register, registerTake, hch] using hnone
    | some ch =>
      exact enrolls_of_registers hw hch (hasks hch rfl rfl) (registerTake_registers hw hch s)
  | awaitClose c =>
    rw [hregistration] at hasks
    cases hch : w.store.channel? c with
    | none => simpa [register, registerClose, hch] using hnone
    | some ch =>
      exact enrolls_of_registers hw hch (hasks hch rfl rfl) (registerClose_registers hch s)

/-- Only code of the program can panic while a wait is registered. -/
theorem line?_of_register_error {s : SuspensionId} {registration : Registration} {d : Defect}
    (h : (w.register s registration).1 = .error d) : registration.line? = none := by
  cases registration with
  | offer c v | take c | awaitClose c => cases h
  | callback _ | sleep _ | awaitExit _ _ | firstDone _ _ | firstFailure _ => rfl

/-! ### Parking -/

/-- A fiber of which the world holds nothing is parked nowhere. -/
theorem InHand.absent {fiber : FiberId} (h : w.InHand fiber) : w.Absent fiber := by
  intro s p hp hfiber
  obtain ⟨before, after, hparked, -⟩ := parked_setSuspension hp .over fiber
  obtain ⟨-, hnil⟩ := List.append_eq_nil_iff.mp h.held
  rw [hparked, List.append_eq_nil_iff, List.append_eq_nil_iff] at hnil
  have hheld := hnil.1.2
  rw [Suspension.held, if_pos hfiber] at hheld
  cases hrun : p.state.run? with
  | none => rfl
  | some run => simp [hrun] at hheld

/-- A fiber is parked at its place. -/
theorem chronicles_parkAt (hw : w.Orderly) {s : SuspensionId} {place : Suspension}
    {r : FiberRecord} (hplace : w.suspension? s = some place) (hstate : place.state = .registering)
    (hr : w.store.fiber? place.fiber = some r) (hs : r.suspension = some s) (run : RunState)
    {onInterrupt : Canceler} (hfits : w.Fits s onInterrupt) :
    w.Chronicles (w.parkAt place.fiber s run onInterrupt) := by
  have hpark : w.Chronicles (w.setSuspension s (.waiting run onInterrupt)) :=
    ⟨_, .parked run hplace hstate hr hs hfits⟩
  have hplace' : (w.setSuspension s (.waiting run onInterrupt)).suspension? s =
      some { place with state := .waiting run onInterrupt } := by
    rw [suspension?_setSuspension, if_pos rfl, hplace, Option.map_some]
  simp only [parkAt]
  split
  · exact hpark.trans (chronicles_interruptAt (hpark.orderly hw) hplace' rfl _)
  · exact hpark

/-- A place has been made for a fiber, and the wait at it has been registered. -/
structure Registered (w : World) (fiber : FiberId) (allowed : Bool) (registration : Registration)
    (s : SuspensionId) (result : Except Defect Canceler × World) : Prop where
  chronicles : w.Chronicles result.2
  place : ∃ state, result.2.suspension? s = some ⟨fiber, allowed, registration, state⟩ ∧
    state.run? = none
  recorded : ∃ r, result.2.store.fiber? fiber = some r ∧ r.suspension = some s
  fits : ∀ {onInterrupt}, result.1 = .ok onInterrupt → result.2.Fits s onInterrupt

/-- A new place stands in no line. -/
theorem Orderly.out_of_next (hw : w.Orderly) (fiber : FiberId) (allowed : Bool)
    (registration : Registration) {c : ChannelId} {ch : Channel Value SuspensionId}
    {e : Entry SuspensionId}
    (hch : (w.newSuspension fiber allowed registration).2.store.channel? c = some ch)
    (he : e ∈ ch.entries) : e.place ≠ (w.newSuspension fiber allowed registration).1 := by
  intro heq
  obtain ⟨p, hp, -⟩ := hw.lines hch he
  rw [heq, suspension?_next] at hp
  cases hp

/-- **The registration of a wait at a new place.** -/
theorem registered_newSuspension (hw : w.Orderly) {fiber : FiberId} (hin : w.InHand fiber)
    (allowed : Bool) (registration : Registration) {s : SuspensionId} {w₁ : World}
    (hnew : w.newSuspension fiber allowed registration = (s, w₁)) :
    Registered w fiber allowed registration s (w₁.register s registration) := by
  obtain rfl : (w.newSuspension fiber allowed registration).1 = s := by rw [hnew]
  obtain rfl : (w.newSuspension fiber allowed registration).2 = w₁ := by rw [hnew]
  have hopened : w.Chronicles (w.newSuspension fiber allowed registration).2 :=
    ⟨_, .opened fiber allowed registration hin.absent⟩
  have hplace : (w.newSuspension fiber allowed registration).2.suspension?
      (w.newSuspension fiber allowed registration).1 =
        some ⟨fiber, allowed, registration, .registering⟩ := by
    rw [suspension?_newSuspension, if_pos rfl]
  have hrecord : ∃ r, (w.newSuspension fiber allowed registration).2.store.fiber? fiber = some r ∧
      r.suspension = some (w.newSuspension fiber allowed registration).1 := by
    have hphase := hin.phase
    cases hr : w.store.fiber? fiber with
    | none => simp [phase, hr] at hphase
    | some r =>
      refine ⟨{ r with suspension := some (w.newSuspension fiber allowed registration).1 }, ?_, rfl⟩
      simp only [newSuspension, modifyFiber, Store.fiber?_modifyFiber, if_pos, hr, Option.map_some]
  have henrolls := enrolls_register (hopened.orderly hw) hplace rfl
    fun hch he => hw.out_of_next fiber allowed registration hch he
  obtain ⟨events, hinfluence⟩ := influences_register (w.newSuspension fiber allowed registration).2
    (w.newSuspension fiber allowed registration).1 registration
  refine ⟨hopened.trans henrolls.chronicles, ?_, ?_, henrolls.fits⟩
  · obtain ⟨p, hp, hkeeps⟩ := hinfluence.place hplace
    obtain ⟨state, hp'⟩ := henrolls.chronicles.preserves.place hplace
    obtain rfl := Option.some.inj (hp'.symm.trans hp)
    refine ⟨state, hp', ?_⟩
    -- while a wait is registered nobody is parked at the place
    rcases hkeeps.state with heq | hnone
    · exact (congrArg SuspensionState.run? heq).trans rfl
    · exact hnone
  · obtain ⟨r, hr, hs⟩ := hrecord
    obtain ⟨r', hr', hgrows⟩ := hinfluence.grows.record hr
    exact ⟨r', hr', hgrows.suspension.trans hs⟩

/-- **A wait is told by a chronicle.** -/
theorem chronicles_park (hw : w.Orderly) {fiber : FiberId} (hin : w.InHand fiber) (run : RunState)
    (registration : Registration) : w.Chronicles (w.park fiber run registration).2 := by
  simp only [park]
  generalize hnew : w.newSuspension fiber run.interruptible registration = new
  obtain ⟨s, w₁⟩ := new
  obtain ⟨htold, ⟨state, hp, hvacant⟩, ⟨r, hr, hs⟩, hfits⟩ :=
    registered_newSuspension hw hin run.interruptible registration hnew
  have herror := fun {d} => @line?_of_register_error w₁ s registration d
  simp only at htold hfits herror ⊢
  generalize w₁.register s registration = registered at hp htold hr hfits herror
  obtain ⟨result, w₂⟩ := registered
  simp only at hp htold hr hfits herror ⊢
  have hover : (state = .registering → registration.line? = none) →
      w.Chronicles (w₂.setSuspension s .over) := fun hplain =>
    htold.trans ⟨_, .vacated hp hvacant hplain⟩
  cases result with
  | error d => exact hover fun _ => herror rfl
  | ok onInterrupt =>
    rw [hp, Option.map_some]
    cases state with
    | registering => exact htold.trans (chronicles_parkAt (htold.orderly hw) hp rfl hr hs run (hfits rfl))
    | waiting run' onInterrupt' => cases hvacant
    | _ => exact hover fun heq => by cases heq

/-! ### The end of a fiber -/

/-- **The end of a fiber is told by a chronicle.** -/
theorem chronicles_complete (hw : w.Orderly) (hsound : w.Sound) {fiber : FiberId}
    (hin : w.InHand fiber) (outcome : Outcome) : w.Chronicles (w.complete fiber outcome) := by
  cases hr : w.store.fiber? fiber with
  | none =>
    have hphase := hin.phase
    simp [phase, hr] at hphase
  | some record =>
    -- the children are interrupted before the end is put down
    have hidle : w.Idles (w.modifyFiber fiber fun f => { f with children := [] }) :=
      .modifyFiber w fiber (fun _ => rfl) (fun _ => rfl) fun _ _ _ ho => Or.inl ho
    have hchildren := hidle.chronicles
    have hinfluence : w.Influences (w.modifyFiber fiber fun f => { f with children := [] }) :=
      .modifyFiber w fiber fun _ => ⟨rfl, List.prefix_refl _, rfl, List.prefix_refl _⟩
    have hbefore := hchildren.trans
      (chronicles_interruptUnfinished (hchildren.orderly hw) record.children fiber)
    obtain ⟨events, hcarries⟩ := (hinfluence.trans
      (influences_interruptUnfinished (hinfluence.sound hsound) record.children fiber)).carries
    obtain ⟨hin', -⟩ := hcarries.inHand hin
    have hw' := hbefore.orderly hw
    simp only [complete, hr]
    generalize (w.modifyFiber fiber fun f => { f with children := [] }).interruptUnfinished
      record.children fiber = w₁ at hbefore hin' hw'
    have hfinish : w₁.Chronicles (w₁.finish fiber outcome) :=
      ⟨_, .finished outcome hin'.phase hin'.absent⟩
    refine (hbefore.trans hfinish).trans (chronicles_notifyAll _ fiber fun o ho s hs => ?_)
    -- whom the observers wake was filed before the end
    cases hr₁ : w₁.store.fiber? fiber with
    | none => simp [hr₁] at ho
    | some r =>
      rw [hr₁, Option.map_some, Option.getD_some] at ho
      exact hfinish.plain (hw'.filed (.observer hr₁ ho hs))

/-! ### New fibers -/

/-- A fiber is created. -/
theorem idles_push (w : World) {r : FiberRecord} (hfinished : r.finished = false)
    (hsuspension : r.suspension = none) (hobservers : ∀ o ∈ r.observers, o.waiter? = none) :
    w.Idles { w with store := { w.store with fibers := w.store.fibers.push r } } where
  suspensions := rfl
  channels := rfl
  old {fiber r'} hr' := by
    have hne : fiber ≠ w.store.nextFiber := by
      rintro rfl
      rw [show w.store.fiber? w.store.nextFiber = none from Numbered.get?_next _] at hr'
      cases hr'
    exact ⟨r', by rw [Store.fiber?_push, if_neg hne, hr'], rfl, rfl⟩
  new {fiber r'} hnone hr' := by
    rw [Store.fiber?_push] at hr'
    split at hr'
    · obtain rfl := Option.some.inj hr'
      exact ⟨hfinished, hsuspension⟩
    · rw [hnone] at hr'
      cases hr'
  files {s} hs := by
    cases hs with
    | alarm hmem heq => exact Or.inl (.alarm hmem heq)
    | @observer fiber r' o hr' ho hwaiter =>
      rw [Store.fiber?_push] at hr'
      split at hr'
      · obtain rfl := Option.some.inj hr'
        rw [hobservers o ho] at hwaiter
        cases hwaiter
      · exact Or.inl (.observer hr' ho hwaiter)

theorem chronicles_schedule (w : World) (fiber : FiberId) (run : RunState) (step : Step) :
    w.Chronicles (w.schedule fiber run step) := (w.idles_schedule fiber run step).chronicles

theorem idles_addChild (w : World) (parent child : FiberId) : w.Idles (w.addChild parent child) :=
  .modifyFiber _ _ (fun _ => rfl) (fun _ => rfl) fun _ _ _ ho => Or.inl ho

theorem chronicles_fork (w : World) (parent : FiberId) (run : RunState) (child : Instruction)
    (daemon : Bool) : w.Chronicles (w.fork parent run child daemon).2 := by
  have hpush : w.Chronicles { w with store := { w.store with fibers := w.store.fibers.push {} } } :=
    (w.idles_push rfl rfl (by simp)).chronicles
  cases daemon with
  | true => exact hpush.trans (chronicles_schedule _ _ _ _)
  | false =>
    refine (hpush.trans ?_).trans (chronicles_schedule _ _ _ _)
    exact (idles_addChild { w with store := { w.store with fibers := w.store.fibers.push {} } }
      parent _).chronicles

theorem chronicles_startRoot (budget : Nat) (w : World) (effect : Instruction)
    (environment : Value) (report : Option ErrorType) :
    w.Chronicles (Machine.startRoot { budget, world := w } effect environment report).2.world := by
  refine (w.idles_push rfl rfl ?_).chronicles.trans (chronicles_schedule _ _ _ _)
  intro o ho
  obtain ⟨type, -, rfl⟩ := List.mem_map.mp (Option.toList_map .. ▸ ho)
  rfl

/-! ### Plans -/

theorem chronicles_attemptUpdate (hw : w.Orderly) (cell : CellId)
    (f : Value → Action (Update Value)) : w.Chronicles (w.attemptUpdate cell f).2 := by
  unfold attemptUpdate
  split
  · exact .refl w
  · next c _ =>
    have hrun := (f c.value).chronicles_run hw
    split
    · next d w' heq => rwa [heq] at hrun
    · next update w' heq =>
      rw [heq] at hrun
      refine hrun.trans ?_
      unfold commitUpdate
      split
      · exact .refl w'
      · split
        · exact .refl w'
        · exact .unrelated rfl rfl rfl rfl

theorem chronicles_buildRelease (hw : w.Orderly) (release : ReleaseId) (x : Exit Value Value) :
    w.Chronicles (w.buildRelease release x).2 := by
  -- a release is built of earlier ones
  induction hindex : release.index using Nat.strongRecOn generalizing release w with
  | _ index ih =>
    subst hindex
    rw [buildRelease]
    split
    · exact .refl w
    · exact Action.chronicles_run _ hw
    · split
      · next hlt => exact ih _ hlt hw _ rfl
      · exact .refl w
    · split
      · next hlt =>
        have hfirst := ih _ hlt.1 hw _ rfl
        exact hfirst.trans (ih _ hlt.2 (hfirst.orderly hw) _ rfl)
      · exact .refl w
    · split
      · next inner _ hlt =>
        have hbuild := ih _ hlt hw _ rfl
        split
        · next i w' heq => rwa [heq] at hbuild
        · next d w' heq => rwa [heq] at hbuild
      · exact .refl w

/-- **Every plan is told by a chronicle.** -/
theorem chronicles_carryOut (hw : w.Orderly) (hsound : w.Sound) {fiber : FiberId}
    (hin : w.InHand fiber) (plan : Plan) : w.Chronicles (w.carryOut fiber plan).2 := by
  cases plan with
  | proceed run step => exact .refl w
  | finish outcome => exact chronicles_complete hw hsound hin outcome
  | build run code => exact code.chronicles_run hw
  | translate run code => exact code.chronicles_run hw
  | compute run code => exact code.chronicles_run hw
  | update run cell f => exact chronicles_attemptUpdate hw cell f
  | release run id exit => exact chronicles_buildRelease hw id exit
  | releaseLease run lease exit =>
    rcases w.carryOut_releaseLease fiber run lease exit with heq | ⟨release, leases, heq⟩ <;>
      rw [heq]
    · exact .refl w
    · have hleases : w.Chronicles { w with store := { w.store with leases } } :=
        .unrelated rfl rfl rfl rfl
      exact hleases.trans (chronicles_buildRelease (hleases.orderly hw) release exit)
  | reserve run v release => exact .unrelated rfl rfl rfl rfl
  | fork run child daemon => exact w.chronicles_fork fiber run child daemon
  | signal run target => exact chronicles_interrupt hw target fiber
  | wait run registration =>
    rw [carryOut_wait]
    exact chronicles_park hw hin run registration
  | makeWay run => exact chronicles_schedule _ _ _ _

/-- Nothing has happened in the beginning. -/
theorem orderly_init (minted : Nat) : (World.init minted).Orderly where
  lines {c ch e} hch _ := by
    simp [World.init, Store.init, Store.channel?, Numbered.get?] at hch
  leaves {s p run c line ticket} hp _ := by
    simp [World.init, World.suspension?, Numbered.get?] at hp
  channels {c ch} hch := by
    simp [World.init, Store.init, Store.channel?, Numbered.get?] at hch
  filed {s} hs := by
    cases hs with
    | alarm hmem _ => cases hmem
    | observer hr _ _ =>
      simp [World.init, Store.init, Store.fiber?, Numbered.get?, Numbered.startingAt] at hr
  owner {fiber r s} hr _ := by
    simp [World.init, Store.init, Store.fiber?, Numbered.get?, Numbered.startingAt] at hr
  recorded {s p run onInterrupt} hp _ := by
    simp [World.init, World.suspension?, Numbered.get?] at hp

/-- An alarm wakes the one who scheduled it. -/
theorem chronicles_ring (hw : w.Orderly) {budget : Nat} {m : Machine}
    (h : Machine.ring { budget, world := w } = some m) : w.Chronicles m.world := by
  unfold Machine.ring at h
  split at h
  · cases h
  · next alarm alarms hfirst =>
    obtain rfl := Option.some.inj h
    simp only [Alarms.first?] at hfirst
    split at hfirst
    · cases hfirst
    · next a pending hpending =>
      obtain ⟨rfl, rfl⟩ := Prod.mk.inj (Option.some.inj hfirst)
      have hmem : ∀ {b}, b ∈ a :: pending → b ∈ w.store.alarms.pending := fun hb => hpending ▸ hb
      have hidle := @idles_alarms w { w.store.alarms with pending }
        (fun b hb => Or.inl (hmem (List.mem_cons_of_mem _ hb))) (max w.store.now a.deadline)
      have htime := hidle.chronicles
      have hplain := hw.filed (.alarm (hmem List.mem_cons_self) rfl)
      exact htime.trans (chronicles_resume (htime.plain hplain) _)

end World

/-! ### Workshops -/

namespace Workshop

/-- **Every move is told by a chronicle.** -/
theorem Move.chronicles {budget : Nat} {s s' : Workshop} {events : List (FiberId × Event)}
    (h : Move budget s events s') (hvalid : s.Valid) (hw : s.world.Orderly) :
    s.world.Chronicles s'.world := by
  cases h with
  | pick _ _ => exact .unrelated rfl rfl rfl rfl
  | @advance w before after slice m hm =>
    subst hm
    obtain ⟨a, ha⟩ := hvalid.stands slice.fiber
    obtain ⟨-, hin, -, -⟩ := stands_of_running ha
    rcases Machine.world_advance budget w slice with heq | ⟨-, heq⟩ <;> simp only [heq]
    · exact World.chronicles_schedule _ _ _ _
    · exact World.chronicles_carryOut hw hvalid.sound hin _
  | interrupt target source => exact World.chronicles_interrupt hw target source
  | act a => exact a.chronicles_run hw
  | ring hm => exact World.chronicles_ring hw hm
  | start effect environment report => exact World.chronicles_startRoot budget _ effect environment report

/-- **Every run has a chronicle.** -/
theorem Run.exists_chronicle {budget : Nat} {s s' : Workshop} {record : List (FiberId × Event)}
    (h : Run budget s record s') (hvalid : s.Valid) (hw : s.world.Orderly) :
    s.world.Chronicles s'.world := by
  induction h with
  | rest => exact .refl _
  | move hmove _ ih =>
    have hone := hmove.chronicles hvalid hw
    exact hone.trans (ih (hmove.valid hvalid) (hone.orderly hw))

end Workshop

end Fibers
