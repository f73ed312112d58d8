import Fibers.Proofs.Family
import Fibers.Proofs.Ledger
import Fibers.Proofs.Telling

/-!
# The operations of the runtime keep a ledger

Whatever the operations do, a ledger that fits the world before fits the world after, when what
has been given in between is added.  Nothing is given but by telling an observer of the fiber; a
wait that has nothing to do with other fibers can be completed with anything.

## Main definitions

* `Registration.isFree` — a wait that may end with anything.
* `World.Relays` — every ledger that fits one world fits the other, after more has been given.

## Main results

* `Action.relays_run` — whatever an action does.
* `World.relays_interrupt` — a request for interruption.
* `World.relays_notify` — telling an observer.
* `World.relays_register` — the registration of a wait.
* `World.relays_buildRelease` — building a release.
-/

namespace Fibers

/-- Whether a wait may end with anything: other fibers or an alarm have nothing to do with it. -/
def Registration.isFree : Registration → Bool
  | .callback _ => true
  | .offer _ _ => true
  | .take _ => true
  | .awaitClose _ => true
  | .sleep _ => false
  | .awaitExit _ _ => false
  | .firstDone _ _ => false
  | .firstFailure _ => false

/-- Such a wait can be completed with anything. -/
theorem Ledger.told_of_isFree {registration : Registration} (h : registration.isFree = true)
    (l : Ledger) (store : Store) (s : SuspensionId) (o : Outcome) :
    l.Told store s registration o := by
  cases registration with
  | sleep _ | awaitExit _ _ | firstDone _ _ | firstFailure _ => cases h
  | callback _ | offer _ _ | take _ | awaitClose _ =>
    refine ⟨trivial, fun type x hregistration _ => ?_, fun children hregistration _ _ => ?_,
      fun children i hregistration _ _ => ?_⟩ <;> cases hregistration

theorem Registration.isFree_of_line? {registration : Registration} {c : ChannelId} {line : Line}
    (h : registration.line? = some (c, line)) : registration.isFree = true := by
  cases registration <;> first | rfl | cases h

theorem Registration.isFree_of_isCallback {registration : Registration}
    (h : registration.isCallback = true) : registration.isFree = true := by
  cases registration <;> first | rfl | cases h

/-- Every ledger that fits the one world fits the other, after more has been given; and nothing is
forgotten that has been told. -/
structure World.Relays (w w' : World) : Prop where
  holds : ∀ {l : Ledger}, l.Holds w → ∃ more, (l.give more).Holds w' ∧ Ledger.Later more w w'

namespace World.Relays

variable {w w' w'' : World}

theorem nothing (hlater : Ledger.Later [] w w') (h : ∀ {l : Ledger}, l.Holds w → l.Holds w') :
    w.Relays w' :=
  ⟨fun {l} hl => ⟨[], by rw [Ledger.give_nil]; exact h hl, hlater⟩⟩

theorem quiet (h : w.Quiet w') (hreports : w'.store.reports = w.store.reports)
    (hexit : ∀ f, w'.store.exit? f = w.store.exit? f) : w.Relays w' :=
  nothing h.later fun hl => hl.quiet h hreports (hexit _)

theorem trans (h : w.Relays w') (h' : w'.Relays w'') : w.Relays w'' := by
  refine ⟨fun {l} hl => ?_⟩
  obtain ⟨more, hmore, hlater⟩ := h.holds hl
  obtain ⟨more', hmore', hlater'⟩ := h'.holds hmore
  rw [Ledger.give_give] at hmore'
  exact ⟨_, hmore', hlater.trans hlater'⟩

/-- Data that tells nothing of fibers changes. -/
theorem unrelated (hs : w'.suspensions = w.suspensions) (ht : w'.tasks = w.tasks)
    (hn : w'.store.names = w.store.names) (hr : w'.store.reports = w.store.reports)
    (ha : w'.store.alarms = w.store.alarms) (hf : w'.store.fibers = w.store.fibers) :
    w.Relays w' :=
  quiet (.of_eq hs ht hn ha hf) hr fun f => by
    rw [Store.exit?, Store.exit?, Store.fiber?, Store.fiber?, hf]

theorem refl (w : World) : w.Relays w := unrelated rfl rfl rfl rfl rfl rfl

end World.Relays

/-! ### Completing a wait -/

namespace World

variable {w w' : World}

/-- Completing a wait with what is so. -/
theorem relays_resume_answered {s : SuspensionId} {p : Suspension} (hp : w.suspension? s = some p)
    {o : Outcome} (hanswered : p.registration.Answered w.store o)
    (hexit : ∀ fiber type, p.registration ≠ .awaitExit fiber type)
    (hsucceeded : ∀ {l : Ledger}, l.Holds w → ∀ children, p.registration = .firstFailure children →
      o = .done .none → l.fiber ∈ children → l.Succeeded)
    (hfailed : ∀ {l : Ledger}, l.Holds w → ∀ children (i : Nat),
      p.registration = .firstFailure children → o = .done (.some (.int i)) →
        children[i]? = some l.fiber → l.Failed) :
    w.Relays (w.resume s o).2 := by
  cases hlive : w.isLive s with
  | false =>
    rw [resume_of_not_live hlive]
    exact .refl w
  | true =>
    refine .nothing (.resume hlive o (by simp)) fun {l} hl =>
      hl.of_tracks ?_ (w.store_resume s o) (w.preserves_resume s o)
    have htold : (l.give []).Told w.store s p.registration o :=
      ⟨hanswered, fun type x heq _ => absurd heq (hexit _ type), fun children heq ho hmem =>
        (hsucceeded hl children heq ho hmem).give, fun children i heq ho hi =>
        (hfailed hl children i heq ho hi).give⟩
    have htracks := hl.toTracks.resume hp hlive (by simp) (by simp) htold
    rwa [Ledger.give_nil] at htracks

/-- Completing a wait that may end with anything. -/
theorem relays_resume {s : SuspensionId} {p : Suspension} (hp : w.suspension? s = some p)
    (hfree : p.registration.isFree = true) (o : Outcome) : w.Relays (w.resume s o).2 := by
  refine relays_resume_answered hp ?_ (fun fiber type heq => ?_) (fun _ children heq => ?_)
    fun _ children i heq => ?_
  · cases hregistration : p.registration with
    | sleep _ | awaitExit _ _ | firstDone _ _ | firstFailure _ =>
      rw [hregistration] at hfree
      cases hfree
    | _ => trivial
  all_goals
    rw [heq] at hfree
    cases hfree

/-! ### Channels -/

theorem relays_setChannel (w : World) (c : ChannelId) (ch : Channel Value SuspensionId) :
    w.Relays (w.setChannel c ch) := .unrelated rfl rfl rfl rfl rfl rfl

theorem relays_tell {told : List (SuspensionId × Answer Value)}
    (h : ∀ t ∈ told, ∃ p, w.suspension? t.1 = some p ∧ p.registration.isFree = true) :
    w.Relays (w.tell told) := by
  unfold tell
  induction told generalizing w with
  | nil => exact .refl w
  | cons t told ih =>
    obtain ⟨p, hp, hfree⟩ := h t List.mem_cons_self
    refine (relays_resume hp hfree t.2.outcome).trans (ih fun t' ht' => ?_)
    obtain ⟨p', hp', hfree'⟩ := h t' (List.mem_cons_of_mem _ ht')
    obtain ⟨state, hafter⟩ := (w.preserves_resume t.1 t.2.outcome).place hp'
    exact ⟨_, hafter, hfree'⟩

/-- Whoever a channel tells something waits for the channel. -/
theorem relays_ask (hw : w.Orderly) {c : ChannelId} {ch : Channel Value SuspensionId}
    (hch : w.store.channel? c = some ch) {request : Request Value SuspensionId}
    (hasks : w.Asks c ch request) : w.Relays (w.ask c ch request) := by
  refine (w.relays_setChannel c _).trans (relays_tell fun t ht => ?_)
  obtain ⟨p, line, hp, hline, -⟩ := hw.of_told hch hasks (List.mem_map_of_mem (f := Prod.fst) ht)
  exact ⟨p, hp, Registration.isFree_of_line? hline⟩

theorem relays_takeElement (hw : w.Orderly) {c : ChannelId} {ch : Channel Value SuspensionId}
    (hch : w.store.channel? c = some ch) : w.Relays (w.takeElement c ch).2 := by
  generalize htake : w.takeElement c ch = taken
  obtain ⟨v, w'⟩ := taken
  cases v with
  | none =>
    rw [takeElement_none htake]
    exact .refl w
  | some v =>
    rw [(takeElement_some hw hch htake).1]
    exact relays_ask hw hch (asks_of_nobody (by simp) rfl)

theorem relays_takeUpTo (hw : w.Orderly) (c : ChannelId) (limit : Nat) :
    w.Relays (w.takeUpTo c limit).2 := by
  induction limit generalizing w with
  | zero => exact .refl w
  | succ limit ih =>
    unfold takeUpTo
    split
    · exact .refl w
    · next ch hch =>
      have htake := relays_takeElement hw hch
      have hchronicle := chronicles_takeElement hw hch
      split
      · next w' heq => rwa [heq] at htake
      · next v w' heq =>
        rw [heq] at htake hchronicle
        exact htake.trans (ih (hchronicle.orderly hw))

theorem relays_drain (hw : w.Orderly) (c : ChannelId) (limit : Option Nat) :
    w.Relays (w.drain c limit).2 := by
  unfold drain
  split
  · exact .refl w
  · split
    · exact .refl w
    · exact relays_takeUpTo hw c _

theorem relays_close (hw : w.Orderly) (c : ChannelId) (source : FiberId) :
    w.Relays (w.close c source) := by
  cases hch : w.store.channel? c with
  | none =>
    have hsame : w.close c source = w := by simp [World.close, hch]
    rw [hsame]
    exact .refl w
  | some ch =>
    rw [close_eq hch]
    exact relays_ask hw hch (asks_of_nobody (by simp) rfl)

/-! ### Actions -/

theorem relays_perform (hw : w.Orderly) (op : Operation) : w.Relays (w.perform op).2 := by
  cases op with
  | newChannel capacity =>
    simp only [perform]
    split
    · exact .refl w
    · exact .unrelated rfl rfl rfl rfl rfl rfl
  | drain channel limit => exact relays_drain hw channel limit
  | close channel source => exact relays_close hw channel source
  | complete waiter outcome =>
    simp only [perform, answer]
    split
    · next hopen =>
      obtain ⟨p, hp, hcallback⟩ := (Option.any_eq_true ..).mp hopen
      exact relays_resume hp (Registration.isFree_of_isCallback hcallback) outcome
    · exact .refl w
  | observe => exact .refl w
  | log _ | newCell _ | writeCell _ _ | keep _ _ | newMark | useMark _ | newLease _ =>
    exact .unrelated rfl rfl rfl rfl rfl rfl

end World

/-- **Whatever an action does keeps a ledger.** -/
theorem Action.relays_run {α : Type} (a : Action α) {w : World} (hw : w.Orderly) :
    w.Relays (a.run w).2 := by
  induction a generalizing w with
  | done a => exact .refl w
  | panic d => exact .refl w
  | perform op next ih =>
    exact (World.relays_perform hw op).trans (ih _ ((World.chronicles_perform hw op).orderly hw))

namespace World

variable {w w' : World}

/-! ### Interruption -/

theorem relays_cancel {onInterrupt : Canceler} (hw : ∀ a, onInterrupt = .action a → w.Orderly) :
    w.Relays (w.cancel onInterrupt) := by
  cases onInterrupt with
  | nothing => exact .refl w
  | alarm key =>
    exact .quiet ⟨rfl, rfl, rfl, fun ha => (Alarms.mem_cancel.mp ha).1,
      .of_fibers rfl, fun _ => rfl⟩ rfl fun _ => rfl
  | leave c line ticket =>
    simp only [cancel]
    split
    · exact .refl w
    · exact w.relays_setChannel c _
  | action a => exact a.relays_run (hw a rfl)

/-- The wait of a parked fiber is interrupted. -/
theorem relays_interruptAt (hw : w.Orderly) {fiber : FiberId} {s : SuspensionId}
    {place : Suspension} (hplace : w.suspension? s = some place) (hfiber : place.fiber = fiber)
    (hallowed : ∀ run, place.state.run? = some run → run.interruptible = true)
    (hasked : w.store.isInterrupted fiber = true)
    (source : FiberId) : w.Relays (w.interruptAt fiber s source) := by
  subst hfiber
  unfold interruptAt
  rw [hplace, Option.map_some]
  cases hstate : place.state with
  | waiting run onInterrupt =>
    refine ⟨fun {l} hl => ?_⟩
    obtain ⟨-, hleft⟩ := hl.toTracks.vacate hplace
    have hlast := hl.places.parked hplace hstate
    have hover : (w.setSuspension s .over).isOver s = true := by
      rw [isOver_setSuspension hplace, if_pos rfl]
      rfl
    -- nobody who is parked has been given anything
    have hlost : l.Lost (w.setSuspension s .over) s := by
      refine ⟨hover, fun x hmem => ?_, { place with state := .over }, ?_, hasked⟩
      · have hserved := (hl.places.served hmem).1
        rw [isOver, hplace, Option.any_some, hstate] at hserved
        cases hserved
      · rw [suspension?_setSuspension, if_pos rfl, hplace, Option.map_some]
    have hcancel : (w.setSuspension s .over).Relays
        ((w.setSuspension s .over).cancel onInterrupt) := by
      refine relays_cancel fun a ha => ?_
      subst ha
      have hstays : (Canceler.action a).Stays := by
        intro c line ticket heq
        cases heq
      exact hw.vacate hplace rfl (hw.out_of_waiting hplace hstate hstays)
    obtain ⟨more, hmore, hlater⟩ := hcancel.holds (hl.vacate hplace)
    have hready : Ledger.Later [] ((w.setSuspension s .over).cancel onInterrupt)
        (((w.setSuspension s .over).cancel onInterrupt).schedule place.fiber run
          (.interrupt source)) := .of_suspensions rfl (.refl _)
    refine ⟨more, hmore.schedule fun wait hwait => ?_, ?_⟩
    · obtain rfl := Option.some.inj (hlast.symm.trans hwait)
      exact .interrupted source (hallowed run (by rw [hstate]; rfl)) (hlost.later hlater)
    · simpa using (hleft.trans hlater).trans hready
  | _ => exact .refl w

/-- What is known of a fiber changes in what is not told. -/
theorem relays_modifyFiber (w : World) (id : FiberId) {f : FiberRecord → FiberRecord}
    (hnews : ∀ r, (f r).news = r.news) (hexit : ∀ r, (f r).exit = r.exit)
    (hasked : ∀ r, r.isInterrupted = true → (f r).isInterrupted = true) :
    w.Relays (w.modifyFiber id f) := by
  refine .quiet (.modifyFiber w id hnews hasked) rfl fun other => ?_
  rw [exit?_modifyFiber]
  split
  · next heq =>
    rw [heq, Store.exit?]
    congr 1
    funext r
    exact hexit r
  · rfl

/-- A fiber that has been asked to stop is known to have been. -/
theorem isInterrupted_recordInterruptor {target source : FiberId} {r : FiberRecord}
    (hr : (w.recordInterruptor target source).store.fiber? target = some r) :
    (w.recordInterruptor target source).store.isInterrupted target = true := by
  rw [Store.isInterrupted, hr, Option.any_some]
  rw [recordInterruptor, modifyFiber, Store.fiber?_modifyFiber, if_pos rfl,
    Option.map_eq_some_iff] at hr
  obtain ⟨r', -, rfl⟩ := hr
  split
  · next hmem => cases hinterruptors : r'.interruptors <;> simp_all [FiberRecord.isInterrupted]
  · simp [FiberRecord.isInterrupted]

/-- **A request for interruption keeps a ledger.** -/
theorem relays_interrupt (hw : w.Orderly) (hsound : w.Sound) (target source : FiberId) :
    w.Relays (w.interrupt target source) := by
  have hrecord : w.Relays (w.recordInterruptor target source) :=
    w.relays_modifyFiber target (fun r => by split <;> rfl) (fun r => by split <;> rfl) fun r hr => by
      split
      · exact hr
      · simp [FiberRecord.isInterrupted]
  have hw' := (w.idles_recordInterruptor target source).chronicles.orderly hw
  have hsound' := (w.influences_recordInterruptor target source).sound hsound
  simp only [interrupt]
  split
  · exact hrecord
  · next s hs =>
    split
    · next hint =>
      -- the place known of the fiber is its own, and tells its interrupt status
      obtain ⟨r, hr, hsusp⟩ := Option.bind_eq_some_iff.mp hs
      obtain ⟨place, hplace, hfiber⟩ := hsound'.owner hr hsusp
      refine hrecord.trans (relays_interruptAt hw' hplace hfiber (fun run hrun => ?_)
        (isInterrupted_recordInterruptor hr) _)
      rw [← hsound'.status hplace hrun]
      simpa [isInterruptible, hplace] using hint
    · exact hrecord

theorem relays_interruptUnfinished (hw : w.Orderly) (hsound : w.Sound) (fibers : List FiberId)
    (source : FiberId) : w.Relays (w.interruptUnfinished fibers source) := by
  unfold interruptUnfinished
  induction fibers generalizing w with
  | nil => exact .refl w
  | cons f fibers ih =>
    have hone : w.Relays (if w.store.isFinished f then w else w.interrupt f source) ∧
        World.Orderly (if w.store.isFinished f then w else w.interrupt f source) ∧
          World.Sound (if w.store.isFinished f then w else w.interrupt f source) := by
      split
      · exact ⟨.refl w, hw, hsound⟩
      · exact ⟨relays_interrupt hw hsound f source, (chronicles_interrupt hw f source).orderly hw,
          (influences_interrupt hsound f source).sound hsound⟩
    exact hone.1.trans (ih hone.2.1 hone.2.2)

/-- The children of a fiber that ends are asked to stop. -/
theorem relays_dismiss (hw : w.Orderly) (hsound : w.Sound) (fiber : FiberId) :
    w.Relays (w.dismiss fiber) := by
  have hidle : w.Idles (w.forgetChildren fiber) :=
    .modifyFiber w fiber (fun _ => rfl) (fun _ => rfl) fun _ _ _ ho => Or.inl ho
  have hinfluence : w.Influences (w.forgetChildren fiber) :=
    .modifyFiber w fiber fun _ => ⟨rfl, List.prefix_refl _, rfl, List.prefix_refl _⟩
  have hforget : w.Relays (w.forgetChildren fiber) :=
    w.relays_modifyFiber fiber (fun _ => rfl) (fun _ => rfl) fun _ hr => hr
  exact hforget.trans (relays_interruptUnfinished (hidle.chronicles.orderly hw)
    (hinfluence.sound hsound) _ fiber)

/-! ### News of a fiber that has finished -/

theorem quiet_takeExit (w : World) (fiber : FiberId) : w.Quiet (w.takeExit fiber).2 := by
  unfold takeExit
  split
  · exact .modifyFiber w fiber (fun _ => rfl) fun _ hr => hr
  · exact .refl w

theorem quiet_restoreExit (w : World) (fiber : FiberId) (o : Outcome) :
    w.Quiet (w.restoreExit fiber o) := .modifyFiber w fiber (fun _ => rfl) fun _ hr => hr

theorem reports_takeExit (w : World) (fiber : FiberId) :
    (w.takeExit fiber).2.store.reports = w.store.reports := by
  unfold takeExit
  split <;> rfl

/-- The one who started a fiber is told its exit. -/
theorem relays_report (w : World) {fiber : FiberId} (hfinished : w.store.isFinished fiber = true)
    (type : ErrorType) : w.Relays (w.notify fiber (.report type)) := by
  refine ⟨fun {l} hl => ?_⟩
  let x := (w.takeExit fiber).1.untag type
  have hquiet : w.Quiet (w.notify fiber (.report type)) := by
    have htake := w.quiet_takeExit fiber
    exact ⟨htake.suspensions, htake.tasks, htake.names, htake.alarms,
      htake.remembers.trans (.of_fibers rfl), htake.news⟩
  have hreports : (w.notify fiber (.report type)).store.reports = w.store.reports ++ [(fiber, x)] :=
    congrArg (· ++ [(fiber, x)]) (w.reports_takeExit fiber)
  have hexit : ∀ f, (w.notify fiber (.report type)).store.exit? f =
      if f = fiber then none else w.store.exit? f := w.exit?_takeExit fiber
  by_cases hself : fiber = l.fiber
  · subst hself
    refine ⟨[(none, x)], ⟨(hl.toTracks.quiet hquiet).report x, ?_, ?_⟩, ?_⟩
    · refine hl.shelf.give_taken hfinished (by simp) hquiet ?_
      rw [hexit, if_pos rfl]
    · rw [hreports, Ledger.give, List.filterMap_append, List.filterMap_append, hl.reports]
      simp
    · simpa using hquiet.later.trans (.reported _ x)
  · refine ⟨[], ?_, hquiet.later⟩
    rw [Ledger.give_nil]
    refine ⟨hl.toTracks.quiet hquiet, ?_, ?_⟩
    · refine hl.shelf.preserved hquiet.preserves (hquiet.isFinished _) ?_ hquiet.names
      rw [hexit, if_neg fun heq => hself heq.symm]
    · rw [hreports, List.filterMap_append, hl.reports]
      simp [hself]

/-- An exit that has been taken is handed to a waiter. -/
theorem relays_handExit {fiber : FiberId} (hfinished : w.store.isFinished fiber = true)
    {waiter : SuspensionId} {type : ErrorType} (hfits : (Observer.exitTo waiter type).Fits w fiber)
    (hlive : (w.takeExit fiber).2.isLive waiter = true) :
    w.Relays ((w.takeExit fiber).2.resume waiter
      (.done (.exit ((w.takeExit fiber).1.untag type)))).2 := by
  refine ⟨fun {l} hl => ?_⟩
  obtain ⟨p, hp, hregistration⟩ := hfits
  have htake := w.quiet_takeExit fiber
  have hreports := w.reports_takeExit fiber
  have hexit := w.exit?_takeExit fiber
  have htracks := hl.toTracks.quiet htake
  generalize hx : (w.takeExit fiber).1.untag type = x
  generalize (w.takeExit fiber).2 = w₁ at hlive htake hreports hexit htracks
  have hp₁ : w₁.suspension? waiter = some p := by rwa [suspension?, htake.suspensions]
  have hstore := w₁.store_resume waiter (.done (.exit x))
  have hpreserves := w₁.preserves_resume waiter (.done (.exit x))
  have hanswered : p.registration.Answered w₁.store (.done (.exit x)) := by
    rw [hregistration]
    exact ⟨(htake.isFinished fiber).trans hfinished, x, rfl⟩
  by_cases hself : fiber = l.fiber
  · subst hself
    have htold : (l.give [(some waiter, x)]).Told w₁.store waiter p.registration
        (.done (.exit x)) := by
      refine ⟨hanswered, fun type' y _ hy => ?_, fun children heq => ?_, fun children i heq => ?_⟩
      · rw [Exit.done.injEq, Value.exit.injEq] at hy
        rw [← hy]
        exact List.mem_append_right _ (List.mem_singleton_self _)
      · cases hregistration.symm.trans heq
      · cases hregistration.symm.trans heq
    have hshelf : (l.give [(some waiter, x)]).Shelf w₁ := by
      rw [← hx]
      refine hl.shelf.give_taken hfinished (fun s hs => ?_) htake ?_
      · obtain rfl := Option.some.inj hs
        exact ⟨p, hp, hregistration⟩
      · rw [hexit, if_pos rfl]
    refine ⟨[(some waiter, x)], ⟨?_, ?_, ?_⟩, ?_⟩
    · exact htracks.resume hp₁ hlive (by simpa using ⟨type, hregistration⟩) (by simp) htold
    · exact hshelf.preserved hpreserves (by rw [hstore]) (by rw [hstore]) (by rw [hstore])
    · rw [hstore, hreports, Ledger.give, List.filterMap_append, hl.reports]
      simp
    · exact htake.later.trans (.resume hlive _ (by simp))
  · have htold : (l.give []).Told w₁.store waiter p.registration (.done (.exit x)) := by
      refine ⟨hanswered, fun type' y hy _ => ?_, fun children heq => ?_, fun children i heq => ?_⟩
      · rw [hregistration, Registration.awaitExit.injEq] at hy
        exact absurd hy.1 hself
      · cases hregistration.symm.trans heq
      · cases hregistration.symm.trans heq
    refine ⟨[], ⟨?_, ?_, ?_⟩, ?_⟩
    · exact htracks.resume hp₁ hlive (by simp) (by simp) htold
    · rw [Ledger.give_nil]
      have hshelf := hl.shelf.preserved htake.preserves (htake.isFinished _)
        (by rw [hexit, if_neg fun heq => hself heq.symm]) htake.names
      exact hshelf.preserved hpreserves (by rw [hstore]) (by rw [hstore]) (by rw [hstore])
    · rw [hstore, hreports, Ledger.give_nil]
      exact hl.reports
    · exact htake.later.trans (.resume hlive _ (by simp))

/-- An exit that has been taken for a waiter that is gone is put back. -/
theorem relays_returnExit {fiber : FiberId} (hfinished : w.store.isFinished fiber = true)
    {waiter : SuspensionId} {type : ErrorType}
    (hfits : (Observer.exitTo waiter type).Fits w fiber) :
    w.Relays ((w.takeExit fiber).2.restoreExit fiber
      (((w.takeExit fiber).1.untag type).tag type)) := by
  have htake := w.quiet_takeExit fiber
  have hreports := w.reports_takeExit fiber
  have hexit := w.exit?_takeExit fiber
  have hrestore := (w.takeExit fiber).2.exit?_restoreExit fiber
  generalize hx : ((w.takeExit fiber).1.untag type).tag type = o
  generalize (w.takeExit fiber).2 = w₁ at htake hreports hexit hrestore
  have hback := w₁.quiet_restoreExit fiber o
  have hquiet : w.Quiet (w₁.restoreExit fiber o) :=
    ⟨hback.suspensions.trans htake.suspensions, hback.tasks.trans htake.tasks,
      hback.names.trans htake.names, fun ha => htake.alarms (hback.alarms ha),
      htake.remembers.trans hback.remembers, fun f => (hback.news f).trans (htake.news f)⟩
  refine .nothing hquiet.later fun {l} hl => ⟨hl.toTracks.quiet hquiet, ?_, hreports ▸ hl.reports⟩
  by_cases hself : fiber = l.fiber
  · subst hself
    obtain ⟨p, hp, hregistration⟩ := hfits
    have htype : type ∈ l.types := List.mem_map_of_mem (hl.places.asked hp hregistration)
    refine hl.shelf.restored hfinished htype hquiet ?_
    rw [hrestore, if_pos rfl, hx]
    -- the shelf is empty after the exit has been taken
    have hempty := hexit l.fiber
    rw [if_pos rfl, Store.exit?] at hempty
    cases hr : w₁.store.fiber? l.fiber with
    | none =>
      have hfinished₁ := (htake.isFinished l.fiber).trans hfinished
      simp [Store.isFinished, hr] at hfinished₁
    | some r =>
      rw [hr, Option.bind_some] at hempty
      rw [Option.bind_some, hempty, Option.none_or]
  · refine hl.shelf.preserved hquiet.preserves (hquiet.isFinished _) ?_ hquiet.names
    rw [hrestore, if_neg fun heq => hself heq.symm, hexit, if_neg fun heq => hself heq.symm]

/-- A waiter is told the exit of a fiber, which is put back if the waiter is gone. -/
theorem relays_exitTo {fiber : FiberId} (hfinished : w.store.isFinished fiber = true)
    {waiter : SuspensionId} {type : ErrorType}
    (hfits : (Observer.exitTo waiter type).Fits w fiber) :
    w.Relays (w.notify fiber (.exitTo waiter type)) := by
  unfold notify
  simp only
  cases hlive : (w.takeExit fiber).2.isLive waiter with
  | true =>
    have hhand := relays_handExit hfinished hfits hlive
    have hresumed := resume_fst (w.takeExit fiber).2 waiter
      (.done (.exit ((w.takeExit fiber).1.untag type)))
    split
    · next heq => rwa [heq] at hhand
    · next heq =>
      rw [heq, hlive] at hresumed
      cases hresumed
  | false =>
    rw [resume_of_not_live hlive]
    exact relays_returnExit hfinished hfits

/-- What is found out about children when one of them has finished: that it has failed, or that all
have finished and none has failed. -/
theorem of_failureVerdict {children : List FiberId} {fiber : FiberId} {position : Nat}
    {verdict : Value} (h : w.failureVerdict children fiber position = some verdict) :
    verdict = .some (.int position) ∧ w.store.hasFailed fiber = true ∨
      verdict = .none ∧ ∀ c ∈ children,
        w.store.isFinished c = true ∧ w.store.hasFailed c = false := by
  unfold failureVerdict at h
  split at h
  · next hfailed => exact Or.inl ⟨(Option.some.inj h).symm, hfailed⟩
  · split at h
    · next hall =>
      refine Or.inr ⟨(Option.some.inj h).symm, fun c hc => ?_⟩
      simpa using List.all_eq_true.mp hall c hc
    · cases h

/-- **Telling an observer keeps a ledger.** -/
theorem relays_notify {fiber : FiberId} (hfinished : w.store.isFinished fiber = true)
    {observer : Observer} (hfits : observer.Fits w fiber) :
    w.Relays (w.notify fiber observer) := by
  cases observer with
  | report type => exact w.relays_report hfinished type
  | exitTo waiter type => exact relays_exitTo hfinished hfits
  | firstDone waiter left =>
    obtain ⟨p, a, b, hp, hregistration, hfiber⟩ := hfits
    refine relays_resume_answered hp ?_ (fun _ _ heq => ?_) (fun _ _ heq => ?_)
      fun _ _ _ heq => ?_
    · rw [hregistration]
      exact ⟨left, rfl, hfiber ▸ hfinished⟩
    all_goals
      rw [hregistration] at heq
      cases heq
  | firstFailure waiter children position =>
    obtain ⟨p, hp, hregistration, hchild⟩ := hfits
    have hexit : ∀ f t, p.registration ≠ .awaitExit f t := by
      intro f t heq
      rw [hregistration] at heq
      cases heq
    simp only [notify, failureVerdict]
    split
    · next verdict heq =>
      have hverdict := of_failureVerdict heq
      refine relays_resume_answered hp ?_ hexit (fun {l} hl children' heq' ho hmem => ?_)
        fun {l} hl children' i heq' ho hi => ?_
      · rw [hregistration]
        rcases hverdict with ⟨rfl, -⟩ | ⟨rfl, hall⟩
        · exact Or.inr ⟨position, fiber, hchild, rfl, hfinished⟩
        · exact Or.inl ⟨rfl, fun c hc => (hall c hc).1⟩
      · rw [hregistration, Registration.firstFailure.injEq] at heq'
        subst heq'
        obtain rfl := Exit.done.inj ho
        rcases hverdict with ⟨heq', -⟩ | ⟨-, hall⟩
        · cases heq'
        · exact hl.shelf.succeeded (hall _ hmem).1 (hall _ hmem).2
      · rw [hregistration, Registration.firstFailure.injEq] at heq'
        subst heq'
        obtain rfl := Exit.done.inj ho
        rcases hverdict with ⟨heq', hfailed⟩ | ⟨heq', -⟩
        · obtain rfl := Int.ofNat.inj (Value.int.inj (Value.some.inj heq'))
          obtain rfl := Option.some.inj (hchild.symm.trans hi)
          exact hl.shelf.failed hfinished hfailed
        · cases heq'
    · exact .refl w

/-! ### Registration -/

/-- Who is going to be told still is when somebody else asks. -/
theorem WillTell.observed {c : FiberId} {o : Observer} (h : w.WillTell c o) (fiber : FiberId)
    (observer : Observer) :
    (w.modifyFiber fiber fun r => { r with observers := r.observers ++ [observer] }).WillTell c o := by
  obtain ⟨r, hr, hgoing, hmem⟩ := h
  simp only [WillTell, modifyFiber, Store.fiber?_modifyFiber]
  split
  · next heq =>
    rw [← heq, hr]
    exact ⟨_, rfl, hgoing, List.mem_append_left _ hmem⟩
  · exact ⟨r, hr, hgoing, hmem⟩

/-- Somebody is going to be told when a fiber finishes. -/
theorem relays_observe {fiber : FiberId} {observer : Observer} (hfits : observer.Fits w fiber) :
    w.Relays (w.observe fiber observer) := by
  unfold observe
  split
  · next hfinished => exact relays_notify hfinished hfits
  · have hfinished := fun f => w.isFinished_modifyFiber fiber f
      (f := fun r => { r with observers := r.observers ++ [observer] }) fun _ => rfl
    have hremembers : w.store.Remembers (w.modifyFiber fiber fun r =>
        { r with observers := r.observers ++ [observer] }).store :=
      .modifyFiber w.store fiber (fun _ hr => hr) fun _ hr => hr
    have hrecord := fun f => w.store.fiber?_modifyFiber fiber f
      fun r => { r with observers := r.observers ++ [observer] }
    have hexit : ∀ f, (w.modifyFiber fiber fun r =>
        { r with observers := r.observers ++ [observer] }).store.exit? f = w.store.exit? f := by
      intro f
      rw [exit?_modifyFiber]
      split
      · next heq => rw [heq, Store.exit?]
      · rfl
    refine .nothing (.of_suspensions rfl hremembers) fun {l} hl => ?_
    refine ⟨⟨hl.names, hl.places.data rfl rfl hremembers,
      ⟨hl.promises.alarms, fun {f r' o} hr' ho => ?_⟩, fun {s p run c o} hp hstate ho => ?_,
      fun {f} hf => ?_⟩, ?_, hl.reports⟩
    · replace hr' := (hrecord f).symm.trans hr'
      split at hr'
      · next heq =>
        obtain ⟨r, hr, rfl⟩ := Option.map_eq_some_iff.mp hr'
        rw [heq]
        rcases List.mem_append.mp ho with hold | hnew
        · exact hl.promises.observers hr hold
        · rw [List.mem_singleton.mp hnew]
          exact hfits
      · exact hl.promises.observers hr' ho
    · exact (hl.attends hp hstate ho).imp_right
        (Or.imp_left fun htell => htell.observed fiber observer)
    · replace hf := (hrecord f).symm.trans hf
      split at hf
      · next heq => exact hl.unborn (heq ▸ Option.map_eq_none_iff.mp hf)
      · exact hl.unborn hf
    · exact hl.shelf.preserved (.of_suspensions rfl) (hfinished _) (hexit _) rfl

theorem relays_observeChildren {waiter : SuspensionId} {children : List FiberId}
    (hwaiter : ∃ p, w.suspension? waiter = some p ∧ p.registration = .firstFailure children) :
    w.Relays (w.observeChildren waiter children) := by
  unfold observeChildren
  have hposition : ∀ c ∈ children.zipIdx, children[c.2]? = some c.1 := fun c hc =>
    List.mem_zipIdx_iff_getElem?.mp hc
  generalize children.zipIdx = positions at hposition
  induction positions generalizing w with
  | nil => exact .refl w
  | cons c positions ih =>
    obtain ⟨p, hp, hregistration⟩ := hwaiter
    have hfits : (Observer.firstFailure waiter children c.2).Fits w c.1 :=
      ⟨p, hp, hregistration, hposition c List.mem_cons_self⟩
    have hplain : w.Plain waiter := ⟨p, hp, by rw [hregistration]; rfl⟩
    have htold : w.Chronicles (w.observe c.1 (.firstFailure waiter children c.2)) :=
      w.chronicles_observe c.1 fun s hs => Option.some.inj hs ▸ hplain
    obtain ⟨state, hp'⟩ := htold.preserves.place hp
    exact (relays_observe hfits).trans
      (ih ⟨_, hp', hregistration⟩ fun c' hc' => hposition c' (List.mem_cons_of_mem _ hc'))

/-- **The registration of a wait keeps a ledger.** -/
theorem relays_register (hw : w.Orderly) {s : SuspensionId} {p : Suspension}
    (hp : w.suspension? s = some p) (hstate : p.state = .registering)
    (hout : ∀ {c ch e}, w.store.channel? c = some ch → e ∈ ch.entries → e.place ≠ s) :
    w.Relays (w.register s p.registration).2 := by
  have hfresh : ∀ {c ch}, w.store.channel? c = some ch → s ∉ ch.entries.map Entry.place := by
    intro c ch hch hmem
    obtain ⟨e, he, heq⟩ := List.mem_map.mp hmem
    exact hout hch he heq
  have hasks := fun {c ch} (hch : w.store.channel? c = some ch) =>
    @asks_of_registering w s p hp hstate c ch (hfresh hch)
  cases hregistration : p.registration with
  | callback f =>
    have hrun := (f s).relays_run hw
    simp only [register]
    split
    · next onInterrupt w' heq => rwa [heq] at hrun
    · next d w' heq => rwa [heq] at hrun
  | sleep millis =>
    refine .nothing (.of_suspensions rfl (.of_fibers rfl)) fun {l} hl => ?_
    refine ⟨⟨hl.names, hl.places.data rfl rfl (.of_fibers rfl),
      ⟨fun {a} ha => ?_, hl.promises.observers⟩, hl.attends, hl.unborn⟩,
      hl.shelf.preserved (.of_suspensions rfl) rfl rfl rfl, hl.reports⟩
    rcases Alarms.of_mem_schedule ha with rfl | hold
    · exact ⟨p, millis, hp, hregistration⟩
    · exact hl.promises.alarms hold
  | awaitExit fiber type => exact relays_observe ⟨p, hp, hregistration⟩
  | firstDone left right =>
    have hplain : w.Plain s := ⟨p, hp, by rw [hregistration]; rfl⟩
    have htold : w.Chronicles (w.observe left (.firstDone s true)) :=
      w.chronicles_observe left fun t ht => Option.some.inj ht ▸ hplain
    obtain ⟨state, hp'⟩ := htold.preserves.place hp
    have hleft : w.Relays (w.observe left (.firstDone s true)) :=
      relays_observe ⟨p, left, right, hp, hregistration, rfl⟩
    exact hleft.trans (relays_observe ⟨_, left, right, hp', hregistration, rfl⟩)
  | firstFailure children => exact relays_observeChildren ⟨p, hp, hregistration⟩
  | offer c v =>
    rw [hregistration] at hasks
    cases hch : w.store.channel? c with
    | none =>
      simp only [register, registerOffer, hch]
      exact .refl w
    | some ch =>
      simp only [register]
      rw [(registerOffer_registers hw hch v s).world]
      exact relays_ask hw hch (hasks hch rfl rfl)
  | take c =>
    rw [hregistration] at hasks
    cases hch : w.store.channel? c with
    | none =>
      simp only [register, registerTake, hch]
      exact .refl w
    | some ch =>
      simp only [register]
      rw [(registerTake_registers hw hch s).world]
      exact relays_ask hw hch (hasks hch rfl rfl)
  | awaitClose c =>
    rw [hregistration] at hasks
    cases hch : w.store.channel? c with
    | none =>
      simp only [register, registerClose, hch]
      exact .refl w
    | some ch =>
      simp only [register]
      rw [(registerClose_registers hch s).world]
      exact relays_ask hw hch (hasks hch rfl rfl)

/-! ### Cells and releases -/

theorem relays_attemptUpdate (hw : w.Orderly) (cell : CellId)
    (f : Value → Action (Update Value)) : w.Relays (w.attemptUpdate cell f).2 := by
  unfold attemptUpdate
  split
  · exact .refl w
  · next c _ =>
    have hrun := (f c.value).relays_run hw
    split
    · next d w' heq => rwa [heq] at hrun
    · next update w' heq =>
      rw [heq] at hrun
      refine hrun.trans ?_
      unfold commitUpdate
      split
      · exact .refl w'
      · split
        · exact .refl w'
        · exact .unrelated rfl rfl rfl rfl rfl rfl

/-- **Building a release keeps a ledger.** -/
theorem relays_buildRelease (hw : w.Orderly) (release : ReleaseId) (x : Exit Value Value) :
    w.Relays (w.buildRelease release x).2 := by
  -- a release is built of earlier ones
  induction hindex : release.index using Nat.strongRecOn generalizing release w with
  | _ index ih =>
    subst hindex
    rw [buildRelease]
    split
    · exact .refl w
    · exact Action.relays_run _ hw
    · split
      · next hlt => exact ih _ hlt hw _ rfl
      · exact .refl w
    · split
      · next hlt =>
        exact (ih _ hlt.1 hw _ rfl).trans
          (ih _ hlt.2 ((chronicles_buildRelease hw _ x).orderly hw) _ rfl)
      · exact .refl w
    · split
      · next inner _ hlt =>
        have hbuild := ih _ hlt hw _ rfl
        split
        · next i w' heq => rwa [heq] at hbuild
        · next d w' heq => rwa [heq] at hbuild
      · exact .refl w

end World

end Fibers
