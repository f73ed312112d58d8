import Fibers.Proofs.Influence

/-!
# The operations of the runtime are influences

Completing a wait, the operations of actions, requests for interruption, the news that a
fiber has finished and the registration of a wait: each of them is an influence in the sense
of `Influence`.  So whatever one fiber does, what it does to the rest of another one is to
wake it up.

Only a request for interruption goes by what is known of a fiber to the place where it
waits, so it is the only one that needs `World.Sound`.

## Main results

* `Action.influences_run` — whatever an action does.
* `Action.fibers_run` — what no action does.
* `World.influences_interrupt` — a request for interruption.
* `World.influences_notify` — telling an observer.
* `World.influences_register` — the registration of a wait.
* `World.influences_buildRelease` — building a release.
-/

namespace Fibers

open World

namespace World

/-! ### Completing a wait -/

theorem influences_resume (w : World) (s : SuspensionId) (outcome : Outcome) :
    w.Influences (w.resume s outcome).2 := by
  unfold resume
  cases hplace : w.suspension? s with
  | none => exact .refl w
  | some place =>
    simp only
    cases hstate : place.state with
    | registering => exact ⟨[], .vacant hplace (by rw [hstate]; rfl) rfl⟩
    | waiting run onInterrupt => exact ⟨_, .resumed outcome hplace (by rw [hstate]; rfl)⟩
    | _ => exact .refl w

theorem influences_resumeAll (w : World) (places : List SuspensionId) (outcome : Outcome) :
    w.Influences (w.resumeAll places outcome) :=
  .foldl (fun w s => w.influences_resume s outcome) places w

/-! ### Channels -/

theorem influences_setChannel (w : World) (channel : ChannelId)
    (ch : Channel Value SuspensionId) :
    w.Influences { w with store := w.store.setChannel channel ch } :=
  .unrelated rfl rfl rfl

theorem influences_takeElement (w : World) (channel : ChannelId)
    (ch : Channel Value SuspensionId) : w.Influences (w.takeElement channel ch).2 := by
  unfold takeElement
  split
  · exact (w.influences_setChannel channel _).trans (influences_resumeAll _ _ _)
  · exact .refl w

theorem influences_takeUpTo (w : World) (channel : ChannelId) (limit : Nat) :
    w.Influences (w.takeUpTo channel limit).2 := by
  induction limit generalizing w with
  | zero => exact .refl w
  | succ limit ih =>
    unfold takeUpTo
    split
    · exact .refl w
    · next ch _ =>
      have htake := w.influences_takeElement channel ch
      split
      · next w' heq => rwa [heq] at htake
      · next v w' heq =>
        rw [heq] at htake
        exact htake.trans (ih w')

theorem influences_drain (w : World) (channel : ChannelId) (limit : Option Nat) :
    w.Influences (w.drain channel limit).2 := by
  unfold drain
  split
  · exact .refl w
  · split
    · exact .refl w
    · exact w.influences_takeUpTo channel _

theorem influences_close (w : World) (channel : ChannelId) (source : FiberId) :
    w.Influences (w.close channel source) := by
  unfold close
  split
  · exact .refl w
  · exact ((w.influences_setChannel channel _).trans (influences_resumeAll _ _ _)).trans
      (influences_resumeAll _ _ _)

/-! ### Actions -/

theorem influences_perform (w : World) (op : Operation) : w.Influences (w.perform op).2 := by
  cases op with
  | newChannel capacity =>
    simp only [perform]
    split
    · exact .refl w
    · exact .unrelated rfl rfl rfl
  | drain channel limit => exact w.influences_drain channel limit
  | close channel source => exact w.influences_close channel source
  | complete waiter outcome =>
    simp only [perform, answer]
    split
    · exact w.influences_resume waiter outcome
    · exact .refl w
  | observe => exact .refl w
  | log _ | newCell _ | writeCell _ _ | keep _ _ | newMark | useMark _ | newLease _ =>
    exact .unrelated rfl rfl rfl

end World

/-- **Whatever an action does, it does to waiting fibers only by waking them up.** -/
theorem Action.influences_run {α : Type} (a : Action α) (w : World) :
    w.Influences (a.run w).2 := by
  induction a generalizing w with
  | done a => exact .refl w
  | panic d => exact .refl w
  | perform op next ih => exact (w.influences_perform op).trans (ih _ _)

/-! ### What actions leave alone -/

namespace World

@[simp] theorem store_resume (w : World) (s : SuspensionId) (outcome : Outcome) :
    (w.resume s outcome).2.store = w.store := by
  unfold resume
  split
  · rfl
  · split <;> rfl

@[simp] theorem store_resumeAll (w : World) (places : List SuspensionId) (outcome : Outcome) :
    (w.resumeAll places outcome).store = w.store := by
  unfold resumeAll
  induction places generalizing w with
  | nil => rfl
  | cons s places ih => rw [List.foldl_cons, ih, store_resume]

theorem fibers_takeElement (w : World) (channel : ChannelId)
    (ch : Channel Value SuspensionId) :
    (w.takeElement channel ch).2.store.fibers = w.store.fibers := by
  unfold takeElement
  split
  · simp [Store.setChannel]
  · rfl

theorem fibers_takeUpTo (w : World) (channel : ChannelId) (limit : Nat) :
    (w.takeUpTo channel limit).2.store.fibers = w.store.fibers := by
  induction limit generalizing w with
  | zero => rfl
  | succ limit ih =>
    unfold takeUpTo
    split
    · rfl
    · next ch _ =>
      have htake := w.fibers_takeElement channel ch
      split
      · next w' heq => rwa [heq] at htake
      · next v w' heq =>
        rw [heq] at htake
        exact (ih w').trans htake

theorem fibers_perform (w : World) (op : Operation) :
    (w.perform op).2.store.fibers = w.store.fibers := by
  cases op with
  | newChannel capacity =>
    simp only [perform]
    split <;> rfl
  | drain channel limit =>
    simp only [perform, drain]
    split
    · rfl
    · split
      · rfl
      · exact w.fibers_takeUpTo channel _
  | close channel source =>
    simp only [perform, close]
    split
    · rfl
    · simp [Store.setChannel]
  | complete waiter outcome =>
    simp only [perform, answer]
    split
    · exact congrArg Store.fibers (w.store_resume waiter outcome)
    · rfl
  | observe | log _ | newCell _ | writeCell _ _ | keep _ _ | newMark | useMark _ | newLease _ => rfl

end World

/-- **No action changes what is known of a fiber.** -/
theorem Action.fibers_run {α : Type} (a : Action α) (w : World) :
    (a.run w).2.store.fibers = w.store.fibers := by
  induction a generalizing w with
  | done a => rfl
  | panic d => rfl
  | perform op next ih => exact (ih _ _).trans (w.fibers_perform op)

namespace World

/-! ### Interruption -/

theorem fibers_cancel (w : World) (onInterrupt : Canceler) :
    (w.cancel onInterrupt).store.fibers = w.store.fibers := by
  cases onInterrupt with
  | nothing | alarm _ => rfl
  | leave channel line ticket =>
    simp only [cancel]
    split <;> rfl
  | action a => exact a.fibers_run w

/-- Ending a wait changes nothing that is known of a fiber. -/
theorem fibers_interruptAt (w : World) (fiber : FiberId) (s : SuspensionId) (source : FiberId) :
    (w.interruptAt fiber s source).store.fibers = w.store.fibers := by
  unfold interruptAt
  split
  · exact fibers_cancel _ _
  · rfl

theorem influences_cancel (w : World) (onInterrupt : Canceler) :
    w.Influences (w.cancel onInterrupt) := by
  cases onInterrupt with
  | nothing => exact .refl w
  | alarm key => exact .unrelated rfl rfl rfl
  | leave channel line ticket =>
    simp only [cancel]
    split
    · exact .refl w
    · exact w.influences_setChannel channel _
  | action a => exact a.influences_run w

/-- Ending the wait of a fiber at its own place, where it may be interrupted. -/
theorem influences_interruptAt {w : World} {fiber : FiberId} {s : SuspensionId}
    {place : Suspension} (hplace : w.suspension? s = some place) (hfiber : place.fiber = fiber)
    (hallowed : ∀ run, place.state.run? = some run → run.interruptible = true)
    (source : FiberId) : w.Influences (w.interruptAt fiber s source) := by
  unfold interruptAt
  rw [hplace]
  cases hstate : place.state with
  | waiting run onInterrupt =>
    have hrun : place.state.run? = some run := by rw [hstate]; rfl
    obtain ⟨events, hcancel⟩ := influences_cancel (w.setSuspension s .over) onInterrupt
    rw [← hfiber]
    simp only [Option.map_some, hstate]
    exact ⟨_, .cancelled source hplace hrun (hallowed run hrun) hcancel⟩
  | _ =>
    simp only [Option.map_some, hstate]
    exact .refl w

theorem influences_recordInterruptor (w : World) (target source : FiberId) :
    w.Influences (w.recordInterruptor target source) := by
  refine .modifyFiber w target fun r => ?_
  split
  · exact .refl r
  · exact ⟨rfl, List.prefix_append _ _, rfl, List.prefix_refl _⟩

/-- **A request for interruption is an influence.** -/
theorem influences_interrupt {w : World} (hsound : w.Sound) (target source : FiberId) :
    w.Influences (w.interrupt target source) := by
  have hrecord := w.influences_recordInterruptor target source
  have hsound' := hrecord.sound hsound
  simp only [interrupt]
  split
  · exact hrecord
  · next s hs =>
    split
    · next hint =>
      -- the place known of the fiber is its own, and tells its interrupt status
      obtain ⟨r, hr, hsusp⟩ := Option.bind_eq_some_iff.mp hs
      obtain ⟨place, hplace, hfiber⟩ := hsound'.owner hr hsusp
      refine hrecord.trans (influences_interruptAt hplace hfiber (fun run hrun => ?_) _)
      rw [← hsound'.status hplace hrun]
      simpa [isInterruptible, hplace] using hint
    · exact hrecord

theorem influences_interruptUnfinished {w : World} (hsound : w.Sound) (fibers : List FiberId)
    (source : FiberId) : w.Influences (w.interruptUnfinished fibers source) := by
  unfold interruptUnfinished
  induction fibers generalizing w with
  | nil => exact .refl w
  | cons f fibers ih =>
    have hone : w.Influences (if w.store.isFinished f then w else w.interrupt f source) := by
      split
      · exact .refl w
      · exact influences_interrupt hsound f source
    exact hone.trans (ih (hone.sound hsound))

/-! ### News of a fiber that has finished -/

theorem influences_takeExit (w : World) (fiber : FiberId) :
    w.Influences (w.takeExit fiber).2 := by
  unfold takeExit
  split
  · exact .modifyFiber w fiber fun _ => ⟨rfl, List.prefix_refl _, rfl, List.prefix_refl _⟩
  · exact .refl w

theorem influences_restoreExit (w : World) (fiber : FiberId) (outcome : Outcome) :
    w.Influences (w.restoreExit fiber outcome) :=
  .modifyFiber w fiber fun _ => ⟨rfl, List.prefix_refl _, rfl, List.prefix_refl _⟩

/-- **Telling an observer is an influence.** -/
theorem influences_notify (w : World) (fiber : FiberId) (observer : Observer) :
    w.Influences (w.notify fiber observer) := by
  cases observer with
  | report type => exact (w.influences_takeExit fiber).trans (.unrelated rfl rfl rfl)
  | exitTo waiter type =>
    -- the exit is taken, and put back if nobody waits for it any more
    have htake := w.influences_takeExit fiber
    unfold notify
    simp only
    have hresume := influences_resume (w.takeExit fiber).2 waiter
      (.done (.exit ((w.takeExit fiber).1.untag type)))
    split
    · next w' heq =>
      rw [heq] at hresume
      exact htake.trans hresume
    · next w' heq =>
      rw [heq] at hresume
      exact (htake.trans hresume).trans (influences_restoreExit _ _ _)
  | firstDone waiter left => exact w.influences_resume waiter _
  | firstFailure waiter children position =>
    unfold notify
    simp only
    split
    · exact w.influences_resume waiter _
    · exact .refl w

theorem influences_observe (w : World) (fiber : FiberId) (observer : Observer) :
    w.Influences (w.observe fiber observer) := by
  unfold observe
  split
  · exact w.influences_notify fiber observer
  · exact .modifyFiber w fiber fun _ => ⟨rfl, List.prefix_refl _, rfl, List.prefix_append _ _⟩

theorem influences_observeChildren (w : World) (waiter : SuspensionId)
    (children : List FiberId) : w.Influences (w.observeChildren waiter children) :=
  .foldl (fun w (c : FiberId × Nat) =>
    w.influences_observe c.1 (.firstFailure waiter children c.2)) children.zipIdx w

/-! ### Registration -/

theorem influences_registerOffer (w : World) (channel : ChannelId) (v : Value)
    (waiter : SuspensionId) : w.Influences (w.registerOffer channel v waiter).2 := by
  unfold registerOffer
  split
  · exact .refl w
  · split
    · exact w.influences_resume waiter _
    · exact ((w.influences_setChannel channel _).trans (influences_resume _ _ _)).trans
        (influences_resume _ _ _)
    · exact (w.influences_setChannel channel _).trans (influences_resume _ _ _)
    · exact w.influences_setChannel channel _

theorem influences_registerTake (w : World) (channel : ChannelId) (waiter : SuspensionId) :
    w.Influences (w.registerTake channel waiter).2 := by
  unfold registerTake
  split
  · exact .refl w
  · next ch _ =>
    split
    · exact w.influences_resume waiter _
    · have htake := w.influences_takeElement channel ch
      split
      · next v w' heq =>
        rw [heq] at htake
        exact htake.trans (influences_resume _ _ _)
      · next w' heq =>
        rw [heq] at htake
        exact htake.trans (influences_setChannel _ _ _)

theorem influences_registerClose (w : World) (channel : ChannelId) (waiter : SuspensionId) :
    w.Influences (w.registerClose channel waiter).2 := by
  unfold registerClose
  split
  · exact .refl w
  · split
    · exact w.influences_resume waiter _
    · exact w.influences_setChannel channel _

/-- **The registration of a wait is an influence.** -/
theorem influences_register (w : World) (waiter : SuspensionId) (registration : Registration) :
    w.Influences (w.register waiter registration).2 := by
  cases registration with
  | callback f =>
    have hrun := (f waiter).influences_run w
    simp only [register]
    split
    · next onInterrupt w' heq => rwa [heq] at hrun
    · next d w' heq => rwa [heq] at hrun
  | sleep millis => exact .unrelated rfl rfl rfl
  | awaitExit fiber type => exact w.influences_observe fiber _
  | firstDone left right =>
    exact (w.influences_observe left _).trans (influences_observe _ right _)
  | firstFailure children => exact w.influences_observeChildren waiter children
  | offer channel v => exact w.influences_registerOffer channel v waiter
  | take channel => exact w.influences_registerTake channel waiter
  | awaitClose channel => exact w.influences_registerClose channel waiter

/-! ### Cells and releases -/

theorem influences_attemptUpdate (w : World) (cell : CellId)
    (f : Value → Action (Update Value)) : w.Influences (w.attemptUpdate cell f).2 := by
  unfold attemptUpdate
  split
  · exact .refl w
  · next c _ =>
    have hrun := (f c.value).influences_run w
    split
    · next d w' heq => rwa [heq] at hrun
    · next update w' heq =>
      -- what the update function does comes first, and then its result is stored or not
      rw [heq] at hrun
      refine hrun.trans ?_
      unfold commitUpdate
      split
      · exact .refl w'
      · split
        · exact .refl w'
        · exact .unrelated rfl rfl rfl

/-- **Building a release is an influence.** -/
theorem influences_buildRelease (release : ReleaseId) (x : Exit Value Value) (w : World) :
    w.Influences (w.buildRelease release x).2 := by
  -- a release is built of earlier ones
  induction hindex : release.index using Nat.strongRecOn generalizing release w with
  | _ index ih =>
    subst hindex
    rw [buildRelease]
    split
    · exact .refl w
    · exact Action.influences_run _ w
    · split
      · next hlt => exact ih _ hlt _ _ rfl
      · exact .refl w
    · split
      · next hlt => exact (ih _ hlt.1 _ _ rfl).trans (ih _ hlt.2 _ _ rfl)
      · exact .refl w
    · split
      · next inner _ hlt =>
        have hbuild := ih _ hlt _ w rfl
        split
        · next i w' heq => rwa [heq] at hbuild
        · next d w' heq => rwa [heq] at hbuild
      · exact .refl w

end World

end Fibers
