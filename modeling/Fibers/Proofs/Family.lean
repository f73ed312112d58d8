import Fibers.Proofs.Shelf

/-!
# Parents and children

A fiber remembers the children it has started attached, and when it ends it asks those of them to
stop that have not finished.  Nothing else that the runtime does has to do with children: what an
action does, a wait, an update, a release and the news of an end leave alone who has finished, who
has been asked to stop and who remembers whom, and a request for interruption adds to the requests
for one fiber only.

## Main definitions

* `World.bonds` — what is known of a fiber that has to do with other fibers.
* `World.SameBonds` — nothing of it changes.
* `World.Tends` — no fiber ends, and no child is forgotten.
* `World.ending`, `World.audience` — a fiber has ended and nobody has been told yet, and who is told.

## Main results

* `World.complete_eq` — a fiber ends before anybody is told.
* `World.mem_requests_ending` — **the children of a fiber that ends are asked to stop**, unless they
  have finished.
* `World.requests_ending_other` — nobody else is.
* `World.mem_children_fork` — a fiber that starts a child forgets at most what has finished.
* `World.tends_carryOut` — whatever else a fiber does, no child is forgotten.
-/

namespace Fibers

/-! ### What binds fibers to one another -/

/-- What is known of a fiber that has to do with other fibers: whether it has finished, who asked
for its interruption, and which children it remembers. -/
def FiberRecord.bonds (r : FiberRecord) : FiberRecord :=
  { finished := r.finished, interruptors := r.interruptors, children := r.children }

namespace World

variable {w w' w'' : World} {f : FiberId}

/-- What is known of a fiber that has to do with other fibers. -/
def bonds (w : World) (f : FiberId) : Option FiberRecord :=
  (w.store.fiber? f).map FiberRecord.bonds

/-- The children a fiber remembers. -/
def children (w : World) (f : FiberId) : List FiberId :=
  ((w.store.fiber? f).map FiberRecord.children).getD []

theorem children_eq_bonds (w : World) (f : FiberId) :
    w.children f = ((w.bonds f).map FiberRecord.children).getD [] := by
  rw [children, bonds, Option.map_map]
  rfl

theorem requests_eq_bonds (w : World) (f : FiberId) :
    w.requests f = ((w.bonds f).map FiberRecord.interruptors).getD [] := by
  rw [requests, bonds, Option.map_map]
  rfl

theorem isFinished_eq_bonds (w : World) (f : FiberId) :
    w.store.isFinished f = (w.bonds f).any FiberRecord.finished := by
  rw [Store.isFinished, bonds, Option.any_map]
  rfl

/-- Nothing changes that has to do with other fibers. -/
def SameBonds (w w' : World) : Prop := ∀ f, w'.bonds f = w.bonds f

namespace SameBonds

theorem refl (w : World) : w.SameBonds w := fun _ => rfl

theorem trans (h : w.SameBonds w') (h' : w'.SameBonds w'') : w.SameBonds w'' := fun f =>
  (h' f).trans (h f)

theorem of_fibers (h : w'.store.fibers = w.store.fibers) : w.SameBonds w' := fun f => by
  rw [bonds, bonds, Store.fiber?, Store.fiber?, h]

theorem modifyFiber (w : World) (id : FiberId) {g : FiberRecord → FiberRecord}
    (hg : ∀ r, (g r).bonds = r.bonds) : w.SameBonds (w.modifyFiber id g) := fun f => by
  simp only [bonds, World.modifyFiber, Store.fiber?_modifyFiber]
  split
  · next heq =>
    subst heq
    rw [Option.map_map]
    exact congrArg (Option.map · _) (funext hg)
  · rfl

theorem foldl {α : Type} {g : World → α → World} (hg : ∀ (w : World) a, w.SameBonds (g w a))
    (items : List α) (w : World) : w.SameBonds (items.foldl g w) := by
  induction items generalizing w with
  | nil => exact refl w
  | cons a items ih => exact (hg w a).trans (ih (g w a))

theorem children (h : w.SameBonds w') (f : FiberId) : w'.children f = w.children f := by
  rw [children_eq_bonds, children_eq_bonds, h f]

theorem requests (h : w.SameBonds w') (f : FiberId) : w'.requests f = w.requests f := by
  rw [requests_eq_bonds, requests_eq_bonds, h f]

theorem isFinished (h : w.SameBonds w') (f : FiberId) :
    w'.store.isFinished f = w.store.isFinished f := by
  rw [isFinished_eq_bonds, isFinished_eq_bonds, h f]

end SameBonds

/-- What is known of another fiber stays. -/
theorem bonds_modifyFiber_other {id : FiberId} (h : f ≠ id) (w : World)
    (g : FiberRecord → FiberRecord) : (w.modifyFiber id g).bonds f = w.bonds f := by
  rw [bonds, bonds, World.modifyFiber, Store.fiber?_modifyFiber, if_neg h]

/-! ### What changes nothing about others -/

theorem sameBonds_run {α : Type} (a : Action α) (w : World) : w.SameBonds (a.run w).2 :=
  .of_fibers (a.fibers_run w)

theorem sameBonds_resume (w : World) (s : SuspensionId) (outcome : Outcome) :
    w.SameBonds (w.resume s outcome).2 := .of_fibers (by rw [store_resume])

/-- Ending the wait of a fiber that is interrupted adds nothing to the request. -/
theorem sameBonds_interrupt (w : World) (target source : FiberId) :
    (w.recordInterruptor target source).SameBonds (w.interrupt target source) := by
  simp only [interrupt]
  split
  · exact .refl _
  · split
    · exact .of_fibers (fibers_interruptAt _ _ _ _)
    · exact .refl _

theorem sameBonds_takeExit (w : World) (fiber : FiberId) : w.SameBonds (w.takeExit fiber).2 := by
  unfold takeExit
  split
  · exact .modifyFiber w fiber fun _ => rfl
  · exact .refl w

theorem sameBonds_restoreExit (w : World) (fiber : FiberId) (outcome : Outcome) :
    w.SameBonds (w.restoreExit fiber outcome) := .modifyFiber w fiber fun _ => rfl

/-- **Telling that a fiber has finished changes nothing about other fibers.** -/
theorem sameBonds_notify (w : World) (fiber : FiberId) (observer : Observer) :
    w.SameBonds (w.notify fiber observer) := by
  cases observer with
  | report type => exact (w.sameBonds_takeExit fiber).trans (.of_fibers rfl)
  | exitTo waiter type =>
    have htake := w.sameBonds_takeExit fiber
    have hresume := sameBonds_resume (w.takeExit fiber).2 waiter
      (.done (.exit ((w.takeExit fiber).1.untag type)))
    unfold notify
    simp only
    split
    · next w' heq =>
      rw [heq] at hresume
      exact htake.trans hresume
    · next w' heq =>
      rw [heq] at hresume
      exact (htake.trans hresume).trans (sameBonds_restoreExit _ _ _)
  | firstDone waiter left => exact w.sameBonds_resume waiter _
  | firstFailure waiter children position =>
    unfold notify
    simp only
    split
    · exact w.sameBonds_resume waiter _
    · exact .refl w

theorem sameBonds_observe (w : World) (fiber : FiberId) (observer : Observer) :
    w.SameBonds (w.observe fiber observer) := by
  unfold observe
  split
  · exact w.sameBonds_notify fiber observer
  · exact .modifyFiber w fiber fun _ => rfl

theorem sameBonds_registerOffer (w : World) (channel : ChannelId) (v : Value)
    (waiter : SuspensionId) : w.SameBonds (w.registerOffer channel v waiter).2 := by
  refine .of_fibers ?_
  unfold registerOffer
  split
  · rfl
  · split <;> simp [Store.setChannel]

theorem sameBonds_registerTake (w : World) (channel : ChannelId) (waiter : SuspensionId) :
    w.SameBonds (w.registerTake channel waiter).2 := by
  refine .of_fibers ?_
  unfold registerTake
  split
  · rfl
  · next ch _ =>
    split
    · simp
    · have htake := w.fibers_takeElement channel ch
      split
      · next v w' heq =>
        rw [heq] at htake
        simpa using htake
      · next w' heq =>
        rw [heq] at htake
        exact htake

theorem sameBonds_registerClose (w : World) (channel : ChannelId) (waiter : SuspensionId) :
    w.SameBonds (w.registerClose channel waiter).2 := by
  refine .of_fibers ?_
  unfold registerClose
  split
  · rfl
  · split <;> simp [Store.setChannel]

theorem sameBonds_register (w : World) (waiter : SuspensionId) (registration : Registration) :
    w.SameBonds (w.register waiter registration).2 := by
  cases registration with
  | callback f =>
    have hrun := sameBonds_run (f waiter) w
    simp only [register]
    split
    · next onInterrupt w' heq => rwa [heq] at hrun
    · next d w' heq => rwa [heq] at hrun
  | sleep millis => exact .of_fibers rfl
  | awaitExit fiber type => exact w.sameBonds_observe fiber _
  | firstDone left right =>
    exact (w.sameBonds_observe left _).trans (sameBonds_observe _ right _)
  | firstFailure children =>
    exact .foldl (fun w (c : FiberId × Nat) =>
      w.sameBonds_observe c.1 (.firstFailure waiter children c.2)) children.zipIdx w
  | offer channel v => exact w.sameBonds_registerOffer channel v waiter
  | take channel => exact w.sameBonds_registerTake channel waiter
  | awaitClose channel => exact w.sameBonds_registerClose channel waiter

theorem sameBonds_ring {m m' : Machine} (h : m.ring = some m') : m.world.SameBonds m'.world := by
  unfold Machine.ring at h
  split at h
  · cases h
  · next alarm alarms _ =>
    obtain rfl := Option.some.inj h
    exact .of_fibers (by rw [store_resume])

/-- **A wait changes nothing about other fibers.** -/
theorem sameBonds_park (w : World) (fiber : FiberId) (run : RunState)
    (registration : Registration) : w.SameBonds (w.park fiber run registration).2 := by
  have hnew : w.SameBonds (w.newSuspension fiber run.interruptible registration).2 :=
    (SameBonds.of_fibers rfl).trans (.modifyFiber _ fiber fun _ => rfl)
  simp only [park]
  generalize w.newSuspension fiber run.interruptible registration = new at hnew
  obtain ⟨s, w₁⟩ := new
  have hregister := hnew.trans (w₁.sameBonds_register s registration)
  simp only at hregister ⊢
  generalize w₁.register s registration = registered at hregister
  obtain ⟨result, w₂⟩ := registered
  have hover : ∀ state, w.SameBonds (w₂.setSuspension s state) := fun _ =>
    hregister.trans (.of_fibers rfl)
  simp only
  split
  · simp only [parkAt]
    split
    · exact (hover _).trans (.of_fibers (fibers_interruptAt _ _ _ _))
    · exact hover _
  · exact hover _
  · exact hover _
  · exact hover _

theorem sameBonds_attemptUpdate (w : World) (cell : CellId)
    (f : Value → Action (Update Value)) : w.SameBonds (w.attemptUpdate cell f).2 := by
  unfold attemptUpdate
  split
  · exact .refl w
  · next c _ =>
    have hrun := sameBonds_run (f c.value) w
    split
    · next d w' heq => rwa [heq] at hrun
    · next update w' heq =>
      rw [heq] at hrun
      refine hrun.trans ?_
      unfold commitUpdate
      split
      · exact .refl w'
      · split
        · exact .refl w'
        · exact .of_fibers rfl

theorem sameBonds_buildRelease (release : ReleaseId) (x : Exit Value Value) (w : World) :
    w.SameBonds (w.buildRelease release x).2 := by
  -- a release is built of earlier ones
  induction hindex : release.index using Nat.strongRecOn generalizing release w with
  | _ index ih =>
    subst hindex
    rw [buildRelease]
    split
    · exact .refl w
    · exact sameBonds_run _ w
    · split
      · next hlt => exact ih _ hlt _ _ rfl
      · exact .refl w
    · split
      · next hlt => exact (ih _ hlt.1 _ _ rfl).trans (ih _ hlt.2 _ _ rfl)
      · exact .refl w
    · split
      · next inner _ hlt =>
        have hbuild := ih _ hlt _ w rfl
        split
        · next i w' heq => rwa [heq] at hbuild
        · next d w' heq => rwa [heq] at hbuild
      · exact .refl w

/-! ### No child is forgotten -/

/-- No fiber ends and no child is forgotten, though others may be created or asked to stop. -/
structure Tends (w w' : World) : Prop where
  finished : ∀ f, w'.store.isFinished f = w.store.isFinished f
  children : ∀ f, w'.children f = w.children f
  born : ∀ {f}, (w.store.fiber? f).isSome → (w'.store.fiber? f).isSome

namespace Tends

theorem trans (h : w.Tends w') (h' : w'.Tends w'') : w.Tends w'' where
  finished f := (h'.finished f).trans (h.finished f)
  children f := (h'.children f).trans (h.children f)
  born hf := h'.born (h.born hf)

theorem modifyFiber (w : World) (id : FiberId) {g : FiberRecord → FiberRecord}
    (hfinished : ∀ r, (g r).finished = r.finished) (hchildren : ∀ r, (g r).children = r.children) :
    w.Tends (w.modifyFiber id g) where
  finished f := isFinished_modifyFiber w id f hfinished
  children f := by
    simp only [World.children, World.modifyFiber, Store.fiber?_modifyFiber]
    split
    · next heq =>
      subst heq
      cases w.store.fiber? f <;> simp [hchildren]
    · rfl
  born {f} hf := by
    simp only [World.modifyFiber, Store.fiber?_modifyFiber]
    split
    · next heq =>
      subst heq
      simpa using hf
    · exact hf

/-- A fiber is created that remembers no children. -/
theorem push (w : World) {r : FiberRecord} (hfinished : r.finished = false)
    (hchildren : r.children = []) :
    w.Tends { w with store := { w.store with fibers := w.store.fibers.push r } } := by
  have hfresh : w.store.fiber? w.store.nextFiber = none := Numbered.get?_next _
  refine ⟨fun f => ?_, fun f => ?_, fun {f} hf => ?_⟩
  · rw [Store.isFinished, Store.isFinished, Store.fiber?_push]
    split
    · next heq =>
      subst heq
      rw [hfresh, Option.any_some, hfinished]
      rfl
    · rfl
  · rw [World.children, World.children, Store.fiber?_push]
    split
    · next heq =>
      subst heq
      rw [hfresh, Option.map_some, hchildren]
      rfl
    · rfl
  · rw [Store.fiber?_push]
    split
    · rfl
    · exact hf

end Tends

theorem SameBonds.tends (h : w.SameBonds w') : w.Tends w' where
  finished := h.isFinished
  children := h.children
  born {f} hf := by
    have hbonds := congrArg Option.isSome (h f)
    rw [bonds, bonds, Option.isSome_map, Option.isSome_map] at hbonds
    exact hbonds.trans hf

/-! ### Requests -/

theorem tends_interrupt (w : World) (target source : FiberId) :
    w.Tends (w.interrupt target source) := by
  refine (Tends.modifyFiber w target (fun r => ?_) fun r => ?_).trans
    (w.sameBonds_interrupt target source).tends
  · split <;> rfl
  · split <;> rfl

/-- Who asks is among those who have asked. -/
theorem mem_requests_interrupt {target : FiberId} (h : (w.store.fiber? target).isSome)
    (source : FiberId) : source ∈ (w.interrupt target source).requests target := by
  obtain ⟨r, hr⟩ := Option.isSome_iff_exists.mp h
  rw [(w.sameBonds_interrupt target source).requests, World.requests, recordInterruptor,
    World.modifyFiber, Store.fiber?_modifyFiber, if_pos rfl, hr]
  simp only [Option.map_some, Option.getD_some]
  split
  · next hmem => exact List.contains_iff_mem.mp hmem
  · exact List.mem_append_right _ (List.mem_singleton_self _)

/-- Requests to interrupt the others stay as they are. -/
theorem requests_interrupt_other {target : FiberId} (h : f ≠ target) (w : World)
    (source : FiberId) : (w.interrupt target source).requests f = w.requests f := by
  rw [(w.sameBonds_interrupt target source).requests, requests_eq_bonds, requests_eq_bonds,
    recordInterruptor, bonds_modifyFiber_other h]

theorem requests_interrupt_grow (w : World) (target source : FiberId) :
    w.requests f <+: (w.interrupt target source).requests f := by
  rw [(w.sameBonds_interrupt target source).requests]
  obtain ⟨_, hrecord⟩ := w.influences_recordInterruptor target source
  exact requests_of_grows hrecord.grows.record

/-- Asks one of some fibers to stop, unless it has finished. -/
def interruptOne (source : FiberId) (w : World) (f : FiberId) : World :=
  if w.store.isFinished f then w else w.interrupt f source

theorem tends_interruptOne (w : World) (source f : FiberId) : w.Tends (interruptOne source w f) := by
  unfold interruptOne
  split
  · exact (SameBonds.refl w).tends
  · exact w.tends_interrupt f source

theorem interruptUnfinished_cons (w : World) (c : FiberId) (fibers : List FiberId)
    (source : FiberId) : w.interruptUnfinished (c :: fibers) source =
      (interruptOne source w c).interruptUnfinished fibers source := rfl

theorem tends_interruptUnfinished (w : World) (fibers : List FiberId) (source : FiberId) :
    w.Tends (w.interruptUnfinished fibers source) := by
  induction fibers generalizing w with
  | nil => exact (SameBonds.refl w).tends
  | cons c fibers ih => exact (w.tends_interruptOne source c).trans (ih _)

theorem requests_interruptUnfinished_grow (w : World) (fibers : List FiberId)
    (source : FiberId) : w.requests f <+: (w.interruptUnfinished fibers source).requests f := by
  induction fibers generalizing w with
  | nil => exact List.prefix_refl _
  | cons c fibers ih =>
    refine List.IsPrefix.trans ?_ (ih (interruptOne source w c))
    unfold interruptOne
    split
    · exact List.prefix_refl _
    · exact w.requests_interrupt_grow c source

/-- Requests to interrupt the others stay as they are. -/
theorem requests_interruptUnfinished_other {fibers : List FiberId} (h : f ∉ fibers) (w : World)
    (source : FiberId) : (w.interruptUnfinished fibers source).requests f = w.requests f := by
  induction fibers generalizing w with
  | nil => rfl
  | cons c fibers ih =>
    obtain ⟨hne, hrest⟩ := List.ne_and_not_mem_of_not_mem_cons h
    rw [interruptUnfinished_cons, ih hrest, interruptOne]
    split
    · rfl
    · exact requests_interrupt_other hne w source

/-- Each of the fibers has finished or is asked to stop. -/
theorem mem_requests_interruptUnfinished {fibers : List FiberId} {c : FiberId} (h : c ∈ fibers)
    (hborn : (w.store.fiber? c).isSome) (source : FiberId) :
    w.store.isFinished c = true ∨ source ∈ (w.interruptUnfinished fibers source).requests c := by
  induction fibers generalizing w with
  | nil => cases h
  | cons c' fibers ih =>
    rw [interruptUnfinished_cons]
    rcases List.mem_cons.mp h with rfl | hmem
    · cases hfinished : w.store.isFinished c with
      | true => exact Or.inl rfl
      | false =>
        refine Or.inr ((requests_interruptUnfinished_grow _ _ _).subset ?_)
        rw [interruptOne, hfinished]
        exact mem_requests_interrupt hborn source
    · have hone := w.tends_interruptOne source c'
      rw [← hone.finished]
      exact ih hmem (hone.born hborn)

/-! ### The end of a fiber -/

/-- A fiber no longer remembers its children. -/
def forgetChildren (w : World) (fiber : FiberId) : World :=
  w.modifyFiber fiber fun f => { f with children := [] }

/-- The children of a fiber that ends have been asked to stop. -/
def dismiss (w : World) (fiber : FiberId) : World :=
  (w.forgetChildren fiber).interruptUnfinished (w.children fiber) fiber

/-- A fiber has ended, and nobody has been told yet. -/
def ending (w : World) (fiber : FiberId) (outcome : Outcome) : World :=
  (w.dismiss fiber).finish fiber outcome

/-- Who is told that a fiber has ended. -/
def audience (w : World) (fiber : FiberId) : List Observer :=
  (((w.dismiss fiber).store.fiber? fiber).map FiberRecord.observers).getD []

/-- Some observers are told that a fiber has ended. -/
def notifyAll (w : World) (fiber : FiberId) (observers : List Observer) : World :=
  observers.foldl (fun w observer => w.notify fiber observer) w

/-- A fiber ends, and then everybody who has asked for it is told. -/
theorem complete_eq {fiber : FiberId} (h : (w.store.fiber? fiber).isSome) (outcome : Outcome) :
    w.complete fiber outcome = (w.ending fiber outcome).notifyAll fiber (w.audience fiber) := by
  obtain ⟨r, hr⟩ := Option.isSome_iff_exists.mp h
  simp only [complete, ending, audience, dismiss, children, hr, Option.map_some, Option.getD_some]
  rfl

theorem influences_dismiss (hsound : w.Sound) (fiber : FiberId) :
    w.Influences (w.dismiss fiber) := by
  have hforget : w.Influences (w.forgetChildren fiber) :=
    .modifyFiber w fiber fun _ => ⟨rfl, List.prefix_refl _, rfl, List.prefix_refl _⟩
  exact hforget.trans (influences_interruptUnfinished (hforget.sound hsound) _ fiber)

theorem sameBonds_notifyAll (w : World) (fiber : FiberId) (observers : List Observer) :
    w.SameBonds (w.notifyAll fiber observers) :=
  .foldl (fun w observer => w.sameBonds_notify fiber observer) observers w

theorem isSome_modifyFiber (w : World) (id : FiberId) (g : FiberRecord → FiberRecord) :
    ((w.modifyFiber id g).store.fiber? f).isSome = (w.store.fiber? f).isSome := by
  simp only [World.modifyFiber, Store.fiber?_modifyFiber]
  split
  · next heq => rw [heq, Option.isSome_map]
  · rfl

section Ending

variable (w) (fiber : FiberId) (outcome : Outcome)

theorem requests_dismiss_grow (f : FiberId) :
    w.requests f <+: (w.dismiss fiber).requests f := by
  have hforget : (w.forgetChildren fiber).requests f = w.requests f :=
    requests_modifyFiber w fiber f fun _ => rfl
  rw [← hforget]
  exact requests_interruptUnfinished_grow _ _ _

theorem isFinished_dismiss (f : FiberId) :
    (w.dismiss fiber).store.isFinished f = w.store.isFinished f := by
  have hforget : (w.forgetChildren fiber).store.isFinished f = w.store.isFinished f :=
    isFinished_modifyFiber w fiber f fun _ => rfl
  rw [← hforget]
  exact (tends_interruptUnfinished _ _ _).finished f

theorem requests_ending (f : FiberId) :
    (w.ending fiber outcome).requests f = (w.dismiss fiber).requests f :=
  requests_modifyFiber _ fiber f fun _ => rfl

theorem requests_ending_grow (f : FiberId) :
    w.requests f <+: (w.ending fiber outcome).requests f := by
  rw [requests_ending]
  exact w.requests_dismiss_grow fiber f

/-- **The end of a fiber asks nobody to stop but its children.** -/
theorem requests_ending_other {c : FiberId} (h : c ∉ w.children fiber) :
    (w.ending fiber outcome).requests c = w.requests c := by
  have hforget : (w.forgetChildren fiber).requests c = w.requests c :=
    requests_modifyFiber w fiber c fun _ => rfl
  rw [requests_ending, ← hforget]
  exact requests_interruptUnfinished_other h _ fiber

/-- **The children of a fiber that ends are asked to stop unless they have finished.** -/
theorem mem_requests_ending {c : FiberId} (h : c ∈ w.children fiber)
    (hborn : (w.store.fiber? c).isSome) :
    w.store.isFinished c = true ∨ fiber ∈ (w.ending fiber outcome).requests c := by
  have hforget : (w.forgetChildren fiber).store.isFinished c = w.store.isFinished c :=
    isFinished_modifyFiber w fiber c fun _ => rfl
  have hborn' : ((w.forgetChildren fiber).store.fiber? c).isSome := by
    rw [forgetChildren, isSome_modifyFiber]
    exact hborn
  rw [requests_ending, ← hforget]
  exact mem_requests_interruptUnfinished h hborn' fiber

/-- The others have finished or not as before. -/
theorem isFinished_ending_other {f : FiberId} (h : f ≠ fiber) :
    (w.ending fiber outcome).store.isFinished f = w.store.isFinished f := by
  rw [isFinished_eq_bonds, ending, finish, bonds_modifyFiber_other h, ← isFinished_eq_bonds,
    isFinished_dismiss]

theorem isFinished_ending_self (h : (w.store.fiber? fiber).isSome) :
    (w.ending fiber outcome).store.isFinished fiber = true := by
  have hborn : ((w.dismiss fiber).store.fiber? fiber).isSome :=
    (tends_interruptUnfinished _ _ _).born (by rwa [forgetChildren, isSome_modifyFiber])
  obtain ⟨r, hr⟩ := Option.isSome_iff_exists.mp hborn
  simp [ending, finish, World.modifyFiber, Store.isFinished, Store.fiber?_modifyFiber, hr]

theorem isFinished_ending {f : FiberId} (h : w.store.isFinished f = true) :
    (w.ending fiber outcome).store.isFinished f = true := by
  by_cases heq : f = fiber
  · subst heq
    obtain ⟨r, hr, -⟩ := (Option.any_eq_true ..).mp h
    exact w.isFinished_ending_self f outcome (by rw [hr]; rfl)
  · rw [w.isFinished_ending_other fiber outcome heq, h]

/-- The others remember their children. -/
theorem children_ending_other {f : FiberId} (h : f ≠ fiber) :
    (w.ending fiber outcome).children f = w.children f := by
  rw [children_eq_bonds, ending, finish, bonds_modifyFiber_other h, ← children_eq_bonds, dismiss,
    (tends_interruptUnfinished _ _ _).children, children_eq_bonds, forgetChildren,
    bonds_modifyFiber_other h, ← children_eq_bonds]

/-- What has ended remembers no children. -/
theorem children_ending_self : (w.ending fiber outcome).children fiber = [] := by
  have hdismiss : (w.dismiss fiber).children fiber = [] := by
    rw [dismiss, (tends_interruptUnfinished _ _ _).children, children, forgetChildren,
      World.modifyFiber, Store.fiber?_modifyFiber, if_pos rfl]
    cases w.store.fiber? fiber <;> rfl
  rw [← hdismiss, children, children, ending, finish, World.modifyFiber, Store.fiber?_modifyFiber,
    if_pos rfl, Option.map_map]
  rfl

theorem born_ending {f : FiberId} (h : (w.store.fiber? f).isSome) :
    ((w.ending fiber outcome).store.fiber? f).isSome := by
  rw [ending, finish, isSome_modifyFiber]
  exact (tends_interruptUnfinished _ _ _).born (by rwa [forgetChildren, isSome_modifyFiber])

end Ending

/-! ### The start of a fiber -/

end World

theorem Store.mem_withChild {s : Store} {children : List FiberId} {child c : FiberId} :
    c ∈ s.withChild children child ↔
      c = child ∨ c ∈ children ∧ (manyChildren ≤ children.length → s.isFinished c = false) := by
  unfold withChild
  split <;> simp [*, or_comm]

namespace World

variable {w w' : World} {f : FiberId}

theorem isFinished_addChild (w : World) (parent child f : FiberId) :
    (w.addChild parent child).store.isFinished f = w.store.isFinished f :=
  isFinished_modifyFiber w parent f fun _ => rfl

section Fork

variable (w) (parent : FiberId) (run : RunState) (child : Instruction)

theorem fork_daemon : w.Tends (w.fork parent run child true).2 := by
  have hpush := Tends.push w (r := {}) rfl rfl
  exact ⟨hpush.finished, hpush.children, hpush.born⟩

theorem isFinished_fork (daemon : Bool) (f : FiberId) :
    (w.fork parent run child daemon).2.store.isFinished f = w.store.isFinished f := by
  have hpush := Tends.push w (r := {}) rfl rfl
  cases daemon with
  | true => exact hpush.finished f
  | false => exact (isFinished_addChild _ parent _ f).trans (hpush.finished f)

/-- A fiber that starts a child remembers it, and may forget some that have finished. -/
theorem mem_children_fork (hparent : (w.store.fiber? parent).isSome) {c : FiberId} :
    c ∈ (w.fork parent run child false).2.children f ↔
      (f = parent ∧ c = w.store.nextFiber) ∨ c ∈ w.children f ∧
        (f = parent → Store.manyChildren ≤ (w.children f).length → w.store.isFinished c = false) := by
  have hpush := Tends.push w (r := {}) rfl rfl
  have hborn := hpush.born hparent
  generalize hw₁ : ({ w with store := { w.store with fibers := w.store.fibers.push {} } } : World) = w₁
    at hpush hborn
  have hfork : (w.fork parent run child false).2.children f =
      (w₁.addChild parent w.store.nextFiber).children f := by
    rw [← hw₁]
    rfl
  rw [hfork, ← hpush.finished, ← hpush.children]
  by_cases heq : f = parent
  · subst heq
    obtain ⟨r, hr⟩ := Option.isSome_iff_exists.mp hborn
    have hadd : (w₁.addChild f w.store.nextFiber).children f =
        w₁.store.withChild (w₁.children f) w.store.nextFiber := by
      simp [children, addChild, World.modifyFiber, Store.fiber?_modifyFiber, hr]
    rw [hadd, Store.mem_withChild]
    simp
  · rw [children_eq_bonds, addChild, bonds_modifyFiber_other heq, ← children_eq_bonds]
    simp [heq]

theorem born_fork (daemon : Bool) {f : FiberId}
    (h : (w.store.fiber? f).isSome ∨ f = w.store.nextFiber) :
    ((w.fork parent run child daemon).2.store.fiber? f).isSome := by
  obtain ⟨-, ⟨r, hr, -⟩, hrecord, -⟩ := w.bears_fork parent run child daemon
  by_cases heq : f = w.store.nextFiber
  · rw [heq, hr]
    rfl
  · obtain ⟨r', hr'⟩ := Option.isSome_iff_exists.mp (h.resolve_right heq)
    obtain ⟨r'', hr'', -⟩ := hrecord heq hr'
    rw [hr'']
    rfl

theorem requests_fork_grow (daemon : Bool) (f : FiberId) :
    w.requests f <+: (w.fork parent run child daemon).2.requests f :=
  (w.carries_fork parent run child daemon).requests f

end Fork

/-! ### Everything else -/

/-- What a fiber does changes nothing about other fibers, unless it ends, starts one or asks one to
stop. -/
theorem sameBonds_carryOut (w : World) (fiber : FiberId) {plan : Plan}
    (hfinish : ∀ outcome, plan ≠ .finish outcome)
    (hfork : ∀ run child daemon, plan ≠ .fork run child daemon)
    (hsignal : ∀ run target, plan ≠ .signal run target) :
    w.SameBonds (w.carryOut fiber plan).2 := by
  cases plan with
  | finish outcome => exact absurd rfl (hfinish outcome)
  | fork run child daemon => exact absurd rfl (hfork run child daemon)
  | signal run target => exact absurd rfl (hsignal run target)
  | proceed run step => exact .refl w
  | build run code | translate run code | compute run code => exact sameBonds_run code w
  | update run cell g => exact w.sameBonds_attemptUpdate cell g
  | release run id exit => exact sameBonds_buildRelease id exit w
  | releaseLease run lease exit =>
    rcases w.carryOut_releaseLease fiber run lease exit with heq | ⟨release, leases, heq⟩ <;> rw [heq]
    · exact .refl w
    · have hleased : w.SameBonds { w with store := { w.store with leases } } := .of_fibers rfl
      exact hleased.trans (sameBonds_buildRelease release exit _)
  | reserve run v release => exact .of_fibers rfl
  | wait run registration =>
    rw [carryOut_wait]
    exact w.sameBonds_park fiber run registration
  | makeWay run => exact .of_fibers rfl

/-- **Whatever a fiber does, it forgets no child but by ending and by starting one.** -/
theorem tends_carryOut (w : World) (fiber : FiberId) {plan : Plan}
    (hfinish : ∀ outcome, plan ≠ .finish outcome)
    (hfork : ∀ run child daemon, plan ≠ .fork run child daemon) :
    w.Tends (w.carryOut fiber plan).2 := by
  by_cases hsignal : ∃ run target, plan = .signal run target
  · obtain ⟨run, target, rfl⟩ := hsignal
    exact w.tends_interrupt target fiber
  · refine (w.sameBonds_carryOut fiber hfinish hfork fun run target heq => ?_).tends
    exact hsignal ⟨run, target, heq⟩

end World

end Fibers
