import Fibers.Proofs.Operations

/-!
# Worlds that agree but for requests

Two worlds are alike for a fiber if they differ in nothing but who has asked that fiber to stop, and
in how the queue of the fibers that are ready is held.  The runtime looks at requests in few places:
where a fiber is about to do something with interruption allowed, where it is parked, and where it
is woken up for a request.  Every operation that does not come to one of these replies the same in
worlds that are alike, and leaves worlds that are alike.

A request for the fiber itself comes to such a place only if the fiber is parked where its wait can
be interrupted.  As long as it is not, `World.Deaf`, a request is recorded, and that is all.

## Main definitions

* `Numbered.AlikeBut` — tables that tell the same of all fibers, but for the requests for one.
* `World.Alike` — worlds that are alike for a fiber.
* `Matches` — the same reply, with worlds that are alike.
* `World.Deaf` — a fiber that is not parked where its wait can be interrupted.

## Main results

* `World.Alike.run` — whatever an action does, it does alike.
* `World.Alike.interrupt`, `World.Deaf.alike_interrupt` — requests for interruption.
* `World.Alike.complete`, `World.Alike.park` — the end of a fiber, and a whole wait.
-/

namespace Fibers

/-- A plan to wait is made for the state in which the fiber is. -/
theorem Step.rest_of_plan_wait {pending : Option FiberId} {fiber : FiberId} {run rest : RunState}
    {step : Step} {registration : Registration}
    (h : step.plan pending fiber run = .wait rest registration) : rest = run := by
  cases step with
  | eval i =>
    cases i <;> first | exact (Plan.wait.inj h).1.symm | cases h
  | attempt cell f => cases h
  | value v =>
    rcases run.planValue_cases v with ⟨heq, -⟩ | ⟨rest', code, heq⟩ | ⟨rest', heq⟩ <;>
      rw [Step.plan, heq] at h <;> cases h
  | halt failure =>
    rcases run.planHalt_cases pending failure with
      ⟨heq, -⟩ | ⟨-, rest', code, heq⟩ | ⟨rest', code, heq⟩ | ⟨rest', failure', heq⟩ <;>
      rw [Step.plan, heq] at h <;> cases h

/-! ### Tables of fibers -/

/-- What is known of a fiber but for who has asked it to stop. -/
def FiberRecord.unasked (r : FiberRecord) : FiberRecord := { r with interruptors := [] }

/-- Tables that tell the same of all fibers, but for who has asked one of them to stop. -/
structure Numbered.AlikeBut (f : FiberId) (t t' : Numbered FiberRecord) : Prop where
  first : t'.first = t.first
  next : t'.next = t.next
  other : ∀ {id : FiberId}, id ≠ f → t'.get? id.raw = t.get? id.raw
  self : (t'.get? f.raw).map FiberRecord.unasked = (t.get? f.raw).map FiberRecord.unasked

namespace Numbered

theorem first_modify {α : Type} (t : Numbered α) (n : Nat) (φ : α → α) :
    (t.modify n φ).first = t.first := by
  unfold modify
  split <;> rfl

/-- A table is determined by its first number and its entries. -/
theorem ext_get? {α : Type} {t t' : Numbered α} (hfirst : t'.first = t.first)
    (h : ∀ n, t'.get? n = t.get? n) : t' = t := by
  obtain ⟨first, entries⟩ := t
  obtain ⟨first', entries'⟩ := t'
  obtain rfl : first' = first := hfirst
  refine congrArg (Numbered.mk first') (Array.ext_getElem? fun i => ?_)
  simpa [get?] using h (first' + i)

namespace AlikeBut

variable {f : FiberId} {t t' t'' : Numbered FiberRecord}

theorem refl (f : FiberId) (t : Numbered FiberRecord) : AlikeBut f t t := ⟨rfl, rfl, fun _ => rfl, rfl⟩

theorem symm (h : AlikeBut f t t') : AlikeBut f t' t :=
  ⟨h.first.symm, h.next.symm, fun hne => (h.other hne).symm, h.self.symm⟩

theorem trans (h : AlikeBut f t t') (h' : AlikeBut f t' t'') : AlikeBut f t t'' :=
  ⟨h'.first.trans h.first, h'.next.trans h.next, fun hne => (h'.other hne).trans (h.other hne),
    h'.self.trans h.self⟩

/-- What is known of a fiber but for requests. -/
theorem unasked (h : AlikeBut f t t') (id : FiberId) :
    (t'.get? id.raw).map FiberRecord.unasked = (t.get? id.raw).map FiberRecord.unasked := by
  by_cases hid : id = f
  · exact hid ▸ h.self
  · rw [h.other hid]

/-- What does not depend on requests is the same. -/
theorem map_eq {β : Type} (h : AlikeBut f t t') {π : FiberRecord → β}
    (hπ : ∀ r : FiberRecord, π r.unasked = π r) (id : FiberId) :
    (t'.get? id.raw).map π = (t.get? id.raw).map π := by
  have hfactor : ∀ o : Option FiberRecord, o.map π = (o.map FiberRecord.unasked).map π := by
    intro o
    cases o with
    | none => rfl
    | some r => exact congrArg some (hπ r).symm
  rw [hfactor, h.unasked, ← hfactor]

theorem push (h : AlikeBut f t t') (r : FiberRecord) : AlikeBut f (t.push r) (t'.push r) where
  first := h.first
  next := by rw [next_push, next_push, h.next]
  other hne := by rw [get?_push, get?_push, h.next, h.other hne]
  self := by
    rw [get?_push, get?_push, h.next]
    split
    · rfl
    · exact h.self

/-- The record of a fiber is changed, without a look at the requests for the one. -/
theorem modify {φ : FiberRecord → FiberRecord} (h : AlikeBut f t t') (id : FiberId)
    (hφ : ∀ r : FiberRecord, (φ r).unasked = (φ r.unasked).unasked ∨ id ≠ f) :
    AlikeBut f (t.modify id.raw φ) (t'.modify id.raw φ) where
  first := by rw [first_modify, first_modify, h.first]
  next := by rw [next_modify, next_modify, h.next]
  other hne := by rw [get?_modify, get?_modify, h.other hne]
  self := by
    rw [get?_modify, get?_modify]
    split
    · next heq =>
      have hid : id = f := by
        cases id
        cases f
        simp_all
      have hφ' : ∀ r : FiberRecord, (φ r).unasked = (φ r.unasked).unasked := fun r =>
        (hφ r).resolve_right fun hne => hne hid
      have hmap : ∀ o : Option FiberRecord, (o.map φ).map FiberRecord.unasked =
          ((o.map FiberRecord.unasked).map φ).map FiberRecord.unasked := by
        intro o
        cases o with
        | none => rfl
        | some r => exact congrArg some (hφ' r)
      rw [hmap, h.self, ← hmap]
    · exact h.self

/-- Only requests for the one are recorded. -/
theorem modify_self {φ : FiberRecord → FiberRecord} (t : Numbered FiberRecord)
    (hφ : ∀ r : FiberRecord, (φ r).unasked = r.unasked) : AlikeBut f t (t.modify f.raw φ) where
  first := first_modify t _ _
  next := next_modify t _ _
  other {id} hne := by
    have hraw : id.raw ≠ f.raw := fun heq => hne (by cases id; cases f; simp_all)
    rw [get?_modify, if_neg hraw]
  self := by
    rw [get?_modify, if_pos rfl]
    cases t.get? f.raw with
    | none => rfl
    | some r => exact congrArg some (hφ r)

/-- Programs see the same. -/
theorem map_shown (h : AlikeBut f t t') :
    t'.map FiberRecord.shown = t.map FiberRecord.shown := by
  refine ext_get? h.first fun n => ?_
  rw [get?_map, get?_map]
  exact h.map_eq (fun _ => rfl) ⟨n⟩

end AlikeBut

end Numbered

/-! ### Worlds -/

namespace World

/-- A world with another table of fibers and another queue. -/
def under (w : World) (fibers : Numbered FiberRecord) (tasks : Fifo Task) : World :=
  { w with store := { w.store with fibers }, tasks }

/-- Worlds that differ in nothing but who has asked a fiber to stop, and in how the queue of the
fibers that are ready is held. -/
def Alike (f : FiberId) (w w' : World) : Prop :=
  ∃ fibers tasks, Numbered.AlikeBut f w.store.fibers fibers ∧ tasks.toList = w.tasks.toList ∧
    w' = w.under fibers tasks

end World

/-- The same reply, with worlds that are alike. -/
structure Matches {α : Type} (f : FiberId) (x x' : α × World) : Prop where
  reply : x'.1 = x.1
  world : x.2.Alike f x'.2

theorem Matches.exists_eq {α : Type} {f : FiberId} {x x' : α × World} (h : Matches f x x') :
    ∃ a w w', x = (a, w) ∧ x' = (a, w') ∧ w.Alike f w' :=
  ⟨x.1, x.2, x'.2, rfl, Prod.ext h.reply rfl, h.world⟩

namespace World

variable {f : FiberId} {w w' w'' : World}

namespace Alike

theorem refl (f : FiberId) (w : World) : w.Alike f w :=
  ⟨w.store.fibers, w.tasks, .refl f _, rfl, rfl⟩

theorem symm (h : w.Alike f w') : w'.Alike f w := by
  obtain ⟨fibers, tasks, hfibers, htasks, rfl⟩ := h
  exact ⟨w.store.fibers, w.tasks, hfibers.symm, htasks.symm, rfl⟩

theorem trans (h : w.Alike f w') (h' : w'.Alike f w'') : w.Alike f w'' := by
  obtain ⟨fibers, tasks, hfibers, htasks, rfl⟩ := h
  obtain ⟨fibers', tasks', hfibers', htasks', rfl⟩ := h'
  exact ⟨fibers', tasks', hfibers.trans hfibers', htasks'.trans htasks, rfl⟩

/-! ### Looking -/

theorem suspension? (h : w.Alike f w') (s : SuspensionId) : w'.suspension? s = w.suspension? s := by
  obtain ⟨fibers, tasks, -, -, rfl⟩ := h
  rfl

theorem isLive (h : w.Alike f w') : w'.isLive = w.isLive := by
  obtain ⟨fibers, tasks, -, -, rfl⟩ := h
  rfl

theorem isOpen (h : w.Alike f w') (s : SuspensionId) : w'.isOpen s = w.isOpen s := by
  rw [World.isOpen, h.suspension?, World.isOpen]

theorem isInterruptible (h : w.Alike f w') (s : SuspensionId) :
    w'.isInterruptible s = w.isInterruptible s := by
  rw [World.isInterruptible, h.suspension?, World.isInterruptible]

theorem channel? (h : w.Alike f w') (c : ChannelId) : w'.store.channel? c = w.store.channel? c := by
  obtain ⟨fibers, tasks, -, -, rfl⟩ := h
  rfl

theorem cell? (h : w.Alike f w') (c : CellId) : w'.store.cell? c = w.store.cell? c := by
  obtain ⟨fibers, tasks, -, -, rfl⟩ := h
  rfl

theorem map_fiber? {β : Type} (h : w.Alike f w') {π : FiberRecord → β}
    (hπ : ∀ r : FiberRecord, π r.unasked = π r) (id : FiberId) :
    (w'.store.fiber? id).map π = (w.store.fiber? id).map π := by
  obtain ⟨fibers, tasks, hfibers, -, rfl⟩ := h
  exact hfibers.map_eq hπ id

theorem fiber?_other (h : w.Alike f w') {id : FiberId} (hne : id ≠ f) :
    w'.store.fiber? id = w.store.fiber? id := by
  obtain ⟨fibers, tasks, hfibers, -, rfl⟩ := h
  exact hfibers.other hne

theorem isFinished (h : w.Alike f w') (id : FiberId) :
    w'.store.isFinished id = w.store.isFinished id := by
  have hmap := h.map_fiber? (π := FiberRecord.finished) (fun _ => rfl) id
  have hany : ∀ o : Option FiberRecord,
      o.any FiberRecord.finished = (o.map FiberRecord.finished).getD false := by
    intro o
    cases o <;> rfl
  rw [Store.isFinished, hany, hmap, ← hany]
  rfl

theorem hasFailed (h : w.Alike f w') (id : FiberId) :
    w'.store.hasFailed id = w.store.hasFailed id := by
  have hmap := h.map_fiber? (π := FiberRecord.hasFailed) (fun _ => rfl) id
  have hany : ∀ o : Option FiberRecord,
      o.any FiberRecord.hasFailed = (o.map FiberRecord.hasFailed).getD false := by
    intro o
    cases o <;> rfl
  rw [Store.hasFailed, hany, hmap, ← hany]
  rfl

theorem bind_fiber? {β : Type} (h : w.Alike f w') {π : FiberRecord → Option β}
    (hπ : ∀ r : FiberRecord, π r.unasked = π r) (id : FiberId) :
    (w'.store.fiber? id).bind π = (w.store.fiber? id).bind π := by
  have hmap := h.map_fiber? hπ id
  have hbind : ∀ o : Option FiberRecord, o.bind π = (o.map π).join := by
    intro o
    cases o <;> rfl
  rw [hbind, hmap, ← hbind]

theorem isInterrupted_other (h : w.Alike f w') {id : FiberId} (hne : id ≠ f) :
    w'.store.isInterrupted id = w.store.isInterrupted id := by
  rw [Store.isInterrupted, h.fiber?_other hne, Store.isInterrupted]

theorem interruptor_other (h : w.Alike f w') {id : FiberId} (hne : id ≠ f) :
    w'.store.interruptor id = w.store.interruptor id := by
  rw [Store.interruptor, h.fiber?_other hne, Store.interruptor]

/-! ### Changing -/

theorem schedule (h : w.Alike f w') (fiber : FiberId) (run : RunState) (step : Step) :
    (w.schedule fiber run step).Alike f (w'.schedule fiber run step) := by
  obtain ⟨fibers, tasks, hfibers, htasks, rfl⟩ := h
  refine ⟨fibers, tasks.push ⟨fiber, run, step⟩, hfibers, ?_, rfl⟩
  change (tasks.push _).toList = (w.tasks.push _).toList
  rw [Fifo.toList_push, Fifo.toList_push, htasks]

theorem setSuspension (h : w.Alike f w') (s : SuspensionId) (state : SuspensionState) :
    (w.setSuspension s state).Alike f (w'.setSuspension s state) := by
  obtain ⟨fibers, tasks, hfibers, htasks, rfl⟩ := h
  exact ⟨fibers, tasks, hfibers, htasks, rfl⟩

theorem setChannel (h : w.Alike f w') (c : ChannelId) (ch : Channel Value SuspensionId) :
    ({ w with store := w.store.setChannel c ch } : World).Alike f
      { w' with store := w'.store.setChannel c ch } := by
  obtain ⟨fibers, tasks, hfibers, htasks, rfl⟩ := h
  exact ⟨fibers, tasks, hfibers, htasks, rfl⟩

theorem modifyFiber {φ : FiberRecord → FiberRecord} (h : w.Alike f w') (id : FiberId)
    (hφ : ∀ r : FiberRecord, (φ r).unasked = (φ r.unasked).unasked ∨ id ≠ f) :
    (w.modifyFiber id φ).Alike f (w'.modifyFiber id φ) := by
  obtain ⟨fibers, tasks, hfibers, htasks, rfl⟩ := h
  exact ⟨_, tasks, hfibers.modify id hφ, htasks, rfl⟩

theorem foldl {α : Type} {g : World → α → World}
    (hg : ∀ (w w' : World) a, w.Alike f w' → (g w a).Alike f (g w' a)) (items : List α)
    (h : w.Alike f w') : (items.foldl g w).Alike f (items.foldl g w') := by
  induction items generalizing w w' with
  | nil => exact h
  | cons a items ih => exact ih (hg w w' a h)

/-! ### Completing waits -/

theorem resume (h : w.Alike f w') (s : SuspensionId) (outcome : Outcome) :
    Matches f (w.resume s outcome) (w'.resume s outcome) := by
  simp only [World.resume, h.suspension?]
  cases w.suspension? s with
  | none => exact ⟨rfl, h⟩
  | some place =>
    simp only
    cases place.state with
    | registering => exact ⟨rfl, h.setSuspension s _⟩
    | waiting run onInterrupt => exact ⟨rfl, (h.setSuspension s _).schedule _ _ _⟩
    | _ => exact ⟨rfl, h⟩

theorem resumeAll (h : w.Alike f w') (places : List SuspensionId) (outcome : Outcome) :
    (w.resumeAll places outcome).Alike f (w'.resumeAll places outcome) :=
  h.foldl (fun _ _ s h => (h.resume s outcome).world) places

theorem answer (h : w.Alike f w') (s : SuspensionId) (outcome : Outcome) :
    Matches f (w.answer s outcome) (w'.answer s outcome) := by
  unfold World.answer
  rw [h.isOpen]
  by_cases hopen : w.isOpen s = true
  · rw [if_pos hopen, if_pos hopen]
    exact h.resume s outcome
  · rw [if_neg hopen, if_neg hopen]
    exact ⟨rfl, h⟩

/-! ### Channels -/

theorem takeElement (h : w.Alike f w') (c : ChannelId) (ch : Channel Value SuspensionId) :
    Matches f (w.takeElement c ch) (w'.takeElement c ch) := by
  simp only [World.takeElement, h.isLive]
  split
  · exact ⟨rfl, (h.setChannel c _).resumeAll _ _⟩
  · exact ⟨rfl, h⟩

theorem takeUpTo (h : w.Alike f w') (c : ChannelId) (limit : Nat) :
    Matches f (w.takeUpTo c limit) (w'.takeUpTo c limit) := by
  induction limit generalizing w w' with
  | zero => exact ⟨rfl, h⟩
  | succ limit ih =>
    simp only [World.takeUpTo, h.channel?]
    split
    · exact ⟨rfl, h⟩
    · next ch _ =>
      obtain ⟨taken, v, v', htake, htake', hworld⟩ := (h.takeElement c ch).exists_eq
      rw [htake, htake']
      cases taken with
      | none => exact ⟨rfl, hworld⟩
      | some a =>
        obtain ⟨hrest, hlast⟩ := ih hworld
        exact ⟨congrArg (a :: ·) hrest, hlast⟩

theorem drain (h : w.Alike f w') (c : ChannelId) (limit : Option Nat) :
    Matches f (w.drain c limit) (w'.drain c limit) := by
  simp only [World.drain, h.channel?]
  split
  · exact ⟨rfl, h⟩
  · next ch _ =>
    split
    · exact ⟨rfl, h⟩
    · obtain ⟨hreply, hworld⟩ := h.takeUpTo c (min ch.size (limit.getD ch.size))
      exact ⟨congrArg Except.ok hreply, hworld⟩

theorem close (h : w.Alike f w') (c : ChannelId) (source : FiberId) :
    (w.close c source).Alike f (w'.close c source) := by
  simp only [World.close, h.channel?]
  split
  · exact h
  · exact ((h.setChannel c _).resumeAll _ _).resumeAll _ _

/-! ### Actions -/

theorem perform (h : w.Alike f w') (op : Operation) : Matches f (w.perform op) (w'.perform op) := by
  cases op with
  | drain c limit => exact h.drain c limit
  | close c source => exact ⟨rfl, h.close c source⟩
  | complete waiter outcome => exact h.answer waiter outcome
  | newChannel capacity =>
    obtain ⟨fibers, tasks, hfibers, htasks, rfl⟩ := h
    simp only [World.perform]
    split
    · exact ⟨rfl, fibers, tasks, hfibers, htasks, rfl⟩
    · exact ⟨rfl, fibers, tasks, hfibers, htasks, rfl⟩
  | observe =>
    have hworld := h
    obtain ⟨fibers, tasks, hfibers, -, rfl⟩ := h
    refine ⟨?_, hworld⟩
    simp only [World.perform, under, Store.shown, hfibers.map_shown]
    rfl
  | log _ | newCell _ | writeCell _ _ | keep _ _ | newMark | useMark _ | newLease _ =>
    obtain ⟨fibers, tasks, hfibers, htasks, rfl⟩ := h
    exact ⟨rfl, fibers, tasks, hfibers, htasks, rfl⟩

/-- **Whatever an action does, it does alike.** -/
theorem run {α : Type} (a : Action α) (h : w.Alike f w') : Matches f (a.run w) (a.run w') := by
  induction a generalizing w w' with
  | done a => exact ⟨rfl, h⟩
  | panic d => exact ⟨rfl, h⟩
  | perform op next ih =>
    obtain ⟨hreply, hworld⟩ := h.perform op
    rw [Action.run_perform, Action.run_perform, hreply]
    exact ih _ hworld

/-! ### Cells and releases -/

theorem commitUpdate (h : w.Alike f w') (cell : CellId) (version : Nat) (update : Update Value) :
    Matches f (w.commitUpdate cell version update) (w'.commitUpdate cell version update) := by
  have hwrite : ∀ c, (w.setCell cell c).Alike f (w'.setCell cell c) := by
    obtain ⟨fibers, tasks, hfibers, htasks, rfl⟩ := h
    exact fun c => ⟨fibers, tasks, hfibers, htasks, rfl⟩
  simp only [World.commitUpdate, h.cell?]
  split
  · exact ⟨rfl, h⟩
  · split
    · exact ⟨rfl, h⟩
    · exact ⟨rfl, hwrite _⟩

theorem attemptUpdate (h : w.Alike f w') (cell : CellId) (g : Value → Action (Update Value)) :
    Matches f (w.attemptUpdate cell g) (w'.attemptUpdate cell g) := by
  unfold World.attemptUpdate
  rw [h.cell?]
  cases w.store.cell? cell with
  | none => exact ⟨rfl, h⟩
  | some c =>
    obtain ⟨result, v, v', hrun, hrun', hworld⟩ := (h.run (g c.value)).exists_eq
    simp only [hrun, hrun']
    cases result with
    | error d => exact ⟨rfl, hworld⟩
    | ok update => exact hworld.commitUpdate cell c.version update

/-- A release is built alike. -/
theorem buildRelease (release : ReleaseId) (x : Exit Value Value) (h : w.Alike f w') :
    Matches f (w.buildRelease release x) (w'.buildRelease release x) := by
  -- a release is built of earlier ones
  induction hindex : release.index using Nat.strongRecOn generalizing release w w' with
  | _ index ih =>
    subst hindex
    have hreleases : w'.releases = w.releases := by
      obtain ⟨fibers, tasks, -, -, rfl⟩ := h
      rfl
    rw [World.buildRelease, World.buildRelease, hreleases]
    cases w.releases.get? release.index with
    | none => exact ⟨rfl, h⟩
    | some r =>
      cases r with
      | code build => exact h.run (build x)
      | nested type inner outer =>
        simp only
        split
        · next hlt =>
          obtain ⟨hreply, hworld⟩ := ih _ hlt inner h rfl
          exact ⟨by rw [hreply], hworld⟩
        · exact ⟨rfl, h⟩
      | both type left right =>
        simp only
        split
        · next hlt =>
          obtain ⟨hleft, hworld⟩ := ih _ hlt.1 left h rfl
          obtain ⟨hright, hworld'⟩ := ih _ hlt.2 right hworld rfl
          exact ⟨by rw [hleft, hright], hworld'⟩
        · exact ⟨rfl, h⟩
      | within environment inner =>
        simp only
        split
        · next hlt =>
          obtain ⟨built, v, v', hbuild, hbuild', hworld⟩ := (ih _ hlt inner h rfl).exists_eq
          rw [hbuild, hbuild']
          cases built with
          | ok i | error d => exact ⟨rfl, hworld⟩
        · exact ⟨rfl, h⟩

/-! ### Interruption -/

theorem cancel (h : w.Alike f w') (onInterrupt : Canceler) :
    (w.cancel onInterrupt).Alike f (w'.cancel onInterrupt) := by
  cases onInterrupt with
  | nothing => exact h
  | alarm key =>
    obtain ⟨fibers, tasks, hfibers, htasks, rfl⟩ := h
    exact ⟨fibers, tasks, hfibers, htasks, rfl⟩
  | leave c line ticket =>
    simp only [World.cancel, h.channel?]
    split
    · exact h
    · exact h.setChannel c _
  | action a => exact (h.run a).world

theorem interruptAt (h : w.Alike f w') (fiber : FiberId) (s : SuspensionId) (source : FiberId) :
    (w.interruptAt fiber s source).Alike f (w'.interruptAt fiber s source) := by
  unfold World.interruptAt
  rw [h.suspension?]
  split
  · exact ((h.setSuspension s _).cancel _).schedule _ _ _
  · exact h

/-- A request for the interruption of another fiber. -/
theorem interrupt_other (h : w.Alike f w') {target : FiberId} (hne : target ≠ f)
    (source : FiberId) : (w.interrupt target source).Alike f (w'.interrupt target source) := by
  have hrecord := h.modifyFiber (φ := fun r => if r.interruptors.contains source then r
    else { r with interruptors := r.interruptors ++ [source] }) target fun _ => Or.inr hne
  change (w.recordInterruptor target source).Alike f (w'.recordInterruptor target source) at hrecord
  unfold World.interrupt
  simp only [hrecord.bind_fiber? (π := FiberRecord.suspension) (fun _ => rfl),
    hrecord.isInterruptible, hrecord.interruptor_other hne]
  split
  · exact hrecord
  · next s _ =>
    by_cases hopen : (w.recordInterruptor target source).isInterruptible s = true
    · rw [if_pos hopen, if_pos hopen]
      exact hrecord.interruptAt target s _
    · rw [if_neg hopen, if_neg hopen]
      exact hrecord

end Alike

/-- A fiber is not parked where its wait can be interrupted. -/
def Deaf (f : FiberId) (w : World) : Prop :=
  ∀ s p, (w.store.fiber? f).bind FiberRecord.suspension = some s → w.suspension? s = some p →
    p.interruptible = true → p.state.run? = none

namespace Deaf

theorem of_alike (h : w.Deaf f) (halike : w.Alike f w') : w'.Deaf f := by
  intro s p hs hp
  rw [halike.bind_fiber? fun _ => rfl] at hs
  rw [halike.suspension?] at hp
  exact h s p hs hp

/-- A fiber that is not parked does not come to be parked while others do something. -/
theorem of_influences (h : w.Deaf f) (hw : w.Influences w') : w'.Deaf f := by
  obtain ⟨events, hw⟩ := hw
  intro s p' hs hp' hopen
  obtain ⟨r', hr', hsuspension⟩ := Option.bind_eq_some_iff.mp hs
  cases hr : w.store.fiber? f with
  | none =>
    rw [hw.grows.absent hr] at hr'
    cases hr'
  | some r =>
    obtain ⟨r₁, hr₁, hgrows⟩ := hw.grows.record hr
    obtain rfl := Option.some.inj (hr₁.symm.trans hr')
    cases hp : w.suspension? s with
    | none =>
      rw [hw.no_place hp] at hp'
      cases hp'
    | some p =>
      obtain ⟨p₁, hp₁, hkeeps⟩ := hw.place hp
      obtain rfl := Option.some.inj (hp₁.symm.trans hp')
      have hs' : (w.store.fiber? f).bind FiberRecord.suspension = some s := by
        rw [hr, Option.bind_some, ← hgrows.suspension, hsuspension]
      rcases hkeeps.state with heq | hnone
      · rw [heq]
        exact h s p hs' hp (hkeeps.interruptible ▸ hopen)
      · exact hnone

/-- A request is recorded, and that is all. -/
theorem interrupt_eq (h : w.Deaf f) (source : FiberId) :
    w.interrupt f source = w.recordInterruptor f source := by
  have hdeaf := h.of_influences (w.influences_recordInterruptor f source)
  unfold World.interrupt
  simp only
  split
  · rfl
  · next s hs =>
    split
    · next hopen =>
      obtain ⟨p, hp, hallowed⟩ := (Option.any_eq_true ..).mp hopen
      have hvacant := hdeaf s p hs hp hallowed
      unfold World.interruptAt
      rw [hp]
      cases hstate : p.state with
      | waiting run onInterrupt =>
        rw [hstate] at hvacant
        cases hvacant
      | _ => rw [Option.map_some, hstate]
    · rfl

/-- **Whoever does not hear of requests is none the wiser for one.** -/
theorem alike_interrupt (h : w.Deaf f) (source : FiberId) : w.Alike f (w.interrupt f source) := by
  rw [h.interrupt_eq]
  refine ⟨_, w.tasks, Numbered.AlikeBut.modify_self w.store.fibers fun r => ?_, rfl, rfl⟩
  simp only [FiberRecord.unasked]
  split <;> rfl

end Deaf

namespace Alike

/-- A request for the interruption of any fiber, of which the one does not hear. -/
theorem interrupt (h : w.Alike f w') (hdeaf : w.Deaf f) (target source : FiberId) :
    (w.interrupt target source).Alike f (w'.interrupt target source) := by
  by_cases hne : target = f
  · subst hne
    exact ((hdeaf.alike_interrupt source).symm.trans h).trans
      ((hdeaf.of_alike h).alike_interrupt source)
  · exact h.interrupt_other hne source

theorem interruptUnfinished (h : w.Alike f w') (hsound : w.Sound) (hdeaf : w.Deaf f)
    (fibers : List FiberId) (source : FiberId) :
    (w.interruptUnfinished fibers source).Alike f (w'.interruptUnfinished fibers source) := by
  unfold World.interruptUnfinished
  induction fibers generalizing w w' with
  | nil => exact h
  | cons g fibers ih =>
    rw [List.foldl_cons, List.foldl_cons, h.isFinished]
    by_cases hdone : w.store.isFinished g = true
    · rw [if_pos hdone, if_pos hdone]
      exact ih h hsound hdeaf
    · have hinfluences := influences_interrupt hsound g source
      rw [if_neg hdone, if_neg hdone]
      exact ih (h.interrupt hdeaf g source) (hinfluences.sound hsound)
        (hdeaf.of_influences hinfluences)

/-! ### The end of a fiber -/

theorem takeExit (h : w.Alike f w') (fiber : FiberId) :
    Matches f (w.takeExit fiber) (w'.takeExit fiber) := by
  have hnames : w'.store.names = w.store.names := by
    obtain ⟨fibers, tasks, -, -, rfl⟩ := h
    rfl
  simp only [World.takeExit, h.bind_fiber? (π := FiberRecord.exit) (fun _ => rfl), h.isFinished,
    exitTaken, exitMissing, hnames]
  split
  · exact ⟨rfl, h.modifyFiber fiber fun _ => Or.inl rfl⟩
  · exact ⟨rfl, h⟩

theorem restoreExit (h : w.Alike f w') (fiber : FiberId) (outcome : Outcome) :
    (w.restoreExit fiber outcome).Alike f (w'.restoreExit fiber outcome) :=
  h.modifyFiber fiber fun _ => Or.inl rfl

theorem failureVerdict (h : w.Alike f w') (children : List FiberId) (fiber : FiberId)
    (position : Nat) :
    w'.failureVerdict children fiber position = w.failureVerdict children fiber position := by
  simp only [World.failureVerdict, h.hasFailed, h.isFinished]

theorem notify (h : w.Alike f w') (fiber : FiberId) (observer : Observer) :
    (w.notify fiber observer).Alike f (w'.notify fiber observer) := by
  cases observer with
  | report type =>
    obtain ⟨outcome, v, v', htake, htake', hworld⟩ := (h.takeExit fiber).exists_eq
    simp only [World.notify, htake, htake']
    obtain ⟨fibers, tasks, hfibers, htasks, rfl⟩ := hworld
    exact ⟨fibers, tasks, hfibers, htasks, rfl⟩
  | exitTo waiter type =>
    obtain ⟨outcome, v, v', htake, htake', hworld⟩ := (h.takeExit fiber).exists_eq
    simp only [World.notify, htake, htake']
    obtain ⟨accepted, u, u', hresume, hresume', hlast⟩ :=
      (hworld.resume waiter (.done (.exit (outcome.untag type)))).exists_eq
    rw [hresume, hresume']
    cases accepted with
    | true => exact hlast
    | false => exact hlast.restoreExit fiber _
  | firstDone waiter left => exact (h.resume waiter _).world
  | firstFailure waiter children position =>
    simp only [World.notify, h.failureVerdict]
    split
    · exact (h.resume waiter _).world
    · exact h

theorem observe (h : w.Alike f w') (fiber : FiberId) (observer : Observer) :
    (w.observe fiber observer).Alike f (w'.observe fiber observer) := by
  unfold World.observe
  rw [h.isFinished]
  by_cases hdone : w.store.isFinished fiber = true
  · rw [if_pos hdone, if_pos hdone]
    exact h.notify fiber observer
  · rw [if_neg hdone, if_neg hdone]
    exact h.modifyFiber fiber fun _ => Or.inl rfl

/-- **A fiber ends alike.** -/
theorem complete (h : w.Alike f w') (hsound : w.Sound) (hdeaf : w.Deaf f) (fiber : FiberId)
    (outcome : Outcome) : (w.complete fiber outcome).Alike f (w'.complete fiber outcome) := by
  have hchildren := h.map_fiber? (π := FiberRecord.children) (fun _ => rfl) fiber
  unfold World.complete
  cases hr : w.store.fiber? fiber with
  | none =>
    rw [hr, Option.map_none, Option.map_eq_none_iff] at hchildren
    rw [hchildren]
    exact h
  | some r =>
    rw [hr, Option.map_some] at hchildren
    obtain ⟨r', hr', hsame⟩ := Option.map_eq_some_iff.mp hchildren
    rw [hr']
    simp only [hsame]
    -- the children are left alone, then asked to stop; then the observers are told
    have hinfluences := World.Influences.modifyFiber w fiber
      (f := fun r => { r with children := [] })
      fun _ => ⟨rfl, List.prefix_refl _, rfl, List.prefix_refl _⟩
    have hstopped := (h.modifyFiber (φ := fun r => { r with children := [] }) fiber
      fun _ => Or.inl rfl).interruptUnfinished (hinfluences.sound hsound)
      (hdeaf.of_influences hinfluences) r.children fiber
    rw [hstopped.map_fiber? (π := FiberRecord.observers) fun _ => rfl]
    refine Alike.foldl (fun _ _ observer h => h.notify fiber observer) _ ?_
    exact hstopped.modifyFiber fiber fun _ => Or.inl rfl

/-! ### Waiting -/

theorem registerOffer (h : w.Alike f w') (c : ChannelId) (v : Value) (waiter : SuspensionId) :
    Matches f (w.registerOffer c v waiter) (w'.registerOffer c v waiter) := by
  simp only [World.registerOffer, h.channel?, h.isLive]
  split
  · exact ⟨rfl, h⟩
  · split
    · exact ⟨rfl, (h.resume waiter _).world⟩
    · exact ⟨rfl, (((h.setChannel c _).resume _ _).world.resume waiter _).world⟩
    · exact ⟨rfl, ((h.setChannel c _).resume waiter _).world⟩
    · exact ⟨rfl, h.setChannel c _⟩

theorem registerTake (h : w.Alike f w') (c : ChannelId) (waiter : SuspensionId) :
    Matches f (w.registerTake c waiter) (w'.registerTake c waiter) := by
  simp only [World.registerTake, h.channel?]
  split
  · exact ⟨rfl, h⟩
  · next ch _ =>
    split
    · exact ⟨rfl, (h.resume waiter _).world⟩
    · obtain ⟨taken, v, v', htake, htake', hworld⟩ := (h.takeElement c ch).exists_eq
      rw [htake, htake']
      cases taken with
      | none => exact ⟨rfl, hworld.setChannel c _⟩
      | some a => exact ⟨rfl, (hworld.resume waiter _).world⟩

theorem registerClose (h : w.Alike f w') (c : ChannelId) (waiter : SuspensionId) :
    Matches f (w.registerClose c waiter) (w'.registerClose c waiter) := by
  simp only [World.registerClose, h.channel?]
  split
  · exact ⟨rfl, h⟩
  · split
    · exact ⟨rfl, (h.resume waiter _).world⟩
    · exact ⟨rfl, h.setChannel c _⟩

/-- **A wait is registered alike.** -/
theorem register (h : w.Alike f w') (waiter : SuspensionId) (registration : Registration) :
    Matches f (w.register waiter registration) (w'.register waiter registration) := by
  cases registration with
  | callback g =>
    obtain ⟨result, v, v', hrun, hrun', hworld⟩ := (h.run (g waiter)).exists_eq
    simp only [World.register, hrun, hrun']
    cases result with
    | ok _ | error _ => exact ⟨rfl, hworld⟩
  | sleep millis =>
    obtain ⟨fibers, tasks, hfibers, htasks, rfl⟩ := h
    exact ⟨rfl, fibers, tasks, hfibers, htasks, rfl⟩
  | awaitExit fiber type => exact ⟨rfl, h.observe fiber _⟩
  | firstDone left right => exact ⟨rfl, (h.observe left _).observe right _⟩
  | firstFailure children =>
    exact ⟨rfl, h.foldl (fun _ _ c h => h.observe c.1 _) children.zipIdx⟩
  | offer c v =>
    obtain ⟨canceler, v, v', hwait, hwait', hworld⟩ := (h.registerOffer c v waiter).exists_eq
    simp only [World.register, hwait, hwait']
    exact ⟨rfl, hworld⟩
  | take c =>
    obtain ⟨canceler, v, v', hwait, hwait', hworld⟩ := (h.registerTake c waiter).exists_eq
    simp only [World.register, hwait, hwait']
    exact ⟨rfl, hworld⟩
  | awaitClose c =>
    obtain ⟨canceler, v, v', hwait, hwait', hworld⟩ := (h.registerClose c waiter).exists_eq
    simp only [World.register, hwait, hwait']
    exact ⟨rfl, hworld⟩

theorem newSuspension (h : w.Alike f w') (fiber : FiberId) (allowed : Bool)
    (registration : Registration) :
    Matches f (w.newSuspension fiber allowed registration)
      (w'.newSuspension fiber allowed registration) := by
  obtain ⟨fibers, tasks, hfibers, htasks, rfl⟩ := h
  let place : Suspension := { fiber, interruptible := allowed, registration }
  have hpushed : ({ w with suspensions := w.suspensions.push place } : World).Alike f
      { w.under fibers tasks with suspensions := w.suspensions.push place } :=
    ⟨fibers, tasks, hfibers, htasks, rfl⟩
  exact ⟨rfl, hpushed.modifyFiber fiber fun _ => Or.inl rfl⟩

/-- A fiber is parked alike, if it is not the one, or does not allow interruption. -/
theorem parkAt (h : w.Alike f w') {fiber : FiberId} {run : RunState}
    (hrun : fiber = f → run.interruptible = false) (s : SuspensionId) (onInterrupt : Canceler) :
    (w.parkAt fiber s run onInterrupt).Alike f (w'.parkAt fiber s run onInterrupt) := by
  have hset := h.setSuspension s (.waiting run onInterrupt)
  unfold World.parkAt
  simp only
  by_cases hself : fiber = f
  · rw [hrun hself, Bool.false_and, Bool.false_and]
    exact hset
  · rw [hset.isInterrupted_other hself, hset.interruptor_other hself]
    by_cases hstop : (run.interruptible && (w.setSuspension s
        (.waiting run onInterrupt)).store.isInterrupted fiber) = true
    · rw [if_pos hstop, if_pos hstop]
      exact hset.interruptAt fiber s _
    · rw [if_neg hstop, if_neg hstop]
      exact hset

/-- **A fiber waits alike**, if it is not the one, or does not allow interruption. -/
theorem park (h : w.Alike f w') {fiber : FiberId} {run : RunState}
    (hrun : fiber = f → run.interruptible = false) (registration : Registration) :
    Matches f (w.park fiber run registration) (w'.park fiber run registration) := by
  obtain ⟨s, v, v', hnew, hnew', hplace⟩ :=
    (h.newSuspension fiber run.interruptible registration).exists_eq
  obtain ⟨registered, u, u', hregister, hregister', hworld⟩ :=
    (hplace.register s registration).exists_eq
  simp only [World.park, hnew, hnew', hregister, hregister', hworld.suspension?]
  split
  · exact ⟨rfl, hworld.parkAt hrun s _⟩
  · exact ⟨rfl, hworld.setSuspension s _⟩
  · exact ⟨rfl, hworld.setSuspension s _⟩
  · exact ⟨rfl, hworld.setSuspension s _⟩

/-! ### Iterations -/

/-- Whichever children have finished, they have finished in both worlds. -/
theorem addChild (h : w.Alike f w') (parent child : FiberId) :
    (w.addChild parent child).Alike f (w'.addChild parent child) := by
  have hchildren : ∀ children, w'.store.withChild children child =
      w.store.withChild children child := by
    intro children
    simp only [Store.withChild, h.isFinished]
  simp only [World.addChild, hchildren]
  exact h.modifyFiber parent fun _ => Or.inl rfl

theorem fork (h : w.Alike f w') (parent : FiberId) (run : RunState) (child : Instruction)
    (daemon : Bool) : Matches f (w.fork parent run child daemon) (w'.fork parent run child daemon) := by
  obtain ⟨fibers, tasks, hfibers, htasks, rfl⟩ := h
  have hid : (w.under fibers tasks).store.nextFiber = w.store.nextFiber :=
    congrArg FiberId.mk hfibers.next
  have hborn : ({ w with store := { w.store with fibers := w.store.fibers.push {} } } : World).Alike f
      { w.under fibers tasks with
        store := { (w.under fibers tasks).store with fibers := fibers.push {} } } :=
    ⟨_, tasks, hfibers.push {}, htasks, rfl⟩
  unfold World.fork
  rw [hid]
  cases daemon with
  | true => exact ⟨rfl, hborn.schedule _ _ _⟩
  | false => exact ⟨rfl, (hborn.addChild parent w.store.nextFiber).schedule _ _ _⟩

theorem releaseLease (h : w.Alike f w') (fiber : FiberId) (run : RunState) (lease : LeaseId)
    (exit : Exit Value Value) :
    Matches f (w.carryOut fiber (.releaseLease run lease exit))
      (w'.carryOut fiber (.releaseLease run lease exit)) := by
  have hlease : w'.store.lease? lease = w.store.lease? lease := by
    obtain ⟨fibers, tasks, -, -, rfl⟩ := h
    rfl
  simp only [World.carryOut, World.evaluate, hlease]
  cases w.store.lease? lease with
  | none => exact ⟨rfl, h⟩
  | some l =>
    simp only
    split
    · exact ⟨rfl, h⟩
    · -- the lease is marked, and then its release is built
      obtain ⟨fibers, tasks, hfibers, htasks, rfl⟩ := h
      let leases := w.store.leases.modify lease.index fun l => { l with released := true }
      have hmarked : ({ w with store := { w.store with leases } } : World).Alike f
          { w.under fibers tasks with store := { (w.under fibers tasks).store with leases } } :=
        ⟨fibers, tasks, hfibers, htasks, rfl⟩
      obtain ⟨hreply, hworld⟩ := buildRelease l.release exit hmarked
      exact ⟨congrArg (fun built => some (run, Step.ofBuilt built)) hreply, hworld⟩

/-- **A plan is carried out alike**, unless it parks the one where interruption is allowed. -/
theorem carryOut (h : w.Alike f w') (hsound : w.Sound) (hdeaf : w.Deaf f) {fiber : FiberId}
    {plan : Plan} (hplan : fiber = f → ∀ run registration, plan = .wait run registration →
      run.interruptible = false) :
    Matches f (w.carryOut fiber plan) (w'.carryOut fiber plan) := by
  have hcode : ∀ {α : Type} (code : Action α) (next : Except Defect α → Progress),
      Matches f (next (code.run w).1, (code.run w).2) (next (code.run w').1, (code.run w').2) :=
    fun code next => ⟨congrArg next (h.run code).reply, (h.run code).world⟩
  cases plan with
  | proceed run step => exact ⟨rfl, h⟩
  | finish outcome => exact ⟨rfl, h.complete hsound hdeaf fiber outcome⟩
  | build run code => exact hcode code fun built => some (run, .ofBuilt built)
  | translate run code => exact hcode code fun result => some (run, .ofTranslated result)
  | compute run code => exact hcode code fun result => some (run, .ofComputed result)
  | update run cell g =>
    obtain ⟨hreply, hworld⟩ := h.attemptUpdate cell g
    exact ⟨congrArg (fun attempt => some (run, Step.ofAttempt cell g attempt)) hreply, hworld⟩
  | release run id exit =>
    obtain ⟨hreply, hworld⟩ := buildRelease id exit h
    exact ⟨congrArg (fun built => some (run, Step.ofBuilt built)) hreply, hworld⟩
  | releaseLease run lease exit => exact h.releaseLease fiber run lease exit
  | reserve run v release =>
    obtain ⟨fibers, tasks, hfibers, htasks, rfl⟩ := h
    exact ⟨rfl, fibers, tasks, hfibers, htasks, rfl⟩
  | fork run child daemon =>
    obtain ⟨hreply, hworld⟩ := h.fork fiber run child daemon
    exact ⟨congrArg (fun id => some (run, Step.value (.fiber id))) hreply, hworld⟩
  | signal run target => exact ⟨rfl, h.interrupt hdeaf target fiber⟩
  | wait run registration =>
    obtain ⟨next, v, v', hpark, hpark', hworld⟩ :=
      (h.park (fun hself => hplan hself run registration rfl) registration).exists_eq
    simp only [World.carryOut, hpark, hpark']
    cases next with
    | none | some step => exact ⟨rfl, hworld⟩
  | makeWay run => exact ⟨rfl, h.schedule fiber run _⟩

section Iterate

variable {fiber : FiberId} {run : RunState}

/-- Whoever does not allow interruption drops nothing, whoever else drops the same. -/
theorem mustStop (h : w.Alike f w') (hrun : fiber = f → run.interruptible = false) :
    w'.mustStop fiber run = w.mustStop fiber run := by
  by_cases hself : fiber = f
  · rw [World.mustStop, World.mustStop, hrun hself, Bool.false_and, Bool.false_and]
  · rw [World.mustStop, World.mustStop, h.isInterrupted_other hself]

theorem divert (h : w.Alike f w') (hrun : fiber = f → run.interruptible = false) (step : Step) :
    w'.divert fiber run step = w.divert fiber run step := by
  rw [divert_eq, divert_eq, h.mustStop hrun]
  by_cases hself : fiber = f
  · have hfree : w.mustStop fiber run = false := by
      rw [World.mustStop, hrun hself, Bool.false_and]
    rw [hfree, Bool.and_false, if_neg Bool.false_ne_true, if_neg Bool.false_ne_true]
  · rw [h.interruptor_other hself]

/-- **What an iteration is going to do does not depend on requests for the one.** -/
theorem plan (h : w.Alike f w') (hrun : fiber = f → run.interruptible = false) (step : Step) :
    step.plan (w'.pending fiber) fiber run = step.plan (w.pending fiber) fiber run := by
  by_cases hself : fiber = f
  · have hstops : ∀ pending, run.stopsFor pending = none := fun pending => by
      rw [RunState.stopsFor, hrun hself, if_neg Bool.false_ne_true]
    cases step with
    | eval _ | value _ | attempt _ _ => rfl
    | halt failure => simp only [Step.plan, RunState.planHalt, hstops]
  · rw [World.pending, World.pending, h.isInterrupted_other hself, h.interruptor_other hself]

/-- **A fiber iterates alike**, if it is not the one, or does not allow interruption. -/
theorem iterate (h : w.Alike f w') (hsound : w.Sound) (hdeaf : w.Deaf f)
    (hrun : fiber = f → run.interruptible = false) (step : Step) :
    Matches f (w.iterate fiber run step) (w'.iterate fiber run step) := by
  rw [iterate_eq_carryOut, iterate_eq_carryOut, h.divert hrun, h.plan hrun]
  refine h.carryOut hsound hdeaf fun hself rest registration hwait => ?_
  rw [Step.rest_of_plan_wait hwait]
  exact hrun hself

end Iterate

/-! ### From outside -/

/-- An alarm rings alike. -/
theorem ring (h : w.Alike f w') {budget : Nat} {m m' : Machine}
    (hring : Machine.ring { budget, world := w } = some m)
    (hring' : Machine.ring { budget, world := w' } = some m') : m.world.Alike f m'.world := by
  have halarms : w'.store.alarms = w.store.alarms := by
    obtain ⟨fibers, tasks, -, -, rfl⟩ := h
    rfl
  simp only [Machine.ring, halarms] at hring hring'
  cases hfirst : w.store.alarms.first? with
  | none =>
    rw [hfirst] at hring
    cases hring
  | some p =>
    rw [hfirst] at hring hring'
    obtain rfl := Option.some.inj hring
    obtain rfl := Option.some.inj hring'
    refine (Alike.resume ?_ _ _).world
    obtain ⟨fibers, tasks, hfibers, htasks, rfl⟩ := h
    exact ⟨fibers, tasks, hfibers, htasks, rfl⟩

/-- A fiber without a parent is started alike. -/
theorem startRoot (h : w.Alike f w') (budget : Nat) (effect : Instruction) (environment : Value)
    (report : Option ErrorType) :
    ((Machine.startRoot { budget, world := w } effect environment report).2.world).Alike f
      (Machine.startRoot { budget, world := w' } effect environment report).2.world := by
  obtain ⟨fibers, tasks, hfibers, htasks, rfl⟩ := h
  have hid : (w.under fibers tasks).store.nextFiber = w.store.nextFiber :=
    congrArg FiberId.mk hfibers.next
  let record : FiberRecord := { observers := (report.map Observer.report).toList }
  have hborn : ({ w with store := { w.store with fibers := w.store.fibers.push record } } :
      World).Alike f { w.under fibers tasks with
        store := { (w.under fibers tasks).store with fibers := fibers.push record } } :=
    ⟨_, tasks, hfibers.push record, htasks, rfl⟩
  simp only [Machine.startRoot, hid]
  exact hborn.schedule _ _ _

end Alike

end World

end Fibers
