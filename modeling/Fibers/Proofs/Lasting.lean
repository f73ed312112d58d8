import Fibers.Proofs.Supervision

/-!
# What lasts

Some things that are so of a world stay so: what has been acquired stays paired with its release,
and a fiber that has finished stays finished.  No move of any fiber undoes them, nor does anything
that comes from outside.

What lasts need not be told from one fiber to the other.  A fiber finds it in every world in which
it iterates once it has made it so; a child finds what has been so when it was started; and whoever
learns that a fiber has finished finds what that fiber found when it ended.

## Main definitions

* `Workshop.Lasting` — a property of worlds that no move undoes.
* `Workshop.Finds` — what a fiber finds from one of its doings on.
* `Workshop.Bequeaths` — what everybody finds when a fiber has finished.

## Main results

* `Workshop.lasting_of_carryOut` — what no iteration and no request undoes lasts.
* `Workshop.Run.finds_after` — **what lasts is found after the iteration that has made it so.**
* `Workshop.Run.finds_child` — a child finds what has been so when it was started.
* `Workshop.Run.bequeaths` — **what a fiber finds when it ends is found by whoever finds that it has
  finished.**
-/

namespace Fibers

namespace World

/-! ### Releases -/

theorem releases_resume (w : World) (s : SuspensionId) (outcome : Outcome) :
    (w.resume s outcome).2.releases = w.releases := by
  unfold resume
  split
  · rfl
  · split <;> rfl

theorem releases_foldl {α : Type} {g : World → α → World}
    (hg : ∀ (w : World) a, (g w a).releases = w.releases) (items : List α) (w : World) :
    (items.foldl g w).releases = w.releases := by
  induction items generalizing w with
  | nil => rfl
  | cons a items ih => exact (ih _).trans (hg w a)

theorem releases_resumeAll (w : World) (places : List SuspensionId) (outcome : Outcome) :
    (w.resumeAll places outcome).releases = w.releases :=
  releases_foldl (fun w s => w.releases_resume s outcome) places w

theorem releases_takeElement (w : World) (channel : ChannelId)
    (ch : Channel Value SuspensionId) : (w.takeElement channel ch).2.releases = w.releases := by
  unfold takeElement
  split
  · exact releases_resumeAll _ _ _
  · rfl

theorem releases_takeUpTo (w : World) (channel : ChannelId) (limit : Nat) :
    (w.takeUpTo channel limit).2.releases = w.releases := by
  induction limit generalizing w with
  | zero => rfl
  | succ limit ih =>
    unfold takeUpTo
    split
    · rfl
    · next ch _ =>
      have htake := w.releases_takeElement channel ch
      split
      · next w' heq => rwa [heq] at htake
      · next v w' heq =>
        rw [heq] at htake
        exact (ih w').trans htake

theorem releases_perform (w : World) (op : Operation) :
    (w.perform op).2.releases = w.releases := by
  cases op with
  | newChannel capacity =>
    simp only [perform]
    split <;> rfl
  | drain channel limit =>
    simp only [perform, drain]
    split
    · rfl
    · split
      · rfl
      · exact releases_takeUpTo _ _ _
  | close channel source =>
    simp only [perform, close]
    split
    · rfl
    · exact (releases_resumeAll _ _ _).trans (releases_resumeAll _ _ _)
  | complete waiter outcome =>
    simp only [perform, answer]
    split
    · exact w.releases_resume waiter outcome
    · rfl
  | observe | log _ | newCell _ | writeCell _ _ | keep _ _ | newMark | useMark _ | newLease _ => rfl

theorem releases_run {α : Type} (a : Action α) (w : World) : (a.run w).2.releases = w.releases := by
  induction a generalizing w with
  | done a => rfl
  | panic d => rfl
  | perform op next ih => exact (ih _ _).trans (w.releases_perform op)

theorem releases_cancel (w : World) (onInterrupt : Canceler) :
    (w.cancel onInterrupt).releases = w.releases := by
  cases onInterrupt with
  | nothing | alarm _ => rfl
  | leave channel line ticket =>
    simp only [cancel]
    split <;> rfl
  | action a => exact releases_run a w

theorem releases_interruptAt (w : World) (fiber : FiberId) (s : SuspensionId) (source : FiberId) :
    (w.interruptAt fiber s source).releases = w.releases := by
  unfold interruptAt
  split
  · exact releases_cancel _ _
  · rfl

theorem releases_interrupt (w : World) (target source : FiberId) :
    (w.interrupt target source).releases = w.releases := by
  simp only [interrupt]
  split
  · rfl
  · split
    · exact releases_interruptAt _ _ _ _
    · rfl

theorem releases_interruptUnfinished (w : World) (fibers : List FiberId) (source : FiberId) :
    (w.interruptUnfinished fibers source).releases = w.releases := by
  refine releases_foldl (fun w f => ?_) fibers w
  split
  · rfl
  · exact w.releases_interrupt f source

theorem releases_takeExit (w : World) (fiber : FiberId) :
    (w.takeExit fiber).2.releases = w.releases := by
  unfold takeExit
  split <;> rfl

theorem releases_notify (w : World) (fiber : FiberId) (observer : Observer) :
    (w.notify fiber observer).releases = w.releases := by
  have htake := w.releases_takeExit fiber
  cases observer with
  | report type => exact htake
  | exitTo waiter type =>
    have hresume := releases_resume (w.takeExit fiber).2 waiter
      (.done (.exit ((w.takeExit fiber).1.untag type)))
    unfold notify
    simp only
    split
    · next w' heq =>
      rw [heq] at hresume
      exact hresume.trans htake
    · next w' heq =>
      rw [heq] at hresume
      exact hresume.trans htake
  | firstDone waiter left => exact w.releases_resume waiter _
  | firstFailure waiter children position =>
    unfold notify
    simp only
    split
    · exact w.releases_resume waiter _
    · rfl

theorem releases_observe (w : World) (fiber : FiberId) (observer : Observer) :
    (w.observe fiber observer).releases = w.releases := by
  unfold observe
  split
  · exact w.releases_notify fiber observer
  · rfl

theorem releases_complete (w : World) (fiber : FiberId) (outcome : Outcome) :
    (w.complete fiber outcome).releases = w.releases := by
  unfold complete
  split
  · rfl
  · refine (releases_foldl (fun w observer => w.releases_notify fiber observer) _ _).trans ?_
    exact releases_interruptUnfinished _ _ _

theorem releases_registerOffer (w : World) (channel : ChannelId) (v : Value)
    (waiter : SuspensionId) : (w.registerOffer channel v waiter).2.releases = w.releases := by
  unfold registerOffer
  split
  · rfl
  · split
    · exact releases_resume _ _ _
    · exact (releases_resume _ _ _).trans (releases_resume _ _ _)
    · exact releases_resume _ _ _
    · rfl

theorem releases_registerTake (w : World) (channel : ChannelId) (waiter : SuspensionId) :
    (w.registerTake channel waiter).2.releases = w.releases := by
  unfold registerTake
  split
  · rfl
  · next ch _ =>
    split
    · exact releases_resume _ _ _
    · have htake := w.releases_takeElement channel ch
      split
      · next v w' heq =>
        rw [heq] at htake
        exact (releases_resume _ _ _).trans htake
      · next w' heq =>
        rw [heq] at htake
        exact htake

theorem releases_registerClose (w : World) (channel : ChannelId) (waiter : SuspensionId) :
    (w.registerClose channel waiter).2.releases = w.releases := by
  unfold registerClose
  split
  · rfl
  · split
    · exact releases_resume _ _ _
    · rfl

theorem releases_register (w : World) (waiter : SuspensionId) (registration : Registration) :
    (w.register waiter registration).2.releases = w.releases := by
  cases registration with
  | callback f =>
    have hrun := releases_run (f waiter) w
    simp only [register]
    split
    · next onInterrupt w' heq => rwa [heq] at hrun
    · next d w' heq => rwa [heq] at hrun
  | sleep millis => rfl
  | awaitExit fiber type => exact w.releases_observe fiber _
  | firstDone left right =>
    exact (releases_observe _ right _).trans (w.releases_observe left _)
  | firstFailure children =>
    exact releases_foldl (fun w (c : FiberId × Nat) =>
      w.releases_observe c.1 (.firstFailure waiter children c.2)) children.zipIdx w
  | offer channel v => exact w.releases_registerOffer channel v waiter
  | take channel => exact w.releases_registerTake channel waiter
  | awaitClose channel => exact w.releases_registerClose channel waiter

theorem releases_park (w : World) (fiber : FiberId) (run : RunState)
    (registration : Registration) : (w.park fiber run registration).2.releases = w.releases := by
  have hregister := (releases_register (w.newSuspension fiber run.interruptible registration).2
    (w.newSuspension fiber run.interruptible registration).1 registration)
  simp only [park]
  generalize hnew : w.newSuspension fiber run.interruptible registration = new at hregister
  have hsame : new.2.releases = w.releases := by rw [← hnew]; rfl
  obtain ⟨s, w₁⟩ := new
  simp only at hregister hsame ⊢
  generalize w₁.register s registration = registered at hregister
  obtain ⟨result, w₂⟩ := registered
  have hall := hregister.trans hsame
  simp only at hall ⊢
  split
  · simp only [parkAt]
    split
    · exact (releases_interruptAt _ _ _ _).trans hall
    · exact hall
  all_goals exact hall

theorem releases_attemptUpdate (w : World) (cell : CellId)
    (f : Value → Action (Update Value)) : (w.attemptUpdate cell f).2.releases = w.releases := by
  unfold attemptUpdate
  split
  · rfl
  · next c _ =>
    have hrun := releases_run (f c.value) w
    split
    · next d w' heq => rwa [heq] at hrun
    · next update w' heq =>
      rw [heq] at hrun
      refine Eq.trans ?_ hrun
      unfold commitUpdate
      split
      · rfl
      · split <;> rfl

theorem releases_buildRelease (release : ReleaseId) (x : Exit Value Value) (w : World) :
    (w.buildRelease release x).2.releases = w.releases := by
  -- a release is built of earlier ones
  induction hindex : release.index using Nat.strongRecOn generalizing release w with
  | _ index ih =>
    subst hindex
    rw [buildRelease]
    split
    · rfl
    · exact releases_run _ w
    · split
      · next hlt => exact ih _ hlt _ _ rfl
      · rfl
    · split
      · next hlt => exact (ih _ hlt.2 _ _ rfl).trans (ih _ hlt.1 _ _ rfl)
      · rfl
    · split
      · next inner _ hlt =>
        have hbuild := ih _ hlt _ w rfl
        split
        · next i w' heq => rwa [heq] at hbuild
        · next d w' heq => rwa [heq] at hbuild
      · rfl

theorem releases_carryOut (w : World) (fiber : FiberId) {plan : Plan}
    (hreserve : ∀ run v release, plan ≠ .reserve run v release) :
    (w.carryOut fiber plan).2.releases = w.releases := by
  cases plan with
  | reserve run v release => exact absurd rfl (hreserve run v release)
  | finish outcome => exact w.releases_complete fiber outcome
  | proceed run step => rfl
  | build run code | translate run code | compute run code => exact releases_run code w
  | update run cell g => exact w.releases_attemptUpdate cell g
  | release run id exit => exact releases_buildRelease id exit w
  | releaseLease run lease exit =>
    rcases w.carryOut_releaseLease fiber run lease exit with heq | ⟨release, leases, heq⟩ <;> rw [heq]
    exact releases_buildRelease release exit _
  | fork run child daemon => cases daemon <;> rfl
  | signal run target => exact w.releases_interrupt target fiber
  | wait run registration =>
    rw [carryOut_wait]
    exact w.releases_park fiber run registration
  | makeWay run => rfl

end World

/-- No release is forgotten. -/
theorem World.get?_releases_carryOut {w : World} {n : Nat} {r : Release}
    (h : w.releases.get? n = some r) (fiber : FiberId) (plan : Plan) :
    (w.carryOut fiber plan).2.releases.get? n = some r := by
  by_cases hplan : ∃ run v release, plan = .reserve run v release
  · obtain ⟨run, v, release, rfl⟩ := hplan
    change (w.releases.push release).get? n = some r
    rw [Numbered.get?_push, if_neg, h]
    rintro rfl
    rw [Numbered.get?_next] at h
    cases h
  · rw [w.releases_carryOut fiber fun run v release heq => hplan ⟨run, v, release, heq⟩]
    exact h

/-- What has been created stays. -/
theorem World.born_carryOut {w : World} {f : FiberId} (h : (w.store.fiber? f).isSome)
    {fiber : FiberId} (hphase : w.phase fiber = some false) (plan : Plan) :
    ((w.carryOut fiber plan).2.store.fiber? f).isSome := by
  obtain ⟨r, hr, -⟩ := Option.map_eq_some_iff.mp hphase
  have hborn : (w.store.fiber? fiber).isSome := by
    rw [hr]
    rfl
  cases plan with
  | finish outcome =>
    rw [carryOut, complete_eq hborn]
    exact (sameBonds_notifyAll _ _ _).tends.born (w.born_ending fiber outcome h)
  | fork run child daemon => exact w.born_fork fiber run child daemon (Or.inl h)
  | _ => exact (w.tends_carryOut fiber (by simp) (by simp)).born h

/-- What has finished stays finished. -/
theorem World.isFinished_carryOut {w : World} {f : FiberId} (h : w.store.isFinished f = true)
    {fiber : FiberId} (hphase : w.phase fiber = some false) (plan : Plan) :
    (w.carryOut fiber plan).2.store.isFinished f = true := by
  obtain ⟨r, hr, -⟩ := Option.map_eq_some_iff.mp hphase
  have hborn : (w.store.fiber? fiber).isSome := by
    rw [hr]
    rfl
  cases plan with
  | finish outcome =>
    rw [carryOut, complete_eq hborn, (sameBonds_notifyAll _ _ _).isFinished]
    exact w.isFinished_ending fiber outcome h
  | fork run child daemon =>
    change (w.fork fiber run child daemon).2.store.isFinished f = true
    rw [w.isFinished_fork]
    exact h
  | _ =>
    rw [(w.tends_carryOut fiber (by simp) (by simp)).finished]
    exact h

namespace Workshop

variable {budget minted : Nat} {s s' : Workshop} {record events : List (FiberId × Event)}
  {P : World → Prop} {f c : FiberId} {w : World} {run : RunState} {step : Step} {n m : Nat}

/-! ### What no move undoes -/

/-- A property of worlds that no move undoes. -/
def Lasting (P : World → Prop) : Prop :=
  ∀ ⦃budget : Nat⦄ ⦃s s' : Workshop⦄ ⦃events : List (FiberId × Event)⦄,
    s.Valid → Move budget s events s' → P s.world → P s'.world

/-- What an iteration makes of the world. -/
theorem Move.world_of_iterated {stops : List (FiberId × Event)}
    (h : Move budget s (stops ++ [(f, .iterated w run step)]) s') (hvalid : s.Valid) :
    s.world = w ∧ w.phase f = some false ∧
      s'.world = (w.carryOut f (step.plan (w.pending f) f run)).2 ∧
      ∀ {f' e}, (f', e) ∈ stops → f' = f ∧ e = .stopped w := by
  have hworld := h.world_of_mem (List.mem_append_right stops (List.mem_singleton_self _)) rfl
  rcases h.iterates_or_tends hvalid with
    ⟨f', run', step', stops', heq, hstops, hphase, hafter⟩ | ⟨hnil, -⟩
  · obtain ⟨rfl, hlast⟩ := List.append_inj' heq rfl
    obtain ⟨rfl, hevent⟩ := Prod.mk.inj (List.cons.inj hlast).1
    obtain ⟨-, rfl, rfl⟩ := Event.iterated.inj hevent
    subst hworld
    exact ⟨rfl, hphase, hafter, hstops⟩
  · simp at hnil

/-- Whatever no iteration and no request undoes lasts. -/
theorem lasting_of_carryOut
    (hiterate : ∀ {w : World} {f : FiberId}, w.phase f = some false → P w → ∀ plan : Plan,
      P (w.carryOut f plan).2)
    (helse : ∀ {w w' : World}, w.Tends w' → w'.releases = w.releases → P w → P w') :
    Lasting P := by
  intro budget s s' events hvalid hmove hP
  rcases hmove.iterates_or_tends hvalid with
    ⟨f, run, step, stops, rfl, -, hphase, hworld⟩ | ⟨rfl, htends⟩
  · rw [hworld]
    exact hiterate hphase hP _
  · refine helse htends ?_ hP
    generalize hevents : ([] : List (FiberId × Event)) = events at hmove
    cases hmove with
    | pick | start _ _ _ => rfl
    | interrupt target source => exact World.releases_interrupt _ target source
    | act a => exact World.releases_run a _
    | ring hm =>
      unfold Machine.ring at hm
      split at hm
      · cases hm
      · obtain rfl := Option.some.inj hm
        exact World.releases_resume _ _ _
    | @advance w before after slice m hm =>
      subst hm
      simp only [Slice.doings] at hevents
      simp only [Machine.advance]
      generalize (if Machine.counts slice.step then slice.used + 1 else slice.used) = used at *
      by_cases hused : max budget 1 < used
      · rw [if_pos hused]
        rfl
      · rw [if_neg hused, List.map_append] at hevents
        simp at hevents

theorem lasting_isFinished (c : FiberId) : Lasting fun w => w.store.isFinished c = true :=
  lasting_of_carryOut (fun hphase h plan => World.isFinished_carryOut h hphase plan)
    fun htends _ h => (htends.finished c).trans h

theorem lasting_born (c : FiberId) : Lasting fun w => (w.store.fiber? c).isSome :=
  lasting_of_carryOut (fun hphase h plan => World.born_carryOut h hphase plan)
    fun htends _ h => htends.born h

theorem lasting_release (n : Nat) (r : Release) :
    Lasting fun w => w.releases.get? n = some r :=
  lasting_of_carryOut (fun {_ f} _ h plan => World.get?_releases_carryOut h f plan)
    fun _ hsame h => by rwa [hsame]

/-! ### Runs -/

/-- What lasts is so in every world that is found later, and in the end. -/
theorem Run.lasts (h : Run budget s record s') (hvalid : s.Valid) (hP : Lasting P)
    (hs : P s.world) : P s'.world ∧ ∀ ⦃e w⦄, e ∈ record → e.2.world? = some w → P w := by
  induction h with
  | rest => exact ⟨hs, nofun⟩
  | @move s s₁ s' events record hmove _ ih =>
    obtain ⟨hend, hlater⟩ := ih (hmove.valid hvalid) (hP hvalid hmove hs)
    refine ⟨hend, fun e w he hw => ?_⟩
    rcases List.mem_append.mp he with hmem | hmem
    · exact hmove.world_of_mem hmem hw ▸ hs
    · exact hlater hmem hw

/-- What lasts, and is so in a world that is found, is so in the end. -/
theorem Run.lasts_from (h : Run budget s record s') (hvalid : s.Valid) (hP : Lasting P)
    {e : FiberId × Event} (he : e ∈ record) (hw : e.2.world? = some w) (hPw : P w) :
    P s'.world := by
  induction h with
  | rest => cases he
  | move hmove hrest ih =>
    rcases List.mem_append.mp he with hmem | hmem
    · obtain rfl := hmove.world_of_mem hmem hw
      exact (hrest.lasts (hmove.valid hvalid) hP (hP hvalid hmove hPw)).1
    · exact ih (hmove.valid hvalid) hmem

/-- The move in which a fiber iterates. -/
theorem Run.at_iteration {before after : List (FiberId × Event)}
    (h : Run budget s (before ++ (f, .iterated w run step) :: after) s') :
    ∃ s₁ s₂ pre stops, before = pre ++ stops ∧ Run budget s pre s₁ ∧
      Move budget s₁ (stops ++ [(f, .iterated w run step)]) s₂ ∧ Run budget s₂ after s' := by
  generalize hrecord : before ++ (f, Event.iterated w run step) :: after = record at h
  induction h generalizing before with
  | rest => simp at hrecord
  | @move s₀ s₁ s₂ events record hmove hrest ih =>
    rcases List.append_eq_append_iff.mp hrecord with ⟨more, rfl, hmore⟩ | ⟨more, rfl, hmore⟩
    · cases more with
      | nil =>
        -- the iteration is the first one after this move
        obtain ⟨s₃, s₄, pre, stops, hpre, hfirst, hthere, hlater⟩ := @ih [] hmore
        refine ⟨s₃, s₄, before ++ pre, stops, ?_, .move (by simpa using hmove) hfirst, hthere, hlater⟩
        rw [List.append_assoc, ← hpre, List.append_nil]
      | cons e more =>
        -- this move is the one in which the fiber iterates
        obtain ⟨rfl, rfl⟩ := List.cons.inj hmore
        obtain rfl := hmove.last_iterated
        exact ⟨s₀, s₁, [], before, rfl, .rest, hmove, hrest⟩
    · obtain ⟨s₃, s₄, pre, stops, hpre, hfirst, hthere, hlater⟩ := ih hmore.symm
      refine ⟨s₃, s₄, events ++ pre, stops, ?_, .move hmove hfirst, hthere, hlater⟩
      rw [hpre, List.append_assoc]

/-! ### What a fiber finds -/

/-- A fiber finds a property in every world in which it iterates, from its `n`-th doing on. -/
def Finds (record : List (FiberId × Event)) (f : FiberId) (n : Nat) (P : World → Prop) : Prop :=
  ∀ ⦃k w run step⦄, n ≤ k → (eventsOf f record)[k]? = some (.iterated w run step) → P w

/-- Whoever iterates when a fiber has finished finds a property. -/
def Bequeaths (record : List (FiberId × Event)) (c : FiberId) (P : World → Prop) : Prop :=
  ∀ ⦃f w run step⦄, (f, .iterated w run step) ∈ record → w.store.isFinished c = true → P w

theorem Finds.mono (h : Finds record f n P) (hle : n ≤ m) : Finds record f m P :=
  fun _ _ _ _ hk => h (Nat.le_trans hle hk)

theorem Finds.imp {P' : World → Prop} (h : Finds record f n P) (hP : ∀ w, P w → P' w) :
    Finds record f n P' := fun _ _ _ _ hk he => hP _ (h hk he)

/-- What has been bequeathed is found by those who find that the fiber has finished. -/
theorem Finds.inherit (h : Finds record f n fun w => w.store.isFinished c = true)
    (hP : Bequeaths record c P) : Finds record f n P :=
  fun _ _ _ _ hk he => hP (mem_eventsOf.mp (List.mem_of_getElem? he)) (h hk he)

/-- What lasts is so in every world that is found after the iteration that has made it so. -/
theorem Run.lasts_after {before after : List (FiberId × Event)}
    (h : Run budget (init minted) (before ++ (f, .iterated w run step) :: after) s) (hP : Lasting P)
    (hafter : P (w.carryOut f (step.plan (w.pending f) f run)).2) ⦃e : FiberId × Event⦄ ⦃w' : World⦄
    (he : e ∈ after) (hw : e.2.world? = some w') : P w' := by
  obtain ⟨s₁, s₂, pre, stops, rfl, hpre, hmove, hlater⟩ := h.at_iteration
  have hvalid := hpre.valid (valid_init minted)
  obtain ⟨-, -, hworld, -⟩ := hmove.world_of_iterated hvalid
  exact (hlater.lasts (hmove.valid hvalid) hP (hworld ▸ hafter)).2 he hw

/-- **What lasts is found after the iteration that has made it so.** -/
theorem Run.finds_after (h : Run budget (init minted) record s) (hP : Lasting P)
    (he : (eventsOf f record)[n]? = some (.iterated w run step))
    (hafter : P (w.carryOut f (step.plan (w.pending f) f run)).2) : Finds record f (n + 1) P := by
  obtain ⟨before, after, rfl, hbefore⟩ := exists_record_of_doing he
  intro k w' run' step' hk hget
  -- what is done later comes after the iteration
  have hsplit : eventsOf f (before ++ (f, .iterated w run step) :: after) =
      eventsOf f before ++ .iterated w run step :: eventsOf f after := by
    simp [eventsOf]
  have hlength : (eventsOf f before).length = n := by
    rw [hbefore, List.length_take]
    have := (List.getElem?_eq_some_iff.mp he).1
    omega
  obtain ⟨j, rfl⟩ := Nat.exists_eq_add_of_le hk
  rw [hsplit, List.getElem?_append_right (by omega), hlength,
    show n + 1 + j - n = j + 1 by omega, List.getElem?_cons_succ] at hget
  exact h.lasts_after hP hafter (mem_eventsOf.mp (List.mem_of_getElem? hget)) rfl

/-- **What lasts is made so once.** -/
theorem Run.made_once (h : Run budget (init minted) record s) (hP : Lasting P) {f' : FiberId}
    {k : Nat} {w' : World} {run' : RunState} {step' : Step}
    (he : (eventsOf f record)[n]? = some (.iterated w run step)) (hnot : ¬ P w)
    (hafter : P (w.carryOut f (step.plan (w.pending f) f run)).2)
    (he' : (eventsOf f' record)[k]? = some (.iterated w' run' step')) (hnot' : ¬ P w')
    (hafter' : P (w'.carryOut f' (step'.plan (w'.pending f') f' run')).2) : f = f' ∧ n = k := by
  by_cases hself : f = f'
  · subst hself
    refine ⟨rfl, ?_⟩
    rcases Nat.lt_trichotomy n k with hlt | heq | hlt
    · exact absurd (h.finds_after hP he hafter hlt he') hnot'
    · exact heq
    · exact absurd (h.finds_after hP he' hafter' hlt he) hnot
  · -- one of the two comes after the other one
    exfalso
    obtain ⟨before, after, rfl⟩ :=
      List.append_of_mem (mem_eventsOf.mp (List.mem_of_getElem? he))
    rcases List.mem_append.mp (mem_eventsOf.mp (List.mem_of_getElem? he')) with hmem | hmem
    · obtain ⟨first, second, rfl⟩ := List.append_of_mem hmem
      rw [List.append_assoc, List.cons_append] at h
      exact hnot (h.lasts_after hP hafter' (List.mem_append_right _ List.mem_cons_self) rfl)
    · rcases List.mem_cons.mp hmem with heq | hmem
      · exact hself (Prod.mk.inj heq).1.symm
      · exact hnot' (h.lasts_after hP hafter hmem rfl)

/-- **What lasts and is found once is found from then on.** -/
theorem Run.finds_from (h : Run budget (init minted) record s) (hP : Lasting P)
    (he : (eventsOf f record)[n]? = some (.iterated w run step)) (hw : P w) :
    Finds record f n P := by
  have hafter : P (w.carryOut f (step.plan (w.pending f) f run)).2 := by
    obtain ⟨before, after, rfl, -⟩ := exists_record_of_doing he
    obtain ⟨s₁, s₂, pre, stops, rfl, hpre, hmove, -⟩ := h.at_iteration
    have hvalid := hpre.valid (valid_init minted)
    obtain ⟨rfl, -, hworld, -⟩ := hmove.world_of_iterated hvalid
    exact hworld ▸ hP hvalid hmove hw
  have hlater := h.finds_after hP he hafter
  intro k w' run' step' hk hget
  rcases Nat.eq_or_lt_of_le hk with rfl | hlt
  · obtain ⟨rfl, -⟩ := Event.iterated.inj (Option.some.inj (he.symm.trans hget))
    exact hw
  · exact hlater hlt hget

/-- Who iterates has been created and has not finished. -/
theorem Run.phase_of_iterated (h : Run budget (init minted) record s)
    (he : (f, .iterated w run step) ∈ record) : w.phase f = some false := by
  obtain ⟨before, after, rfl⟩ := List.append_of_mem he
  obtain ⟨s₁, s₂, pre, stops, rfl, hpre, hmove, -⟩ := h.at_iteration
  exact (hmove.world_of_iterated (hpre.valid (valid_init minted))).2.1

/-- **A child finds what has been so when it was started.** -/
theorem Run.finds_child (h : Run budget (init minted) record s) (hP : Lasting P)
    (he : (f, .iterated w run step) ∈ record) (hw : P w) (hfresh : w.store.fiber? c = none) :
    Finds record c 0 P := by
  intro k w' run' step' _ hget
  have hchild := mem_eventsOf.mp (List.mem_of_getElem? hget)
  obtain ⟨r, hr, -⟩ := Option.map_eq_some_iff.mp (h.phase_of_iterated hchild)
  have hborn : (w'.store.fiber? c).isSome := by
    rw [hr]
    rfl
  obtain ⟨before, after, rfl⟩ := List.append_of_mem he
  obtain ⟨s₁, s₂, pre, stops, rfl, hpre, hmove, hlater⟩ := h.at_iteration
  have hvalid := hpre.valid (valid_init minted)
  obtain ⟨rfl, -, hworld, hstops⟩ := hmove.world_of_iterated hvalid
  rcases List.mem_append.mp hchild with hmem | hmem
  · rcases List.mem_append.mp hmem with hearly | hstop
    · -- it has not been created before
      have hthere := hpre.lasts_from (valid_init minted) (lasting_born c) hearly rfl hborn
      rw [hfresh] at hthere
      cases hthere
    · cases (hstops hstop).2
  · rcases List.mem_cons.mp hmem with heq | hlate
    · obtain ⟨rfl, -⟩ := Event.iterated.inj (Prod.mk.inj heq).2
      rw [hfresh] at hborn
      cases hborn
    · exact (hlater.lasts (hmove.valid hvalid) hP (hP hvalid hmove hw)).2 hlate rfl

/-- **What a fiber finds when it ends is so for whoever finds that it has finished.** -/
theorem Run.bequeaths (h : Run budget (init minted) record s) (hP : Lasting P)
    {outcome : Outcome} (he : (eventsOf c record)[m]? = some (.iterated w run step))
    (hend : step.plan (w.pending c) c run = .finish outcome) (hfinds : Finds record c n P)
    (hle : n ≤ m) : Bequeaths record c P := by
  have hw := hfinds hle he
  intro f w' run' step' hmem hfinished
  obtain ⟨before, after, rfl⟩ := List.append_of_mem (mem_eventsOf.mp (List.mem_of_getElem? he))
  obtain ⟨s₁, s₂, pre, stops, rfl, hpre, hmove, hlater⟩ := h.at_iteration
  have hvalid := hpre.valid (valid_init minted)
  obtain ⟨rfl, hphase, -, hstops⟩ := hmove.world_of_iterated hvalid
  obtain ⟨r, hr, hgoing⟩ := Option.map_eq_some_iff.mp hphase
  have hnot : s₁.world.store.isFinished c = false := by
    rw [Store.isFinished, hr, Option.any_some, hgoing]
  rcases List.mem_append.mp hmem with hmem | hmem
  · rcases List.mem_append.mp hmem with hearly | hstop
    · -- it has not finished before its end
      have hthere := hpre.lasts_from (valid_init minted) (lasting_isFinished c) hearly rfl hfinished
      rw [hnot] at hthere
      cases hthere
    · cases (hstops hstop).2
  · rcases List.mem_cons.mp hmem with heq | hlate
    · obtain ⟨rfl, -⟩ := Event.iterated.inj (Prod.mk.inj heq).2
      rw [hnot] at hfinished
      cases hfinished
    · exact (hlater.lasts (hmove.valid hvalid) hP (hP hvalid hmove hw)).2 hlate rfl

end Workshop

end Fibers
