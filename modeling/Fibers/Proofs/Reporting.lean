import Fibers.Proofs.Announcing

/-!
# Whose exit is reported

Whoever starts a fiber from outside may ask for its exit.  Nobody else is reported to: a fiber that
has been started by another one tells those who wait for it, and its exit is in no report.

## Main definitions

* `World.IsReported` — somebody outside has asked for the exit of a fiber, or has been given it.
* `World.Withholds` — nobody outside comes to ask for another exit.

## Main results

* `World.withholds_carryOut` — whatever a fiber does, nobody outside comes to ask.
* `Workshop.Run.not_reported_of_forked` — **in every run the exit of a fiber that another one has
  started is in no report.**
-/

namespace Fibers

namespace World

variable {w w' w'' : World} {f : FiberId}

/-- Somebody outside has asked for the exit of a fiber, or has been given it. -/
def IsReported (w : World) (f : FiberId) : Prop :=
  (∃ type, .report type ∈ w.observers f) ∨ ∃ x, (f, x) ∈ w.store.reports

/-- Nobody outside comes to ask for another exit. -/
def Withholds (w w' : World) : Prop := ∀ f, w'.IsReported f → w.IsReported f

namespace Withholds

theorem refl (w : World) : w.Withholds w := fun _ h => h

theorem trans (h : w.Withholds w') (h' : w'.Withholds w'') : w.Withholds w'' :=
  fun f hf => h f (h' f hf)

theorem of_eq (hobservers : ∀ f, w'.observers f = w.observers f)
    (hreports : w'.store.reports = w.store.reports) : w.Withholds w' := by
  intro f hf
  rwa [IsReported, hobservers, hreports] at hf

theorem of_fibers (hfibers : w'.store.fibers = w.store.fibers)
    (hreports : w'.store.reports = w.store.reports) : w.Withholds w' :=
  of_eq (fun f => observers_of_fibers hfibers f) hreports

theorem of_store (h : w'.store = w.store) : w.Withholds w' := of_fibers (by rw [h]) (by rw [h])

/-- What is known of a fiber changes, but for who is to be told of its end. -/
theorem modifyFiber (w : World) (id : FiberId) {g : FiberRecord → FiberRecord}
    (hg : ∀ r, (g r).observers = r.observers) : w.Withholds (w.modifyFiber id g) :=
  of_eq (fun f => w.observers_modifyFiber id f hg) rfl

theorem foldl {α : Type} {g : World → α → World} (hg : ∀ (w : World) a, w.Withholds (g w a))
    (items : List α) (w : World) : w.Withholds (items.foldl g w) := by
  induction items generalizing w with
  | nil => exact refl w
  | cons a items ih => exact (hg w a).trans (ih _)

end Withholds

/-! ### Actions -/

theorem reports_takeElement (w : World) (channel : ChannelId) (ch : Channel Value SuspensionId) :
    (w.takeElement channel ch).2.store.reports = w.store.reports := by
  unfold takeElement
  split
  · simp [Store.setChannel]
  · rfl

theorem reports_takeUpTo (w : World) (channel : ChannelId) (limit : Nat) :
    (w.takeUpTo channel limit).2.store.reports = w.store.reports := by
  induction limit generalizing w with
  | zero => rfl
  | succ limit ih =>
    unfold takeUpTo
    split
    · rfl
    · next ch _ =>
      have htake := w.reports_takeElement channel ch
      split
      · next w' heq => rwa [heq] at htake
      · next v w' heq =>
        rw [heq] at htake
        exact (ih w').trans htake

theorem reports_perform (w : World) (op : Operation) :
    (w.perform op).2.store.reports = w.store.reports := by
  cases op with
  | newChannel capacity =>
    simp only [perform]
    split <;> rfl
  | drain channel limit =>
    simp only [perform, drain]
    split
    · rfl
    · split
      · rfl
      · exact w.reports_takeUpTo channel _
  | close channel source =>
    simp only [perform, close]
    split
    · rfl
    · simp [Store.setChannel]
  | complete waiter outcome =>
    simp only [perform, answer]
    split
    · exact congrArg Store.reports (w.store_resume waiter outcome)
    · rfl
  | observe | log _ | newCell _ | writeCell _ _ | keep _ _ | newMark | useMark _ | newLease _ => rfl

/-- No action reports an exit. -/
theorem reports_run {α : Type} (a : Action α) (w : World) :
    (a.run w).2.store.reports = w.store.reports := by
  induction a generalizing w with
  | done a => rfl
  | panic d => rfl
  | perform op next ih => exact (ih _ _).trans (w.reports_perform op)

theorem withholds_run {α : Type} (a : Action α) (w : World) : w.Withholds (a.run w).2 :=
  .of_fibers (a.fibers_run w) (reports_run a w)

/-! ### Interruption -/

theorem reports_cancel (w : World) (onInterrupt : Canceler) :
    (w.cancel onInterrupt).store.reports = w.store.reports := by
  cases onInterrupt with
  | nothing | alarm _ => rfl
  | leave channel line ticket =>
    simp only [cancel]
    split <;> rfl
  | action a => exact reports_run a w

theorem withholds_interruptAt (w : World) (fiber : FiberId) (s : SuspensionId) (source : FiberId) :
    w.Withholds (w.interruptAt fiber s source) := by
  refine .of_fibers (w.fibers_interruptAt fiber s source) ?_
  unfold interruptAt
  split
  · exact reports_cancel _ _
  · rfl

theorem withholds_interrupt (w : World) (target source : FiberId) :
    w.Withholds (w.interrupt target source) := by
  have hrecord : w.Withholds (w.recordInterruptor target source) :=
    .modifyFiber w target fun _ => by split <;> rfl
  simp only [interrupt]
  split
  · exact hrecord
  · split
    · exact hrecord.trans (withholds_interruptAt _ _ _ _)
    · exact hrecord

/-! ### Observers -/

theorem withholds_takeExit (w : World) (fiber : FiberId) : w.Withholds (w.takeExit fiber).2 := by
  unfold takeExit
  split
  · exact .modifyFiber w fiber fun _ => rfl
  · exact .refl w

/-- Telling an observer reports nothing, unless somebody outside had asked before. -/
theorem Withholds.notify (h : w.Withholds w') (fiber : FiberId) {observer : Observer}
    (hobserver : ∀ type, observer = .report type → w.IsReported fiber) :
    w.Withholds (w'.notify fiber observer) := by
  have htake := h.trans (w'.withholds_takeExit fiber)
  have hresume : ∀ (w : World) (s : SuspensionId) (o : Outcome), w.Withholds (w.resume s o).2 :=
    fun w s o => .of_store (store_resume w s o)
  cases observer with
  | report type =>
    rintro f (hasked | ⟨x, hx⟩)
    · exact htake f (Or.inl hasked)
    · rcases List.mem_append.mp hx with hx | hx
      · exact htake f (Or.inr ⟨x, hx⟩)
      · obtain ⟨rfl, -⟩ := Prod.mk.inj (List.mem_singleton.mp hx)
        exact hobserver type rfl
  | exitTo waiter type =>
    have hresumed := hresume (w'.takeExit fiber).2 waiter
      (.done (.exit ((w'.takeExit fiber).1.untag type)))
    unfold World.notify
    simp only
    split
    · next w'' heq =>
      rw [heq] at hresumed
      exact htake.trans hresumed
    · next w'' heq =>
      rw [heq] at hresumed
      exact (htake.trans hresumed).trans (.modifyFiber w'' fiber fun _ => rfl)
  | firstDone waiter left => exact h.trans (hresume w' waiter _)
  | firstFailure waiter children position =>
    unfold World.notify
    simp only
    split
    · exact h.trans (hresume w' waiter _)
    · exact h

/-- A fiber that asks for the end of another one is not told outside. -/
theorem withholds_observe (w : World) (fiber : FiberId) {observer : Observer}
    (hobserver : ∀ type, observer ≠ .report type) : w.Withholds (w.observe fiber observer) := by
  unfold observe
  split
  · exact (Withholds.refl w).notify fiber fun type heq => absurd heq (hobserver type)
  · rintro f (⟨type, hmem⟩ | hreport)
    · refine Or.inl ⟨type, ?_⟩
      by_cases heq : f = fiber
      · subst heq
        rw [observers, modifyFiber, Store.fiber?_modifyFiber, if_pos rfl] at hmem
        rw [observers]
        cases hr : w.store.fiber? f with
        | none =>
          rw [hr] at hmem
          exact hmem
        | some r =>
          rw [hr] at hmem
          exact (List.mem_append.mp hmem).resolve_right fun hlast =>
            hobserver type (List.mem_singleton.mp hlast).symm
      · rwa [observers_modifyFiber_other heq] at hmem
    · exact Or.inr hreport

/-! ### Waiting -/

theorem withholds_register (w : World) (waiter : SuspensionId) (registration : Registration) :
    w.Withholds (w.register waiter registration).2 := by
  cases registration with
  | callback f =>
    have hrun := withholds_run (f waiter) w
    simp only [register]
    split
    · next onInterrupt w' heq => rwa [heq] at hrun
    · next d w' heq => rwa [heq] at hrun
  | sleep millis => exact .of_fibers rfl rfl
  | awaitExit fiber type => exact w.withholds_observe fiber fun _ h => by cases h
  | firstDone left right =>
    exact (w.withholds_observe left fun _ h => by cases h).trans
      (withholds_observe _ right fun _ h => by cases h)
  | firstFailure children =>
    exact .foldl (fun w (c : FiberId × Nat) => w.withholds_observe c.1 fun _ h => by cases h)
      children.zipIdx w
  | offer channel v =>
    simp only [register, registerOffer]
    split
    · exact .refl w
    · split <;> exact .of_fibers (by simp [Store.setChannel]) (by simp [Store.setChannel])
  | take channel =>
    simp only [register, registerTake]
    split
    · exact .refl w
    · next ch _ =>
      split
      · exact .of_store (store_resume _ _ _)
      · have htake : w.Withholds (w.takeElement channel ch).2 :=
          .of_fibers (w.fibers_takeElement channel ch) (w.reports_takeElement channel ch)
        split
        · next v w' heq =>
          rw [heq] at htake
          exact htake.trans (.of_store (store_resume _ _ _))
        · next w' heq =>
          rw [heq] at htake
          exact htake.trans (.of_fibers rfl rfl)
  | awaitClose channel =>
    simp only [register, registerClose]
    split
    · exact .refl w
    · split
      · exact .of_store (store_resume _ _ _)
      · exact .of_fibers rfl rfl

/-- A fiber that waits reports nothing. -/
theorem withholds_park (w : World) (fiber : FiberId) (run : RunState)
    (registration : Registration) : w.Withholds (w.park fiber run registration).2 := by
  have hnew : w.Withholds (w.newSuspension fiber run.interruptible registration).2 :=
    (Withholds.of_fibers rfl rfl).trans (.modifyFiber _ fiber fun _ => rfl)
  simp only [park]
  generalize w.newSuspension fiber run.interruptible registration = new at hnew
  obtain ⟨s, w₁⟩ := new
  have hregister := hnew.trans (w₁.withholds_register s registration)
  simp only at hregister ⊢
  generalize w₁.register s registration = registered at hregister
  obtain ⟨result, w₂⟩ := registered
  have hover : ∀ state, w.Withholds (w₂.setSuspension s state) := fun _ =>
    hregister.trans (.of_fibers rfl rfl)
  simp only
  split
  · simp only [parkAt]
    split
    · exact (hover _).trans (withholds_interruptAt _ _ _ _)
    · exact hover _
  all_goals exact hover _

/-! ### What a fiber does -/

theorem withholds_attemptUpdate (w : World) (cell : CellId) (g : Value → Action (Update Value)) :
    w.Withholds (w.attemptUpdate cell g).2 := by
  unfold attemptUpdate
  split
  · exact .refl w
  · next c _ =>
    have hrun := withholds_run (g c.value) w
    split
    · next d w' heq => rwa [heq] at hrun
    · next update w' heq =>
      rw [heq] at hrun
      refine hrun.trans ?_
      unfold commitUpdate
      split
      · exact .refl w'
      · split
        · exact .refl w'
        · exact .of_fibers rfl rfl

theorem withholds_buildRelease (release : ReleaseId) (x : Exit Value Value) (w : World) :
    w.Withholds (w.buildRelease release x).2 := by
  -- a release is built of earlier ones
  induction hindex : release.index using Nat.strongRecOn generalizing release w with
  | _ index ih =>
    subst hindex
    rw [buildRelease]
    split
    · exact .refl w
    · exact withholds_run _ w
    · split
      · next hlt => exact ih _ hlt _ _ rfl
      · exact .refl w
    · split
      · next hlt => exact (ih _ hlt.1 _ _ rfl).trans (ih _ hlt.2 _ _ rfl)
      · exact .refl w
    · split
      · next inner _ hlt =>
        have hbuild := ih _ hlt _ w rfl
        split
        · next i w' heq => rwa [heq] at hbuild
        · next d w' heq => rwa [heq] at hbuild
      · exact .refl w

/-- A fiber that is created by another one is to tell nobody. -/
theorem withholds_fork (w : World) (parent : FiberId) (run : RunState) (child : Instruction)
    (daemon : Bool) : w.Withholds (w.fork parent run child daemon).2 := by
  have hpush : w.Withholds { w with store := { w.store with fibers := w.store.fibers.push {} } } := by
    rintro f (⟨type, hmem⟩ | hreport)
    · refine Or.inl ⟨type, ?_⟩
      rw [observers, Store.fiber?_push] at hmem
      split at hmem
      · cases hmem
      · exact hmem
    · exact Or.inr hreport
  cases daemon with
  | true => exact hpush
  | false => exact hpush.trans (.modifyFiber _ parent fun _ => rfl)

/-- A fiber that ends reports its exit, if somebody outside has asked for it. -/
theorem withholds_complete (w : World) {fiber : FiberId} (hborn : (w.store.fiber? fiber).isSome)
    (outcome : Outcome) : w.Withholds (w.complete fiber outcome) := by
  have hstop : ∀ (w : World) (f : FiberId),
      w.Withholds (if w.store.isFinished f then w else w.interrupt f fiber) := fun w f => by
    split
    · exact .refl w
    · exact w.withholds_interrupt f fiber
  have hdismiss : w.Withholds (w.dismiss fiber) :=
    (Withholds.modifyFiber w fiber fun _ => rfl : w.Withholds (w.forgetChildren fiber)).trans
      (.foldl hstop (w.children fiber) _)
  -- those who are told have asked before the end
  have haudience : ∀ type, .report type ∈ w.audience fiber → w.IsReported fiber :=
    fun type hmem => hdismiss fiber (Or.inl ⟨type, hmem⟩)
  have hending : w.Withholds (w.ending fiber outcome) := by
    refine hdismiss.trans ?_
    rintro f (⟨type, hmem⟩ | hreport)
    · by_cases heq : f = fiber
      · subst heq
        rw [ending, finish, observers, modifyFiber, Store.fiber?_modifyFiber, if_pos rfl] at hmem
        cases hr : (w.dismiss f).store.fiber? f <;> simp [hr] at hmem
      · rw [ending, finish, observers_modifyFiber_other heq] at hmem
        exact Or.inl ⟨type, hmem⟩
    · exact Or.inr hreport
  rw [complete_eq hborn]
  generalize w.audience fiber = observers at haudience
  generalize w.ending fiber outcome = w' at hending
  unfold notifyAll
  induction observers generalizing w' with
  | nil => exact hending
  | cons o observers ih =>
    refine ih (fun type hmem => haudience type (List.mem_cons_of_mem _ hmem)) _ (hending.notify fiber ?_)
    rintro type rfl
    exact haudience type List.mem_cons_self

/-- **Whatever a fiber does, nobody outside comes to ask** for the exit of another one. -/
theorem withholds_carryOut {fiber : FiberId} (hphase : w.phase fiber = some false) (plan : Plan) :
    w.Withholds (w.carryOut fiber plan).2 := by
  cases plan with
  | finish outcome =>
    obtain ⟨r, hr, -⟩ := Option.map_eq_some_iff.mp hphase
    exact w.withholds_complete (by rw [hr]; rfl) outcome
  | proceed run step | reserve run v release | makeWay run => exact .of_fibers rfl rfl
  | build run code | translate run code | compute run code => exact withholds_run code w
  | update run cell g => exact w.withholds_attemptUpdate cell g
  | release run id exit => exact withholds_buildRelease id exit w
  | releaseLease run lease exit =>
    rcases w.carryOut_releaseLease fiber run lease exit with heq | ⟨release, leases, heq⟩ <;>
      simp only [heq]
    · exact .refl w
    · exact (Withholds.of_fibers rfl rfl).trans (withholds_buildRelease release exit _)
  | fork run child daemon => exact w.withholds_fork fiber run child daemon
  | signal run target => exact w.withholds_interrupt target fiber
  | wait run registration =>
    rw [carryOut_wait]
    exact w.withholds_park fiber run registration

end World

namespace Workshop

variable {budget minted : Nat} {s s' : Workshop} {record : List (FiberId × Event)}
  {w : World} {run : RunState} {f c parent : FiberId} {daemon : Bool}

/-- A fiber has been created, and its exit is reported to nobody. -/
def Unreported (c : FiberId) (w : World) : Prop := (w.store.fiber? c).isSome ∧ ¬ w.IsReported c

/-- **A fiber whose exit nobody asks for in the beginning is reported to nobody.** -/
theorem lasting_unreported (c : FiberId) : Lasting (Unreported c) := by
  intro budget s s' events hvalid hmove ⟨hborn, hnot⟩
  refine ⟨lasting_born c hvalid hmove hborn, fun hreported => hnot ?_⟩
  rcases hmove.iterates_or_tends hvalid with
    ⟨f, run, step, stops, -, -, hphase, hworld⟩ | ⟨hnil, -⟩
  · rw [hworld] at hreported
    exact World.withholds_carryOut hphase _ c hreported
  cases hmove with
  | pick => exact hreported
  | @advance w before after slice m hm =>
    subst hm
    rcases Machine.world_advance budget w slice with hqueue | ⟨hmem, -⟩
    · rw [hqueue] at hreported
      exact hreported
    · rw [List.map_eq_nil_iff.mp hnil] at hmem
      cases hmem
  | interrupt target source => exact World.withholds_interrupt _ target source c hreported
  | act a => exact World.withholds_run a _ c hreported
  | ring hm =>
    unfold Machine.ring at hm
    split at hm
    · cases hm
    · next alarm alarms _ =>
      obtain rfl := Option.some.inj hm
      refine (World.Withholds.of_fibers ?_ ?_ : World.Withholds _ _) c hreported <;>
        simp [World.store_resume]
  | @start w running effect environment report =>
    rcases hreported with ⟨type, hmem⟩ | hreport
    · refine Or.inl ⟨type, ?_⟩
      simp only [Machine.startRoot, World.observers, World.store_schedule, Store.fiber?_push] at hmem
      rw [if_neg] at hmem
      · exact hmem
      · rintro rfl
        have hnone : w.store.fiber? w.store.nextFiber = none := Numbered.get?_next _
        rw [hnone] at hborn
        cases hborn
    · exact Or.inr hreport

/-- Nothing is reported of a fiber that has not been created. -/
theorem Run.not_reported_of_unborn (h : Run budget (init minted) record s)
    (hunborn : s.world.store.fiber? c = none) : ¬ s.world.IsReported c := by
  rintro (⟨type, hmem⟩ | ⟨x, hx⟩)
  · rw [World.observers, hunborn] at hmem
    cases hmem
  · obtain ⟨l, rfl, hbooks⟩ := h.books c
    have hmem : x ∈ s.world.store.reports.filterMap
        fun r => if r.1 = l.fiber then some r.2 else none :=
      List.mem_filterMap.mpr ⟨_, hx, if_pos rfl⟩
    rw [hbooks.holds.reports] at hmem
    have hgoing : s.world.store.isFinished l.fiber = false := by
      rw [Store.isFinished, hunborn]
      rfl
    cases hbooks.holds.shelf with
    | going _ _ _ hnil =>
      rw [hnil] at hmem
      cases hmem
    | kept _ hfinished | taken _ hfinished =>
      rw [hgoing] at hfinished
      cases hfinished

/-- **In every run the exit of a fiber that another one has started is in no report.** -/
theorem Run.not_reported_of_forked (h : Run budget (init minted) record s)
    (hforked : Forked record daemon parent c) (x : Exit Value Value) :
    (c, x) ∉ s.world.store.reports := by
  obtain ⟨e, hmem, hstarts⟩ := hforked
  obtain ⟨w, run, i, rfl, rfl⟩ := Event.of_starts hstarts
  obtain ⟨before, after, rfl⟩ := List.append_of_mem hmem
  obtain ⟨s₁, s₂, pre, stops, rfl, hpre, hmove, hlater⟩ := h.at_iteration
  have hvalid := hpre.valid (valid_init minted)
  obtain ⟨rfl, hphase, hworld, -⟩ := hmove.world_of_iterated hvalid
  have hunreported : Unreported s₁.world.store.nextFiber s₂.world := by
    rw [hworld]
    exact ⟨s₁.world.born_fork parent run i daemon (Or.inr rfl), fun hreported =>
      hpre.not_reported_of_unborn (Numbered.get?_next _)
        (World.withholds_carryOut hphase _ _ hreported)⟩
  exact fun hx => ((hlater.lasts (hmove.valid hvalid) (lasting_unreported _) hunreported).1.2)
    (Or.inr ⟨x, hx⟩)

end Workshop

end Fibers
