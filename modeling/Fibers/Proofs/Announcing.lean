import Fibers.Proofs.EndOrder

/-!
# Who has started a fiber is told first

Whoever starts a fiber from outside may ask for its exit at once, before the fiber has done anything
and before anybody else knows of it.  Those who ask later come after, whatever else happens, so when
the fiber ends he is the first one to be told.  The exit is still on the shelf then: he is given it
in every run, and never the defect that it has been observed before.

## Main definitions

* `World.observers` — who is to be told of the end of a fiber, in order.
* `World.TellsFirst` — the one who has started a fiber is going to be told first.
* `Workshop.Announces` — he is going to be told, or has been given the exit.

## Main results

* `World.report?_complete` — a fiber that ends tells him first.
* `Workshop.Announces.move` — every move keeps it so.
* `Workshop.Run.announces` — **in every run the one who has started a fiber is given its exit.**
-/

namespace Fibers

namespace World

variable {w w' : World} {fiber f c : FiberId} {type : ErrorType}

/-! ### Who is to be told -/

/-- Who is to be told of the end of a fiber, in the order in which they have asked. -/
def observers (w : World) (f : FiberId) : List Observer :=
  ((w.store.fiber? f).map FiberRecord.observers).getD []

theorem observers_of_fibers (h : w'.store.fibers = w.store.fibers) (f : FiberId) :
    w'.observers f = w.observers f := by
  rw [observers, observers, Store.fiber?, Store.fiber?, h]

theorem observers_modifyFiber (w : World) (id f : FiberId) {g : FiberRecord → FiberRecord}
    (hg : ∀ r, (g r).observers = r.observers) :
    (w.modifyFiber id g).observers f = w.observers f := by
  simp only [observers, modifyFiber, Store.fiber?_modifyFiber]
  split
  · next heq =>
    subst heq
    cases w.store.fiber? f <;> simp [hg]
  · rfl

theorem observers_modifyFiber_other {id : FiberId} (h : f ≠ id) (w : World)
    (g : FiberRecord → FiberRecord) : (w.modifyFiber id g).observers f = w.observers f := by
  rw [observers, observers, modifyFiber, Store.fiber?_modifyFiber, if_neg h]

/-- Whoever is to be told stays so while a record grows. -/
theorem observers_of_grows (hrecord : ∀ {r}, w.store.fiber? f = some r →
    ∃ r', w'.store.fiber? f = some r' ∧ r.Grows r') : w.observers f <+: w'.observers f := by
  unfold observers
  cases hr : w.store.fiber? f with
  | none => exact List.nil_prefix
  | some r =>
    obtain ⟨r', hr', hgrows⟩ := hrecord hr
    rw [hr']
    exact hgrows.observers

theorem Influences.observers (h : w.Influences w') (f : FiberId) :
    w.observers f <+: w'.observers f := by
  obtain ⟨events, h⟩ := h
  exact observers_of_grows h.grows.record

/-- A fiber that waits forgets nobody. -/
theorem observers_park (w : World) (fiber : FiberId) (run : RunState)
    (registration : Registration) (f : FiberId) :
    w.observers f <+: (w.park fiber run registration).2.observers f := by
  have hnew : (w.newSuspension fiber run.interruptible registration).2.observers f =
      w.observers f := observers_modifyFiber _ fiber f fun _ => rfl
  simp only [park]
  generalize w.newSuspension fiber run.interruptible registration = new at hnew
  obtain ⟨s, w₁⟩ := new
  have hregister := (w₁.influences_register s registration).observers f
  rw [show w₁.observers f = w.observers f from hnew] at hregister
  simp only
  generalize w₁.register s registration = registered at hregister
  obtain ⟨result, w₂⟩ := registered
  simp only
  split
  · simp only [parkAt]
    split
    · rwa [observers_of_fibers (fibers_interruptAt _ _ _ _)]
    · exact hregister
  all_goals exact hregister

/-- A fiber that starts another one forgets nobody. -/
theorem observers_fork (w : World) (parent : FiberId) (run : RunState) (child : Instruction)
    (daemon : Bool) (f : FiberId) :
    w.observers f <+: (w.fork parent run child daemon).2.observers f := by
  obtain ⟨hfresh, -, hrecord, -⟩ := w.bears_fork parent run child daemon
  by_cases heq : f = w.store.nextFiber
  · rw [heq, observers, hfresh]
    exact List.nil_prefix
  · exact observers_of_grows (hrecord heq)

/-- **Whatever a fiber does, nobody is forgotten who is to be told of others**, and it forgets
nobody itself as long as it does not end. -/
theorem observers_carryOut (hsound : w.Sound) (hphase : w.phase fiber = some false) {plan : Plan}
    (hplan : ∀ o, plan = .finish o → f ≠ fiber) :
    w.observers f <+: (w.carryOut fiber plan).2.observers f := by
  cases plan with
  | finish outcome =>
    obtain ⟨r, hr, -⟩ := Option.map_eq_some_iff.mp hphase
    have hborn : (w.store.fiber? fiber).isSome := by
      rw [hr]
      rfl
    have htold := (Influences.foldl (fun w (o : Observer) => w.influences_notify fiber o)
      (w.audience fiber) (w.ending fiber outcome)).observers f
    rw [carryOut, complete_eq hborn]
    rw [ending, finish, observers_modifyFiber_other (hplan _ rfl)] at htold
    exact ((influences_dismiss hsound fiber).observers f).trans htold
  | proceed run step => exact List.prefix_refl _
  | build run code | translate run code | compute run code =>
    exact (code.influences_run w).observers f
  | update run cell g => exact (w.influences_attemptUpdate cell g).observers f
  | release run id exit => exact (influences_buildRelease id exit w).observers f
  | releaseLease run lease exit =>
    rcases w.carryOut_releaseLease fiber run lease exit with heq | ⟨release, leases, heq⟩ <;>
      simp only [heq]
    · exact List.prefix_refl _
    · exact (influences_buildRelease release exit
        { w with store := { w.store with leases } }).observers f
  | reserve run v release => exact List.prefix_refl _
  | fork run child daemon => exact w.observers_fork fiber run child daemon f
  | signal run target => exact (influences_interrupt hsound target fiber).observers f
  | wait run registration =>
    rw [carryOut_wait]
    exact w.observers_park fiber run registration f
  | makeWay run => exact List.prefix_refl _

/-! ### The first one -/

/-- A fiber has not finished, and the one who has started it is going to be told first. -/
structure TellsFirst (w : World) (c : FiberId) (type : ErrorType) : Prop where
  going : w.store.isFinished c = false
  first : (w.observers c).head? = some (.report type)

theorem head?_mono {α : Type} {as bs : List α} {a : α} (h : as <+: bs)
    (ha : as.head? = some a) : bs.head? = some a := by
  obtain ⟨more, rfl⟩ := h
  rw [List.head?_append, ha, Option.some_or]

namespace TellsFirst

theorem of_observers (h : w.TellsFirst c type)
    (hfinished : w'.store.isFinished c = w.store.isFinished c)
    (hobservers : w.observers c <+: w'.observers c) : w'.TellsFirst c type where
  going := hfinished.trans h.going
  first := head?_mono hobservers h.first

/-- **Nothing that a fiber does comes in between**, unless it ends. -/
theorem carryOut (h : w.TellsFirst c type) (hsound : w.Sound)
    (hphase : w.phase fiber = some false) {plan : Plan}
    (hplan : ∀ o, plan = .finish o → c ≠ fiber) : (w.carryOut fiber plan).2.TellsFirst c type := by
  refine h.of_observers ?_ (observers_carryOut hsound hphase hplan)
  obtain ⟨r, hr, -⟩ := Option.map_eq_some_iff.mp hphase
  have hborn : (w.store.fiber? fiber).isSome := by
    rw [hr]
    rfl
  cases plan with
  | finish outcome =>
    rw [World.carryOut, complete_eq hborn, (sameBonds_notifyAll _ _ _).isFinished,
      w.isFinished_ending_other fiber outcome (hplan _ rfl)]
  | fork run child daemon => exact w.isFinished_fork fiber run child daemon c
  | _ => exact (w.tends_carryOut fiber (by simp) (by simp)).finished c

end TellsFirst

/-! ### The end -/

/-- What has been reported stays reported. -/
theorem reports_notify (w : World) (fiber : FiberId) (observer : Observer) :
    w.store.reports <+: (w.notify fiber observer).store.reports := by
  have htake : (w.takeExit fiber).2.store.reports = w.store.reports := by
    unfold takeExit
    split <;> rfl
  cases observer with
  | report type =>
    simp only [notify, htake]
    exact List.prefix_append _ _
  | exitTo waiter type =>
    have hresume := congrArg Store.reports (store_resume (w.takeExit fiber).2 waiter
      (.done (.exit ((w.takeExit fiber).1.untag type))))
    simp only [notify]
    split
    · next heq =>
      rw [heq] at hresume
      exact (hresume.trans htake).symm ▸ List.prefix_refl _
    · next heq =>
      rw [heq] at hresume
      exact (hresume.trans htake).symm ▸ List.prefix_refl _
  | firstDone waiter left =>
    simp only [notify, store_resume]
    exact List.prefix_refl _
  | firstFailure waiter children position =>
    simp only [notify]
    split
    · simp only [store_resume]
      exact List.prefix_refl _
    · exact List.prefix_refl _

theorem reports_notifyAll (w : World) (fiber : FiberId) (observers : List Observer) :
    w.store.reports <+: (w.notifyAll fiber observers).store.reports := by
  induction observers generalizing w with
  | nil => exact List.prefix_refl _
  | cons o observers ih => exact (w.reports_notify fiber o).trans (ih _)

/-- What has been reported of a fiber first. -/
theorem report?_append {store store' : Store} {more : List (FiberId × Exit Value Value)}
    {x : Exit Value Value} (h : store.reports ++ more <+: store'.reports)
    (hnone : store.report? c = none) (hmore : more.lookup c = some x) :
    store'.report? c = some x := by
  obtain ⟨rest, hrest⟩ := h
  rw [Store.report?, ← hrest, List.lookup_append, List.lookup_append, ← Store.report?, hnone,
    hmore]
  rfl

/-- **A fiber that ends tells the one who has started it first**, and gives him its exit. -/
theorem report?_complete (hsound : w.Sound) (h : w.TellsFirst c type)
    (hborn : (w.store.fiber? c).isSome) (o : Outcome)
    (hnone : (w.dismiss c).store.report? c = none) :
    (w.complete c o).store.report? c = some (o.untag type) := by
  obtain ⟨rest, hrest⟩ : ∃ rest, w.audience c = .report type :: rest :=
    List.head?_eq_some_iff.mp (head?_mono ((influences_dismiss hsound c).observers c) h.first)
  have hexit : (w.ending c o).store.exit? c = some o := by
    have hborn' : ((w.dismiss c).store.fiber? c).isSome :=
      (tends_interruptUnfinished _ _ _).born (by rwa [forgetChildren, isSome_modifyFiber])
    obtain ⟨r, hr⟩ := Option.isSome_iff_exists.mp hborn'
    rw [ending, finish, exit?_modifyFiber, if_pos rfl, hr, Option.bind_some]
  rw [complete_eq hborn, hrest]
  have hfirst : ((w.ending c o).notify c (.report type)).store.reports =
      (w.dismiss c).store.reports ++ [(c, o.untag type)] := by
    simp only [notify, takeExit_of_some hexit]
    rfl
  have hlater := reports_notifyAll ((w.ending c o).notify c (.report type)) c rest
  rw [hfirst] at hlater
  exact report?_append hlater hnone (by simp)

end World

/-- What is reported of a fiber is what the one who has started it has been given first. -/
theorem Ledger.Holds.report?_eq {l : Ledger} {w : World} (h : l.Holds w) :
    w.store.report? l.fiber =
      (l.given.filterMap fun e => if e.1 = none then some e.2 else none).head? := by
  rw [← h.reports, Store.report?]
  induction w.store.reports with
  | nil => rfl
  | cons r reports ih =>
    obtain ⟨f, x⟩ := r
    by_cases heq : f = l.fiber
    · simp [heq]
    · have hne : (l.fiber == f) = false := beq_false_of_ne (Ne.symm heq)
      simpa [List.lookup_cons, heq, hne] using ih

namespace Workshop

variable {budget minted : Nat} {s s' : Workshop}
  {record events before after : List (FiberId × Event)}
  {l : Ledger} {w : World} {running : List Slice} {type : ErrorType} {o : Outcome}

/-! ### Moves -/

/-- A move in which nobody iterates forgets nobody who is to be told. -/
theorem Move.observers (h : Move budget s [] s') (hvalid : s.Valid) (f : FiberId) :
    s.world.observers f <+: s'.world.observers f := by
  generalize hevents : ([] : List (FiberId × Event)) = events at h
  cases h with
  | pick => exact List.prefix_refl _
  | @advance w before after slice m hm =>
    subst hm
    rcases Machine.world_advance budget w slice with hqueue | ⟨hmem, -⟩
    · rw [hqueue]
      exact List.prefix_refl _
    · rw [List.map_eq_nil_iff.mp hevents.symm] at hmem
      cases hmem
  | interrupt target source =>
    exact (World.influences_interrupt hvalid.sound target source).observers f
  | act a => exact (a.influences_run _).observers f
  | ring hm =>
    obtain ⟨world, hworld, rfl⟩ := Machine.of_ring hm
    exact hworld.observers f
  | @start w running effect environment report =>
    obtain ⟨hfresh, -, hrecord, -⟩ := w.store.bears_push
      (r := { observers := (report.map Observer.report).toList }) rfl rfl
    by_cases heq : f = w.store.nextFiber
    · rw [heq, World.observers, hfresh]
      exact List.nil_prefix
    · exact World.observers_of_grows (hrecord heq)

/-- The one who has started a fiber is going to be told first, or has been given its exit. -/
inductive Announces (record : List (FiberId × Event)) (w : World) (c : FiberId)
    (type : ErrorType) : Prop where
  | going : w.TellsFirst c type → Announces record w c type
  | told {o : Outcome} : Ended record c o → w.store.report? c = some (o.untag type) →
      Announces record w c type

/-- Nothing has been reported of a fiber that has not finished. -/
theorem Books.report?_of_going (h : Books l record s) (hw : s.world.Orderly) (hvalid : s.Valid)
    (hgoing : s.world.store.isFinished l.fiber = false) :
    (s.world.dismiss l.fiber).store.report? l.fiber = none := by
  obtain ⟨more, hmore, -⟩ := (World.relays_dismiss hw hvalid.sound l.fiber).holds h.holds
  have hgoing' : (s.world.dismiss l.fiber).store.isFinished l.fiber = false :=
    (s.world.isFinished_dismiss l.fiber l.fiber).trans hgoing
  have hreport := hmore.report?_eq
  cases hmore.shelf with
  | going _ _ _ hnil =>
    rw [hnil] at hreport
    exact hreport
  | kept _ hdone _ _ _ | taken _ hdone _ _ _ _ _ =>
    rw [show (l.give more).fiber = l.fiber from rfl, hgoing'] at hdone
    cases hdone

/-- **Every move keeps it so.** -/
theorem Announces.move (h : Announces record s.world l.fiber type)
    (hmove : Move budget s events s') (hvalid : s.Valid) (hw : s.world.Orderly)
    (hbooks : Books l record s) : Announces (record ++ events) s'.world l.fiber type := by
  cases h with
  | told hended hreport =>
    -- what he has been given stays the first thing that he has been given
    obtain ⟨l', hfiber, hgiven, hbooks'⟩ := hmove.books hvalid hw hbooks
    refine .told (hended.append events) ?_
    rw [hbooks.holds.report?_eq] at hreport
    rw [← hfiber, hbooks'.holds.report?_eq]
    exact World.head?_mono (hgiven.filterMap _) hreport
  | going htells =>
    rcases hmove.iterates_or_tends hvalid with
      ⟨fiber, run, step, stops, rfl, -, hphase, hworld⟩ | ⟨rfl, htends⟩
    · rw [hworld]
      by_cases hends : ∃ o, step.plan (s.world.pending fiber) fiber run = .finish o ∧
          l.fiber = fiber
      · obtain ⟨o, hplan, rfl⟩ := hends
        obtain ⟨r, hr, -⟩ := Option.map_eq_some_iff.mp hphase
        have hborn : (s.world.store.fiber? l.fiber).isSome := by
          rw [hr]
          rfl
        refine .told ⟨s.world, run, step, by simp, hplan⟩ ?_
        rw [hplan]
        exact World.report?_complete hvalid.sound htells hborn o
          (hbooks.report?_of_going hw hvalid htells.going)
      · refine .going (htells.carryOut hvalid.sound hphase fun o hplan heq => ?_)
        exact hends ⟨o, hplan, heq⟩
    · rw [List.append_nil]
      exact .going (htells.of_observers (htends.finished l.fiber) (hmove.observers hvalid l.fiber))

/-! ### Runs -/

theorem Run.announces_later (h : Run budget s after s') (hvalid : s.Valid) (hw : s.world.Orderly)
    (hbooks : Books l before s) (hannounces : Announces before s.world l.fiber type) :
    Announces (before ++ after) s'.world l.fiber type := by
  induction h generalizing l before with
  | rest => rwa [List.append_nil]
  | move hmove _ ih =>
    have hnext := hannounces.move hmove hvalid hw hbooks
    obtain ⟨l', hfiber, -, hbooks'⟩ := hmove.books hvalid hw hbooks
    rw [← hfiber] at hnext ⊢
    rw [← List.append_assoc]
    exact ih (hmove.valid hvalid) ((hmove.chronicles hvalid hw).orderly hw) hbooks' hnext

/-- A fiber that has just been started is going to tell the one who has started it. -/
theorem tellsFirst_startRoot (budget : Nat) (w : World) (effect : Instruction)
    (environment : Value) (type : ErrorType) :
    (Machine.startRoot { budget, world := w } effect environment (some type)).2.world.TellsFirst
      w.store.nextFiber type := by
  have hrecord := w.store.fiber?_push { observers := [.report type] } w.store.nextFiber
  rw [if_pos rfl] at hrecord
  refine ⟨?_, ?_⟩
  · change Store.isFinished { w.store with fibers := w.store.fibers.push _ } _ = false
    rw [Store.isFinished]
    exact congrArg (·.any FiberRecord.finished) hrecord
  · exact congrArg (fun r => ((r.map FiberRecord.observers).getD []).head?) hrecord

/-- **In every run the one who has started a fiber is given its exit**, whoever else asks for it. -/
theorem Run.announces (hbefore : Run budget (init minted) before ⟨w, running⟩)
    {effect : Instruction} {environment : Value}
    (hafter : Run budget
      ⟨(Machine.startRoot { budget, world := w } effect environment (some type)).2.world, running⟩
      after s) (hended : Ended (before ++ after) w.store.nextFiber o) :
    s.world.store.report? w.store.nextFiber = some (o.untag type) := by
  have hinit := World.orderly_init minted
  have hvalid := hbefore.valid (valid_init minted)
  have hw := (hbefore.exists_chronicle (valid_init minted) hinit).orderly hinit
  obtain ⟨l, hfiber, hbooks⟩ := hbefore.books w.store.nextFiber
  have hstart : Move budget ⟨w, running⟩ [] _ := .start effect environment (some type)
  obtain ⟨l', hfiber', -, hbooks'⟩ := hstart.books hvalid hw hbooks
  rw [List.append_nil] at hbooks'
  rw [← hfiber, ← hfiber'] at hended ⊢
  have hfirst : Announces before
      (Machine.startRoot { budget, world := w } effect environment (some type)).2.world l'.fiber
        type := by
    rw [hfiber', hfiber]
    exact .going (tellsFirst_startRoot budget w effect environment type)
  have hvalid' := hstart.valid hvalid
  have hw' := (hstart.chronicles hvalid hw).orderly hw
  obtain ⟨l'', hfiber'', -, hbooks''⟩ := hafter.extends_books hvalid' hw' hbooks'
  rw [← hfiber''] at hended
  have hresult := (hbooks''.result o).mpr hended
  cases hafter.announces_later hvalid' hw' hbooks' hfirst with
  | going htells =>
    -- what has ended has finished
    have hgoing := htells.going
    rw [← hfiber''] at hgoing
    cases hbooks''.holds.shelf with
    | going hnone _ _ _ =>
      rw [hresult] at hnone
      cases hnone
    | kept _ hdone _ _ _ | taken _ hdone _ _ _ _ _ =>
      rw [hgoing] at hdone
      cases hdone
  | told hended' hreport =>
    rw [← hfiber''] at hended'
    rw [(hbooks''.result _).mpr hended'] at hresult
    obtain rfl := Option.some.inj hresult
    exact hreport

end Workshop

end Fibers
