import Mathlib.Data.List.Chain
import Fibers.Proofs.Bookkeeping

/-!
# What waiting fibers are told in a run

The record of a run tells when a fiber begins to wait, and what it does next.  For any fiber there
is a ledger that fits the last world of the run, and that agrees with the record: whoever has gone
on from a wait has gone on with what is so, or with a cancellation; no two waits have one place; and
the ledger knows the fiber's end exactly when the record tells it.

## Main definitions

* `Event.wait?` — the wait that a fiber begins.
* `Ledger.WentOn` — what a fiber does after a wait.
* `Workshop.Books` — a ledger that agrees with a record.

## Main results

* `Workshop.Move.books` — what one move does.
* `Workshop.Run.books` — **every run keeps a ledger of every fiber.**
-/

namespace Fibers

/-! ### Waits in a record -/

/-- The wait that a fiber begins. -/
def Event.wait? : Event → Option Wait
  | .iterated w run (.eval (.wait registration)) => some ⟨⟨w.suspensions.next⟩, registration, run⟩
  | _ => none

/-- A plan begins a wait exactly for the instruction to wait. -/
theorem Step.eq_of_plan_wait {pending : Option FiberId} {fiber : FiberId} {run run' : RunState}
    {step : Step} {registration : Registration}
    (h : step.plan pending fiber run = .wait run' registration) :
    step = .eval (.wait registration) ∧ run' = run := by
  cases step with
  | eval i =>
    cases i with
    | wait registration' =>
      obtain ⟨rfl, rfl⟩ := Plan.wait.inj h
      exact ⟨rfl, rfl⟩
    | _ => cases h
  | value v =>
    rcases run.planValue_cases v with ⟨heq, -⟩ | ⟨rest, code, heq⟩ | ⟨rest, heq⟩ <;>
      cases heq.symm.trans h
  | halt failure =>
    rcases RunState.planHalt_cases pending run failure with ⟨heq, -⟩ | ⟨-, rest, code, heq⟩ |
      ⟨rest, code, heq⟩ | ⟨rest, h', heq⟩ <;> cases heq.symm.trans h
  | attempt cell f => cases h

/-- The wait of a plan is the one of the iteration that makes it. -/
theorem Step.wait?_plan (w : World) (pending : Option FiberId) (fiber : FiberId) (run : RunState)
    (step : Step) :
    (step.plan pending fiber run).wait? w = (Event.iterated w run step).wait? := by
  cases hplan : step.plan pending fiber run with
  | wait run' registration =>
    obtain ⟨rfl, rfl⟩ := Step.eq_of_plan_wait hplan
    rfl
  | _ =>
    -- no other plan is made for the instruction to wait
    cases step with
    | eval i =>
      cases i with
      | wait registration => cases hplan
      | _ => rfl
    | _ => rfl

namespace Ledger

variable {l : Ledger} {w w' : World} {wait : Wait} {e : Event}

/-- What a fiber does after a wait. -/
inductive WentOn (l : Ledger) (wait : Wait) : Event → Prop where
  /-- It goes on with what it has been told, or with a cancellation. -/
  | iterated {w : World} {run : RunState} {step : Step} : l.GoesOn w wait run step →
      WentOn l wait (.iterated w run step)
  /-- It drops what it has been told, for a pending cancellation. -/
  | stopped {w : World} {v : Value} : l.Told w.store wait.place wait.registration (.done v) →
      WentOn l wait (.stopped w)

/-- Only a value that has been told gives way to a cancellation. -/
theorem GoesOn.told_of_givesWay {run : RunState} {step : Step} (h : l.GoesOn w wait run step)
    (hgives : step.givesWay = true) :
    ∃ v, l.Told w.store wait.place wait.registration (.done v) := by
  cases h with
  | @told o htold =>
    cases o with
    | done v => exact ⟨v, htold⟩
    | halt failure => cases hgives
  | interrupted source _ _ => cases hgives

theorem Told.give {more : List (Option SuspensionId × Exit Value Value)} {store : Store}
    {s : SuspensionId} {registration : Registration} {o : Outcome}
    (h : l.Told store s registration o) : (l.give more).Told store s registration o :=
  ⟨h.answered,
    fun type x hregistration ho => List.mem_append_left _ (h.exit type x hregistration ho),
    fun children hregistration ho hmem => (h.succeeded children hregistration ho hmem).give,
    fun children i hregistration ho hi => (h.failed children i hregistration ho hi).give⟩

/-- Time passes without more. -/
theorem Later.forget {more : List (Option SuspensionId × Exit Value Value)} (h : Later more w w') :
    Later [] w w' :=
  ⟨h.preserves, h.remembers, h.isOver, by simp⟩

/-- What a fiber did after a wait remains so when more is given. -/
theorem WentOn.give {more : List (Option SuspensionId × Exit Value Value)} (h : l.WentOn wait e)
    (hearlier : ∀ {v}, e.world? = some v → Later [] v w) (hlater : Later more w w') :
    (l.give more).WentOn wait e := by
  cases h with
  | stopped htold => exact .stopped htold.give
  | @iterated v run step hgo =>
    refine .iterated ?_
    cases hgo with
    | told htold => exact .told htold.give
    | interrupted source hallowed hlost =>
      refine .interrupted source hallowed ⟨hlost.isOver, fun x hmem => ?_, hlost.asked⟩
      rcases List.mem_append.mp hmem with hold | hnew
      · exact hlost.nothing x hold
      · -- the place has been over for some time
        have hover := (hearlier rfl).isOver _ hlost.isOver
        rw [hlater.fresh _ x hnew] at hover
        cases hover

theorem WentOn.extended {l' : Ledger} (h : l.WentOn wait e) (hl : l.Extends l') :
    l'.WentOn wait e := by
  cases h with
  | iterated hgo => exact .iterated (hgo.extended hl)
  | stopped htold => exact .stopped (htold.extended hl)

end Ledger

/-- A fiber that does nothing keeps what it has left. -/
theorem Course.standing_of_idle {fiber : FiberId} {I : Standing → Prop} {a b : Standing}
    {es : List Event} {run : RunState} (h : Course fiber I a es b)
    (hes : es.filter Event.isDoing = []) (ha : (∃ step, a = .active run step) ∨ a = .waiting run) :
    (∃ step, b = .active run step) ∨ b = .waiting run := by
  induction h with
  | rest => exact ha
  | go _ hgoes _ ih =>
    cases hgoes with
    | started _ _ _ => rcases ha with ⟨step, heq⟩ | heq <;> cases heq
    | stopped _ _ | iterated _ => cases hes
    | resumed outcome | cancelled source _ =>
      rcases ha with ⟨step, heq⟩ | heq
      · cases heq
      · obtain rfl := Standing.waiting.inj heq
        exact ih hes (Or.inl ⟨_, rfl⟩)

/-! ### Ledgers of a run -/

namespace Workshop

/-- A ledger that fits the world of a workshop, and agrees with the record of what has led to it. -/
structure Books (l : Ledger) (record : List (FiberId × Event)) (s : Workshop) : Prop where
  holds : l.Holds s.world
  running : ∀ {slice wait}, slice ∈ s.running → l.last slice.fiber = some wait →
    l.GoesOn s.world wait slice.run slice.step
  last : ∀ fiber, l.last fiber = (eventsOf fiber record).getLast?.bind Event.wait?
  earlier : ∀ {e w}, e ∈ record → e.2.world? = some w → Ledger.Later [] w s.world
  went : ∀ fiber, (eventsOf fiber record).IsChain fun e e' =>
    ∀ wait, e.wait? = some wait → l.WentOn wait e'
  placed : ∀ {fiber e wait}, (fiber, e) ∈ record → e.wait? = some wait →
    ∃ p, s.world.suspension? wait.place = some p ∧ p.fiber = fiber ∧
      p.registration = wait.registration
  distinct : ∀ fiber, (eventsOf fiber record).Pairwise fun e e' =>
    ∀ wait wait', e.wait? = some wait → e'.wait? = some wait' → wait.place ≠ wait'.place
  asked : ∀ {place type}, (place, type) ∈ l.asked → ∃ fiber w run,
    (fiber, .iterated w run (.eval (.wait (.awaitExit l.fiber type)))) ∈ record ∧
      place = ⟨w.suspensions.next⟩
  pending : ∀ o ∈ l.pending, ∃ fiber w run registration,
    (fiber, .iterated w run (.eval (.wait registration))) ∈ record ∧
      o ∈ registration.observers ⟨w.suspensions.next⟩ l.fiber ∧ w.store.fiber? l.fiber = none
  result : ∀ o, l.result = some o ↔ ∃ w run step,
    (l.fiber, .iterated w run step) ∈ record ∧
      Step.plan (w.pending l.fiber) l.fiber run step = .finish o

namespace Books

variable {l : Ledger} {record : List (FiberId × Event)} {w w' : World}
  {running before after : List Slice} {slice : Slice}

/-- What has been done after waits remains so while time passes. -/
theorem went_give (h : Books l record ⟨w, running⟩)
    {more : List (Option SuspensionId × Exit Value Value)} (hlater : Ledger.Later more w w')
    (fiber : FiberId) : (eventsOf fiber record).IsChain fun e e' =>
      ∀ wait, e.wait? = some wait → (l.give more).WentOn wait e' :=
  (h.went fiber).imp_of_mem_imp fun _ _ _ he' hwent wait hwait =>
    (hwent wait hwait).give (fun hworld => h.earlier (mem_eventsOf.mp he') hworld) hlater

/-- The places of waits remain while time passes. -/
theorem placed_later (h : Books l record ⟨w, running⟩)
    {more : List (Option SuspensionId × Exit Value Value)} (hlater : Ledger.Later more w w')
    {fiber : FiberId} {e : Event} {wait : Wait} (he : (fiber, e) ∈ record)
    (hwait : e.wait? = some wait) : ∃ p, w'.suspension? wait.place = some p ∧ p.fiber = fiber ∧
      p.registration = wait.registration := by
  obtain ⟨p, hp, hfiber, hregistration⟩ := h.placed he hwait
  obtain ⟨state, hp'⟩ := hlater.preserves.place hp
  exact ⟨_, hp', hfiber, hregistration⟩

/-- What fibers have found in the past is still so. -/
theorem earlier_later (h : Books l record ⟨w, running⟩)
    {more : List (Option SuspensionId × Exit Value Value)} (hlater : Ledger.Later more w w')
    {e : FiberId × Event} {v : World} (he : e ∈ record) (hworld : e.2.world? = some v) :
    Ledger.Later [] v w' := by
  simpa using (h.earlier he hworld).trans hlater.forget

/-- The world changes while no fiber does anything. -/
theorem relays (h : Books l record ⟨w, running⟩) (hw : w.Relays w') :
    ∃ more, Books (l.give more) record ⟨w', running⟩ := by
  obtain ⟨more, hmore, hlater⟩ := hw.holds h.holds
  exact ⟨more, hmore, fun hslice hwait => (h.running hslice hwait).later hlater, h.last,
    h.earlier_later hlater, h.went_give hlater, h.placed_later hlater, h.distinct, h.asked,
    h.pending, h.result⟩

/-- A ready fiber is picked up. -/
theorem pick (h : Books l record ⟨w, running⟩) {tasks : Fifo Task} {first last : List Task}
    {task : Task} (hw : w.tasks.toList = first ++ task :: last)
    (hw' : tasks.toList = first ++ last) :
    Books l record ⟨{ w with tasks }, ⟨task.fiber, task.run, task.step, 0⟩ :: running⟩ := by
  have hlater : Ledger.Later [] w { w with tasks } := .of_suspensions rfl (.refl _)
  have hrest : ∀ {t}, t ∈ tasks.toList → t ∈ w.tasks.toList := by
    intro t ht
    rw [hw'] at ht
    rw [hw]
    exact (List.mem_append.mp ht).elim (List.mem_append_left _)
      fun hlast => List.mem_append_right _ (List.mem_cons_of_mem _ hlast)
  have hplaces : l.Places { w with tasks } :=
    ⟨h.holds.places.parked, h.holds.places.early,
      fun ht hwait => by simpa using (h.holds.places.ready (hrest ht) hwait).later hlater,
      h.holds.places.once, h.holds.places.served, h.holds.places.asked⟩
  have hholds : l.Holds { w with tasks } :=
    ⟨⟨h.holds.names, hplaces, ⟨h.holds.promises.alarms, h.holds.promises.observers⟩,
      h.holds.attends, h.holds.unborn⟩, h.holds.shelf.preserved (.of_suspensions rfl) rfl rfl rfl,
      h.holds.reports⟩
  refine ⟨hholds, fun {slice wait} hslice hwait => ?_, h.last, h.earlier_later hlater,
    by simpa using h.went_give hlater, h.placed_later hlater, h.distinct, h.asked, h.pending,
    h.result⟩
  rcases List.mem_cons.mp hslice with rfl | hold
  · have htask : task ∈ w.tasks.toList := by
      rw [hw]
      exact List.mem_append_right _ List.mem_cons_self
    simpa using (h.holds.places.ready htask hwait).later hlater
  · simpa using (h.running hold hwait).later hlater

/-- A running fiber has to queue. -/
theorem queue (h : Books l record ⟨w, before ++ slice :: after⟩) :
    Books l record ⟨w.schedule slice.fiber slice.run slice.step, before ++ after⟩ := by
  have hlater : Ledger.Later [] w (w.schedule slice.fiber slice.run slice.step) :=
    .of_suspensions rfl (.refl _)
  have hslice : slice ∈ before ++ slice :: after := List.mem_append_right _ List.mem_cons_self
  refine ⟨h.holds.schedule fun wait hwait => h.running hslice hwait,
    fun {other wait} hother hwait => ?_, h.last, h.earlier_later hlater,
    by simpa using h.went_give hlater, h.placed_later hlater, h.distinct, h.asked, h.pending,
    h.result⟩
  have hmem : other ∈ before ++ slice :: after :=
    (List.mem_append.mp hother).elim (List.mem_append_left _)
      fun hlast => List.mem_append_right _ (List.mem_cons_of_mem _ hlast)
  simpa using (h.running hmem hwait).later hlater

/-! ### An iteration -/

/-- What is done in an iteration, with the cancellation for which the fiber stops. -/
def iteration (w : World) (slice : Slice) : List Event :=
  (if slice.step.givesWay && w.mustStop slice.fiber slice.run then [Event.stopped w] else []) ++
    [.iterated w slice.run (w.divert slice.fiber slice.run slice.step)]

theorem wait?_of_mem_iteration {e : Event} (he : e ∈ iteration w slice) {wait : Wait}
    (hwait : e.wait? = some wait) :
    e = .iterated w slice.run (w.divert slice.fiber slice.run slice.step) := by
  rcases List.mem_append.mp he with hstopped | hiterated
  · split at hstopped
    · rw [List.mem_singleton.mp hstopped] at hwait
      cases hwait
    · cases hstopped
  · exact List.mem_singleton.mp hiterated

theorem world_of_mem_iteration {e : Event} (he : e ∈ iteration w slice) : e.world? = some w := by
  rcases List.mem_append.mp he with hstopped | hiterated
  · split at hstopped
    · rw [List.mem_singleton.mp hstopped]
      rfl
    · cases hstopped
  · rw [List.mem_singleton.mp hiterated]
    rfl

/-- What a fiber does after its last wait. -/
theorem link (h : Books l record ⟨w, running⟩) (hslice : slice ∈ running) {e e' : Event}
    {wait : Wait} (he : e ∈ (eventsOf slice.fiber record).getLast?) (hwait : e.wait? = some wait)
    (he' : e' ∈ (iteration w slice).head?) : l.WentOn wait e' := by
  have hlast : l.last slice.fiber = some wait := by
    rw [h.last, Option.mem_def.mp he, Option.bind_some, hwait]
  have hgo := h.running hslice hlast
  rw [iteration, World.divert_eq] at he'
  split at he'
  · next hstops =>
    obtain rfl := Option.some.inj he'
    obtain ⟨v, htold⟩ := hgo.told_of_givesWay (Bool.and_eq_true_iff.mp hstops).1
    exact .stopped htold
  · obtain rfl := Option.some.inj he'
    exact .iterated hgo

/-- A record with an iteration. -/
def recorded (record : List (FiberId × Event)) (w : World) (slice : Slice) :
    List (FiberId × Event) :=
  record ++ (iteration w slice).map (slice.fiber, ·)

theorem eventsOf_recorded_self (record : List (FiberId × Event)) (w : World) (slice : Slice) :
    eventsOf slice.fiber (recorded record w slice) =
      eventsOf slice.fiber record ++ iteration w slice := by
  rw [recorded, eventsOf_append, eventsOf_map_self]

theorem eventsOf_recorded_other {f : FiberId} (hne : f ≠ slice.fiber) :
    eventsOf f (recorded record w slice) = eventsOf f record := by
  rw [recorded, eventsOf_append, eventsOf_map_other hne.symm, List.append_nil]

theorem of_mem_recorded {f : FiberId} {e : Event} (he : (f, e) ∈ recorded record w slice) :
    (f, e) ∈ record ∨ f = slice.fiber ∧ e ∈ iteration w slice := by
  refine (List.mem_append.mp he).imp_right fun hnew => ?_
  obtain ⟨e', he', heq⟩ := List.mem_map.mp hnew
  obtain ⟨rfl, rfl⟩ := Prod.mk.inj heq
  exact ⟨rfl, he'⟩

theorem mem_recorded {f : FiberId} {e : Event} (he : (f, e) ∈ record) :
    (f, e) ∈ recorded record w slice := List.mem_append_left _ he

theorem iterated_mem_recorded (record : List (FiberId × Event)) (w : World) (slice : Slice) :
    (slice.fiber, .iterated w slice.run (w.divert slice.fiber slice.run slice.step)) ∈
      recorded record w slice :=
  List.mem_append_right _
    (List.mem_map_of_mem (List.mem_append_right _ (List.mem_singleton_self _)))

section Iteration

variable (h : Books l record ⟨w, before ++ slice :: after⟩) {plan : Plan}
  (hplan : (w.divert slice.fiber slice.run slice.step).plan (w.pending slice.fiber) slice.fiber
    slice.run = plan)
  {more : List (Option SuspensionId × Exit Value Value)}
  (hmore : l.Advances more w slice.fiber plan (w.carryOut slice.fiber plan))
  (hin : w.InHand slice.fiber)

include hplan in
theorem wait?_iterated :
    (Event.iterated w slice.run (w.divert slice.fiber slice.run slice.step)).wait? =
      plan.wait? w := by
  rw [← hplan, Step.wait?_plan]

include h hmore hin in
/-- The running fibers go on from their waits. -/
theorem running_iterate {next : Option Slice} (hbefore : inHand before slice.fiber = [])
    (hafter : inHand after slice.fiber = [])
    (hnext : ∀ n ∈ next, n.fiber = slice.fiber ∧
      (w.carryOut slice.fiber plan).1 = some (n.run, n.step))
    {n : Slice} {wait : Wait} (hn : n ∈ before ++ next.toList ++ after)
    (hlast : (l.after w slice.fiber plan).last n.fiber = some wait) :
    ((l.after w slice.fiber plan).give more).GoesOn (w.carryOut slice.fiber plan).2 wait n.run
      n.step := by
  rw [l.after_last w slice.fiber plan n.fiber] at hlast
  have hgone : ∀ {slices : List Slice}, inHand slices slice.fiber = [] → n ∈ slices →
      n.fiber ≠ slice.fiber := by
    intro slices hnone hn heq
    have hmem : n ∈ slices.filter (·.fiber = slice.fiber) :=
      List.mem_filter.mpr ⟨hn, decide_eq_true heq⟩
    rw [List.map_eq_nil_iff.mp hnone] at hmem
    cases hmem
  have hstays : n.fiber ≠ slice.fiber → n ∈ before ++ slice :: after →
      ((l.after w slice.fiber plan).give more).GoesOn (w.carryOut slice.fiber plan).2 wait n.run
        n.step := by
    intro hne hn
    rw [if_neg hne] at hlast
    exact ((h.running hn hlast).extended (h.holds.extends_after hin plan)).later hmore.later
  rcases List.mem_append.mp hn with hfirst | hlater
  · rcases List.mem_append.mp hfirst with hold | hthis
    · exact hstays (hgone hbefore hold) (List.mem_append_left _ hold)
    · obtain ⟨hfiber, hgo⟩ := hnext n (Option.mem_toList.mp hthis)
      rw [if_pos hfiber] at hlast
      exact hmore.goes hgo hlast
  · exact hstays (hgone hafter hlater) (List.mem_append_right _ (List.mem_cons_of_mem _ hlater))

include h hplan in
/-- The last wait of every fiber is the one with which its record ends, if it does. -/
theorem last_iterate (f : FiberId) : (l.after w slice.fiber plan).last f =
    (eventsOf f (recorded record w slice)).getLast?.bind Event.wait? := by
  rw [l.after_last w slice.fiber plan f]
  split
  · next heq =>
    rw [heq, eventsOf_recorded_self, iteration, ← List.append_assoc, List.getLast?_concat,
      Option.bind_some, wait?_iterated hplan]
  · next hne => rw [eventsOf_recorded_other hne, h.last]

include h hmore hin in
/-- Every fiber has gone on from its waits. -/
theorem went_iterate (f : FiberId) : (eventsOf f (recorded record w slice)).IsChain fun e e' =>
    ∀ wait, e.wait? = some wait → ((l.after w slice.fiber plan).give more).WentOn wait e' := by
  have hsame : ∀ {wait e}, (l.give more).WentOn wait e →
      ((l.after w slice.fiber plan).give more).WentOn wait e := fun hwent =>
    hwent.extended ((h.holds.extends_after hin plan).give more)
  have hold : (eventsOf f record).IsChain fun e e' => ∀ wait, e.wait? = some wait →
      ((l.after w slice.fiber plan).give more).WentOn wait e' :=
    (h.went_give hmore.later f).imp fun _ _ hwent wait hwait => hsame (hwent wait hwait)
  by_cases heq : f = slice.fiber
  · subst heq
    rw [eventsOf_recorded_self]
    refine hold.append ?_ fun e he e' he' wait hwait => ?_
    · rw [iteration]
      split
      · refine List.isChain_pair.mpr fun wait hwait => ?_
        cases hwait
      · exact List.isChain_singleton _
    · have hlink := h.link (List.mem_append_right _ List.mem_cons_self) he hwait he'
      refine hsame (hlink.give (fun hworld => ?_) hmore.later)
      rw [world_of_mem_iteration (List.mem_of_mem_head? he')] at hworld
      obtain rfl := Option.some.inj hworld
      exact .of_suspensions rfl (.refl _)
  · rwa [eventsOf_recorded_other heq]

include h hplan hmore in
/-- Every wait has a place. -/
theorem placed_iterate {f : FiberId} {e : Event} {wait : Wait}
    (he : (f, e) ∈ recorded record w slice) (hwait : e.wait? = some wait) :
    ∃ p, (w.carryOut slice.fiber plan).2.suspension? wait.place = some p ∧ p.fiber = f ∧
      p.registration = wait.registration := by
  rcases of_mem_recorded he with hold | ⟨rfl, hmem⟩
  · exact h.placed_later hmore.later hold hwait
  · obtain rfl := wait?_of_mem_iteration hmem hwait
    exact (hmore.place ((wait?_iterated hplan).symm.trans hwait)).2

include h hplan hmore in
/-- Every wait has a place of its own. -/
theorem distinct_iterate (f : FiberId) : (eventsOf f (recorded record w slice)).Pairwise
    fun e e' => ∀ wait wait', e.wait? = some wait → e'.wait? = some wait' →
      wait.place ≠ wait'.place := by
  by_cases heq : f = slice.fiber
  · subst heq
    rw [eventsOf_recorded_self]
    refine List.pairwise_append.mpr ⟨h.distinct _, ?_, fun e he e' he' wait wait' hw hw' => ?_⟩
    · rw [iteration]
      split
      · refine List.pairwise_pair.mpr fun wait wait' hw => ?_
        cases hw
      · exact List.pairwise_singleton _ _
    · -- the place of the new wait has not been there before
      obtain rfl := wait?_of_mem_iteration he' hw'
      obtain ⟨p, hp, -⟩ := h.placed (mem_eventsOf.mp he) hw
      intro heq
      rw [heq, (hmore.place ((wait?_iterated hplan).symm.trans hw')).1] at hp
      cases hp
  · rw [eventsOf_recorded_other heq]
    exact h.distinct f

include h hplan in
/-- The fiber of the ledger has been waited for at the places of its waits. -/
theorem asked_iterate {place : SuspensionId} {type : ErrorType}
    (hasked : (place, type) ∈ (l.after w slice.fiber plan).asked) :
    ∃ f v run, (f, .iterated v run (.eval (.wait (.awaitExit l.fiber type)))) ∈
      recorded record w slice ∧ place = ⟨v.suspensions.next⟩ := by
  rw [l.after_asked w slice.fiber plan] at hasked
  rcases List.mem_append.mp hasked with hthis | hold
  · obtain ⟨rfl, run, rfl⟩ := Plan.of_mem_asked hthis
    have hnew := iterated_mem_recorded record w slice
    rw [(Step.eq_of_plan_wait hplan).1] at hnew
    exact ⟨_, _, _, hnew, rfl⟩
  · obtain ⟨f, v, run, hmem, heq⟩ := h.asked hold
    exact ⟨f, v, run, mem_recorded hmem, heq⟩

include h hplan in
/-- Who will never be told has asked before there was such a fiber. -/
theorem pending_iterate {o : Observer} (ho : o ∈ (l.after w slice.fiber plan).pending) :
    ∃ f v run registration, (f, .iterated v run (.eval (.wait registration))) ∈
      recorded record w slice ∧ o ∈ registration.observers ⟨v.suspensions.next⟩ l.fiber ∧
        v.store.fiber? l.fiber = none := by
  rw [l.after_pending w slice.fiber plan] at ho
  rcases List.mem_append.mp ho with hthis | hold
  · obtain ⟨run, registration, rfl, hnone, hmem⟩ := Ledger.of_mem_strays hthis
    have hnew := iterated_mem_recorded record w slice
    rw [(Step.eq_of_plan_wait hplan).1] at hnew
    exact ⟨_, _, _, _, hnew, hmem, hnone⟩
  · obtain ⟨f, v, run, registration, hwait, hmem, hnone⟩ := h.pending o hold
    exact ⟨f, v, run, registration, mem_recorded hwait, hmem, hnone⟩

include h hplan hin in
/-- The ledger knows the end of its fiber when the record tells it. -/
theorem result_iterate (o : Outcome) :
    (l.after w slice.fiber plan).result = some o ↔ ∃ v run step,
      (l.fiber, .iterated v run step) ∈ recorded record w slice ∧
        Step.plan (v.pending l.fiber) l.fiber run step = .finish o := by
  rw [l.after_result w slice.fiber plan]
  by_cases hself : slice.fiber = l.fiber
  · have hnone : l.result = none := h.holds.result_of_inHand (hself ▸ hin)
    rw [if_pos hself, hnone, Option.or_none]
    constructor
    · intro houtcome
      have hfinish : plan = .finish o := by
        cases plan with
        | finish outcome => exact congrArg _ (Option.some.inj houtcome)
        | _ => cases houtcome
      have hnew := iterated_mem_recorded record w slice
      rw [hself] at hnew hplan
      exact ⟨_, _, _, hnew, hplan.trans hfinish⟩
    · rintro ⟨v, run, step, he, hfinish⟩
      rcases of_mem_recorded he with hold | ⟨-, hmem⟩
      · rw [(h.result o).mpr ⟨v, run, step, hold, hfinish⟩] at hnone
        cases hnone
      · rcases List.mem_append.mp hmem with hstopped | hiterated
        · split at hstopped
          · cases List.mem_singleton.mp hstopped
          · cases hstopped
        · obtain ⟨rfl, rfl, rfl⟩ := Event.iterated.inj (List.mem_singleton.mp hiterated)
          rw [← hself] at hfinish
          rw [← hplan, hfinish]
          rfl
  · have hsame : ∀ {e}, (l.fiber, e) ∈ recorded record w slice ↔ (l.fiber, e) ∈ record := by
      intro e
      rw [← mem_eventsOf, eventsOf_recorded_other (Ne.symm hself), mem_eventsOf]
    rw [if_neg hself, h.result]
    simp only [hsame]

end Iteration

/-- **An iteration keeps the books.** -/
theorem iterate (h : Books l record ⟨w, before ++ slice :: after⟩) (hw : w.Orderly)
    (hvalid : Valid ⟨w, before ++ slice :: after⟩) {plan : Plan}
    (hplan : (w.divert slice.fiber slice.run slice.step).plan (w.pending slice.fiber) slice.fiber
      slice.run = plan) {next : Option Slice}
    (hnext : ∀ n ∈ next, n.fiber = slice.fiber ∧
      (w.carryOut slice.fiber plan).1 = some (n.run, n.step)) :
    ∃ more, Books ((l.after w slice.fiber plan).give more) (recorded record w slice)
      ⟨(w.carryOut slice.fiber plan).2, before ++ next.toList ++ after⟩ := by
  obtain ⟨a, ha⟩ := hvalid.stands slice.fiber
  obtain ⟨-, hin, hbefore, hafter⟩ := stands_of_running ha
  obtain ⟨more, hmore⟩ := h.holds.carryOut hw hvalid.sound hin plan
  have hfiber : ((l.after w slice.fiber plan).give more).fiber = l.fiber :=
    l.after_fiber w slice.fiber plan
  refine ⟨more, hmore.holds, fun hn hlast => h.running_iterate hmore hin hbefore hafter hnext hn hlast,
    h.last_iterate hplan, ?_, h.went_iterate hmore hin, h.placed_iterate hplan hmore,
    h.distinct_iterate hplan hmore, ?_, ?_, ?_⟩
  · rintro ⟨f, e⟩ v he hworld
    rcases of_mem_recorded he with hold | ⟨rfl, hmem⟩
    · exact h.earlier_later hmore.later hold hworld
    · rw [world_of_mem_iteration hmem] at hworld
      obtain rfl := Option.some.inj hworld
      exact hmore.later.forget
  · rw [hfiber]
    exact fun hasked => h.asked_iterate hplan hasked
  · rw [hfiber]
    exact fun o ho => h.pending_iterate hplan ho
  · rw [hfiber]
    exact h.result_iterate hplan hin

end Books

/-- **What one move does to the books.** -/
theorem Move.books {budget : Nat} {s s' : Workshop} {events record : List (FiberId × Event)}
    (h : Move budget s events s') (hvalid : s.Valid) (hw : s.world.Orderly) {l : Ledger}
    (hbooks : Books l record s) :
    ∃ l' : Ledger, l'.fiber = l.fiber ∧ l.given <+: l'.given ∧ Books l' (record ++ events) s' := by
  have hnobody : ∀ {w' : World} {running : List Slice}, s = ⟨s.world, running⟩ →
      s.world.Relays w' → ∃ l' : Ledger, l'.fiber = l.fiber ∧ l.given <+: l'.given ∧
        Books l' (record ++ []) ⟨w', running⟩ := by
    intro w' running heq hrelays
    rw [heq] at hbooks
    obtain ⟨more, hmore⟩ := hbooks.relays hrelays
    exact ⟨l.give more, rfl, List.prefix_append _ _, by rwa [List.append_nil]⟩
  have hafter : ∀ (w : World) (fiber : FiberId) (plan : Plan) (more),
      l.given <+: ((l.after w fiber plan).give more).given := by
    intro w fiber plan more
    rw [Ledger.give, l.after_given w fiber plan]
    exact List.prefix_append _ _
  cases h with
  | pick hfirst hlast =>
    exact ⟨l, rfl, List.prefix_refl _, by simpa using hbooks.pick hfirst hlast⟩
  | @advance w before after slice m hm =>
    subst hm
    simp only [Machine.advance, Slice.doings]
    generalize (if Machine.counts slice.step then slice.used + 1 else slice.used) = used
    by_cases hused : max budget 1 < used
    · simp only [if_pos hused]
      exact ⟨l, rfl, List.prefix_refl _, by simpa using hbooks.queue⟩
    · simp only [if_neg hused, World.iterate_eq_carryOut]
      generalize hplan : (w.divert slice.fiber slice.run slice.step).plan (w.pending slice.fiber)
        slice.fiber slice.run = plan
      have hiterate := @Books.iterate _ _ _ _ _ _ hbooks hw hvalid _ hplan
      generalize w.carryOut slice.fiber plan = result at hiterate
      obtain ⟨progress, w'⟩ := result
      cases progress with
      | none =>
        obtain ⟨more, hmore⟩ := @hiterate none (by simp)
        exact ⟨(l.after w slice.fiber plan).give more, l.after_fiber w slice.fiber plan,
          hafter w slice.fiber plan more, hmore⟩
      | some next =>
        obtain ⟨run, step⟩ := next
        obtain ⟨more, hmore⟩ := @hiterate (some ⟨slice.fiber, run, step, used⟩) (by simp)
        exact ⟨(l.after w slice.fiber plan).give more, l.after_fiber w slice.fiber plan,
          hafter w slice.fiber plan more, hmore⟩
  | interrupt target source =>
    exact hnobody rfl (World.relays_interrupt hw hvalid.sound target source)
  | act a => exact hnobody rfl (a.relays_run hw)
  | ring hm => exact hnobody rfl (World.relays_ring hm)
  | start effect environment report =>
    exact hnobody rfl (World.relays_startRoot budget _ effect environment report)

/-- The books of a fiber before anything has happened. -/
theorem books_init (minted : Nat) (fiber : FiberId) :
    Books ⟨fiber, (World.init minted).store.names, fun _ => none, [], none, [], []⟩ []
      (init minted) := by
  have hplace : ∀ {s p}, ¬ (World.init minted).suspension? s = some p := by
    intro s p hp
    simp [World.init, World.suspension?, Numbered.get?] at hp
  have hnobody : ∀ {f r}, ¬ (World.init minted).store.fiber? f = some r := by
    intro f r hr
    simp [World.init, Store.init, Store.fiber?, Numbered.get?, Numbered.startingAt] at hr
  have hshelf : (World.init minted).store.isFinished fiber = false ∧
      (World.init minted).store.exit? fiber = none := by
    have hnone := Option.eq_none_iff_forall_ne_some.mpr fun r => @hnobody fiber r
    rw [Store.isFinished, Store.exit?, hnone]
    exact ⟨rfl, rfl⟩
  have hplaces : Ledger.Places ⟨fiber, (World.init minted).store.names, fun _ => none, [], none, [],
      []⟩ (World.init minted) := {
    parked := fun hp => (hplace hp).elim
    early := fun hp => (hplace hp).elim
    ready := fun _ hlast => by cases hlast
    once := .nil
    served := fun hgiven => by cases hgiven
    asked := fun hp => (hplace hp).elim }
  have hpromises : (World.init minted).Promises :=
    ⟨fun ha => (List.not_mem_nil ha).elim, fun hr => (hnobody hr).elim⟩
  exact {
    holds := ⟨⟨rfl, hplaces, hpromises, fun hp => (hplace hp).elim, fun _ => rfl⟩,
      .going rfl hshelf.1 hshelf.2 rfl, rfl⟩
    running := fun hslice => by cases hslice
    last := fun _ => rfl
    earlier := fun he => by cases he
    went := fun _ => .nil
    placed := fun he => by cases he
    distinct := fun _ => .nil
    asked := fun hasked => by cases hasked
    pending := fun _ ho => by cases ho
    result := by
      intro o
      constructor
      · intro hresult
        cases hresult
      · rintro ⟨w, run, step, hmem, -⟩
        cases hmem }

/-- A run goes on with the books, and what has been given before stays given. -/
theorem Run.extends_books {budget : Nat} {s s' : Workshop} {record more : List (FiberId × Event)}
    (h : Run budget s more s') (hvalid : s.Valid) (hw : s.world.Orderly) {l : Ledger}
    (hbooks : Books l record s) :
    ∃ l' : Ledger, l'.fiber = l.fiber ∧ l.given <+: l'.given ∧ Books l' (record ++ more) s' := by
  induction h generalizing l record with
  | rest => exact ⟨l, rfl, List.prefix_refl _, by rwa [List.append_nil]⟩
  | move hmove _ ih =>
    obtain ⟨l₁, hfiber, hgiven, hbooks₁⟩ := hmove.books hvalid hw hbooks
    obtain ⟨l₂, hfiber', hgiven', hbooks₂⟩ :=
      ih (hmove.valid hvalid) ((hmove.chronicles hvalid hw).orderly hw) hbooks₁
    rw [List.append_assoc] at hbooks₂
    exact ⟨l₂, hfiber'.trans hfiber, hgiven.trans hgiven', hbooks₂⟩

/-- **Every run keeps a ledger of every fiber.** -/
theorem Run.books {budget minted : Nat} {s : Workshop} {record : List (FiberId × Event)}
    (h : Run budget (init minted) record s) (fiber : FiberId) :
    ∃ l : Ledger, l.fiber = fiber ∧ Books l record s := by
  obtain ⟨l, hfiber, -, hbooks⟩ :=
    h.extends_books (valid_init minted) (World.orderly_init minted) (books_init minted fiber)
  exact ⟨l, hfiber, hbooks⟩

/-! ### Waits that have not been gone on from -/

namespace Books

variable {l : Ledger} {record : List (FiberId × Event)} {s : Workshop} {fiber : FiberId} {n : Nat}

/-- What a fiber does after it has begun to wait. -/
theorem after_wait (h : Books l record s) {e e' : Event} {wait : Wait}
    (he : (eventsOf fiber record)[n]? = some e) (hwait : e.wait? = some wait)
    (he' : (eventsOf fiber record)[n + 1]? = some e') : l.WentOn wait e' := by
  obtain ⟨hn, rfl⟩ := List.getElem?_eq_some_iff.mp he
  obtain ⟨hn', rfl⟩ := List.getElem?_eq_some_iff.mp he'
  exact List.isChain_iff_getElem.mp (h.went fiber) n hn' wait hwait

/-- How a fiber stands that has begun to wait and has not done anything since. -/
theorem standing (h : Books l record s) {wait : Wait} (hlast : l.last fiber = some wait)
    {a : Standing} (ha : s.Stands fiber a) :
    (∀ run step, a = .active run step → l.GoesOn s.world wait run step) ∧
      ∀ run, a = .waiting run → ∃ p onInterrupt, s.world.suspension? wait.place = some p ∧
        p.state = .waiting run onInterrupt ∧ p.registration = wait.registration := by
  have hholders := holders_of_stands ha
  have hone : ∀ {b}, a.tokens = [b] → ∃ holder, holder ∈ s.holders fiber ∧ holder.standing = b := by
    intro b hb
    rw [hb, List.map_eq_singleton_iff] at hholders
    obtain ⟨holder, hholder, hstanding⟩ := hholders
    exact ⟨holder, hholder ▸ List.mem_singleton_self _, hstanding⟩
  refine ⟨?_, ?_⟩
  · rintro run step rfl
    obtain ⟨holder, hmem, hstanding⟩ := hone rfl
    cases holder with
    | running slice =>
      obtain ⟨rfl, rfl⟩ := Standing.active.inj hstanding
      simp only [holders, List.mem_append, List.mem_map, List.mem_filter,
        List.mem_filterMap] at hmem
      rcases hmem with (⟨slice', ⟨hslice, hfiber⟩, heq⟩ | ⟨task, -, heq⟩) | ⟨e, -, heq⟩
      · obtain rfl := Holder.running.inj heq
        exact h.running hslice (of_decide_eq_true hfiber ▸ hlast)
      · cases heq
      · simp [Suspension.holder?] at heq
    | ready task =>
      obtain ⟨rfl, rfl⟩ := Standing.active.inj hstanding
      simp only [holders, List.mem_append, List.mem_map, List.mem_filter,
        List.mem_filterMap] at hmem
      rcases hmem with (⟨slice, -, heq⟩ | ⟨task', ⟨htask, hfiber⟩, heq⟩) | ⟨e, -, heq⟩
      · cases heq
      · obtain rfl := Holder.ready.inj heq
        exact h.holds.places.ready htask (of_decide_eq_true hfiber ▸ hlast)
      · simp [Suspension.holder?] at heq
    | parked t run => cases hstanding
  · rintro run rfl
    obtain ⟨holder, hmem, hstanding⟩ := hone rfl
    cases holder with
    | running slice | ready task => cases hstanding
    | parked t run' =>
      obtain rfl := Standing.waiting.inj hstanding
      obtain ⟨p, hp, rfl, hrun⟩ := place_of_mem_holders hmem
      cases hstate : p.state with
      | waiting run'' onInterrupt =>
        rw [hstate] at hrun
        obtain rfl := Option.some.inj hrun
        obtain rfl := Option.some.inj ((h.holds.places.parked hp hstate).symm.trans hlast)
        exact ⟨p, onInterrupt, hp, hstate, rfl⟩
      | _ =>
        rw [hstate] at hrun
        cases hrun

/-- A fiber that has done nothing since it began to wait has that wait as its last one. -/
theorem last_of_length (h : Books l record s) {e : Event} {wait : Wait}
    (he : (eventsOf fiber record)[n]? = some e) (hwait : e.wait? = some wait)
    (hn : n + 1 = (eventsOf fiber record).length) : l.last fiber = some wait := by
  rw [h.last, List.getLast?_eq_getElem?, ← hn, Nat.add_sub_cancel, he, Option.bind_some, hwait]

/-- A place belongs to one wait only. -/
theorem eq_of_place (h : Books l record s) {fiber' : FiberId} {n' : Nat} {e e' : Event}
    {wait wait' : Wait} (he : (eventsOf fiber record)[n]? = some e) (hwait : e.wait? = some wait)
    (he' : (eventsOf fiber' record)[n']? = some e') (hwait' : e'.wait? = some wait')
    (heq : wait.place = wait'.place) : fiber = fiber' ∧ n = n' := by
  obtain ⟨p, hp, rfl, -⟩ := h.placed (mem_eventsOf.mp (List.mem_of_getElem? he)) hwait
  obtain ⟨p', hp', rfl, -⟩ := h.placed (mem_eventsOf.mp (List.mem_of_getElem? he')) hwait'
  rw [heq] at hp
  obtain rfl := Option.some.inj (hp.symm.trans hp')
  refine ⟨rfl, ?_⟩
  have hdistinct := List.pairwise_iff_getElem.mp (h.distinct p.fiber)
  obtain ⟨hn, rfl⟩ := List.getElem?_eq_some_iff.mp he
  obtain ⟨hn', rfl⟩ := List.getElem?_eq_some_iff.mp he'
  rcases Nat.lt_trichotomy n n' with hlt | hn | hlt
  · exact absurd heq (hdistinct n n' hn hn' hlt _ _ hwait hwait')
  · exact hn
  · exact absurd heq.symm (hdistinct n' n hn' hn hlt _ _ hwait' hwait)

end Books

/-- **What becomes of a fiber after an iteration** begins with how the iteration leaves it. -/
theorem History.of_iterated {s : Workshop} {record : List (FiberId × Event)} {fiber : FiberId}
    {es : List Event} {a : Standing} (h : History s record fiber es a) {n : Nat} {w : World}
    {run : RunState} {step : Step}
    (he : (eventsOf fiber record)[n]? = some (.iterated w run step)) :
    ∃ es', Life fiber (w.after fiber (step.plan (w.pending fiber) fiber run)) es' a ∧
      es'.filter Event.isDoing = (eventsOf fiber record).drop (n + 1) := by
  obtain ⟨hn, hget⟩ := List.getElem?_eq_some_iff.mp he
  have hsplit : es.filter Event.isDoing = (eventsOf fiber record).take n ++
      .iterated w run step :: (eventsOf fiber record).drop (n + 1) := by
    rw [h.doings, ← hget, List.getElem_cons_drop, List.take_append_drop]
  obtain ⟨es₁, es₂, rfl, -, hes₂⟩ := List.filter_eq_append_iff.mp hsplit
  obtain ⟨es₃, es₄, rfl, -, -, hes₄⟩ := List.filter_eq_cons_iff.mp hes₂
  obtain ⟨b, -, hlife⟩ := Course.of_append h.life
  obtain ⟨c, -, hlife⟩ := Course.of_append hlife
  cases hlife with
  | go _ hgoes hrest =>
    cases hgoes with
    | iterated _ => exact ⟨es₄, hrest, hes₄⟩

/-- **A fiber that has done nothing since it began to wait** is parked, or about to go on with what
it has left. -/
theorem History.standing_of_wait {s : Workshop} {record : List (FiberId × Event)} {fiber : FiberId}
    {es : List Event} {a : Standing} (h : History s record fiber es a) {n : Nat} {w : World}
    {run : RunState} {registration : Registration}
    (he : (eventsOf fiber record)[n]? = some (.iterated w run (.eval (.wait registration))))
    (hn : n + 1 = (eventsOf fiber record).length) :
    (∃ step, a = .active run step) ∨ a = .waiting run := by
  obtain ⟨es', hlife, hes'⟩ := h.of_iterated he
  rw [hn, List.drop_length] at hes'
  exact hlife.standing_of_idle hes' (World.after_of_rest rfl)

end Workshop

end Fibers
