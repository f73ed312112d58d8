import Fibers.Proofs.Family
import Fibers.Proofs.FailuresKept

/-!
# Supervision

A fiber that ends leaves nobody behind.  Those of its attached children that have not finished are
asked to stop before its end is put down, and so before anybody is told.  Whoever finds a fiber
finished therefore finds each of its children finished or asked to stop, on the fiber's behalf.

A fiber remembers its children in a list, and forgets in between those that have finished when there
are many of them.  What has finished stays finished, and a request stays, so what is forgotten never
matters again.

Detached children are in no such list, and the end of a fiber does nothing about them.

## Main definitions

* `Workshop.Forked` — who has been started by whom.
* `Workshop.Supervised` — every attached child is taken care of.

## Main results

* `Workshop.Supervised.move` — every move keeps it so.
* `Workshop.Run.supervises` — **in every run the children of what has ended are finished or have
  been asked to stop, before anybody is told.**
-/

namespace Fibers

/-- The plan of starting a fiber is that of its instruction. -/
theorem Step.of_plan_fork {pending : Option FiberId} {fiber : FiberId} {run rest : RunState}
    {step : Step} {child : Instruction} {daemon : Bool}
    (h : step.plan pending fiber run = .fork rest child daemon) :
    rest = run ∧ step = .eval (.fork child daemon) := by
  cases step with
  | eval i =>
    cases i with
    | fork child' daemon' =>
      cases h
      exact ⟨rfl, rfl⟩
    | _ => cases h
  | value v =>
    rcases run.planValue_cases v with ⟨hplan, -⟩ | ⟨_, _, hplan⟩ | ⟨_, hplan⟩ <;>
      cases hplan.symm.trans h
  | halt failure =>
    rcases RunState.planHalt_cases pending run failure with
      ⟨hplan, -⟩ | ⟨-, _, _, hplan⟩ | ⟨_, _, hplan⟩ | ⟨_, _, hplan⟩ <;>
      cases hplan.symm.trans h
  | attempt cell f => cases h

/-- The fiber that an iteration starts, and whether it is detached. -/
def Event.starts? : Event → Option (FiberId × Bool)
  | .iterated w _ (.eval (.fork _ daemon)) => some (w.store.nextFiber, daemon)
  | _ => none

/-- What starts a fiber is a fork in a world in which there is no such fiber yet. -/
theorem Event.of_starts {e : Event} {c : FiberId} {daemon : Bool}
    (h : e.starts? = some (c, daemon)) :
    ∃ w run i, e = .iterated w run (.eval (.fork i daemon)) ∧ c = w.store.nextFiber := by
  unfold starts? at h
  split at h
  · obtain ⟨rfl, rfl⟩ := Prod.mk.inj (Option.some.inj h)
    exact ⟨_, _, _, rfl, rfl⟩
  · cases h

namespace Workshop

variable {budget minted : Nat} {s s' : Workshop} {record events : List (FiberId × Event)}
  {w w' : World} {parent child : FiberId} {daemon : Bool}

/-! ### Who has been started by whom -/

/-- One fiber has started another one, attached or detached. -/
def Forked (record : List (FiberId × Event)) (daemon : Bool) (parent child : FiberId) : Prop :=
  ∃ e, (parent, e) ∈ record ∧ e.starts? = some (child, daemon)

theorem forked_append : Forked (record ++ events) daemon parent child ↔
    Forked record daemon parent child ∨ Forked events daemon parent child := by
  simp only [Forked, List.mem_append, or_and_right, exists_or]

theorem forked_singleton {fiber : FiberId} {e : Event} :
    Forked [(fiber, e)] daemon parent child ↔ parent = fiber ∧ e.starts? = some (child, daemon) := by
  simp [Forked]

/-- Every attached child is taken care of. -/
structure Supervised (record : List (FiberId × Event)) (w : World) : Prop where
  /-- What has been started has been created. -/
  born : ∀ {daemon parent child}, Forked record daemon parent child →
    (w.store.fiber? child).isSome
  /-- Only attached children are remembered. -/
  attached : ∀ {parent child}, child ∈ w.children parent → Forked record false parent child
  /-- An attached child has finished, or has been asked to stop, or is remembered by a fiber that
  goes on. -/
  cared : ∀ {parent child}, Forked record false parent child →
    w.store.isFinished child = true ∨ parent ∈ w.requests child ∨
      w.store.isFinished parent = false ∧ child ∈ w.children parent
  /-- A fiber is started once. -/
  once : ∀ {daemon daemon' parent parent' child}, Forked record daemon parent child →
    Forked record daemon' parent' child → parent = parent' ∧ daemon = daemon'

namespace Supervised

theorem init (minted : Nat) : Supervised [] (World.init minted) where
  born := by simp [Forked]
  attached h := by
    simp [World.children, World.init, Store.init, Store.fiber?, Numbered.get?,
      Numbered.startingAt] at h
  cared := by simp [Forked]
  once := by simp [Forked]

/-- What is told of the same fibers. -/
theorem congr {record' : List (FiberId × Event)} (h : Supervised record w)
    (hsame : ∀ {daemon parent child},
      Forked record' daemon parent child ↔ Forked record daemon parent child) :
    Supervised record' w where
  born hforked := h.born (hsame.mp hforked)
  attached hmem := hsame.mpr (h.attached hmem)
  cared hforked := h.cared (hsame.mp hforked)
  once hforked hforked' := h.once (hsame.mp hforked) (hsame.mp hforked')

theorem tends (h : Supervised record w) (htends : w.Tends w')
    (hrequests : ∀ f, w.requests f <+: w'.requests f) : Supervised record w' where
  born hforked := htends.born (h.born hforked)
  attached hmem := h.attached (htends.children _ ▸ hmem)
  cared hforked := by
    rw [htends.finished, htends.finished, htends.children]
    exact (h.cared hforked).imp_right (Or.imp_left ((hrequests _).subset ·))
  once := h.once

/-- **A fiber ends**: its children are asked to stop, so it need not remember them. -/
theorem ending (h : Supervised record w) (fiber : FiberId) (outcome : Outcome) :
    Supervised record (w.ending fiber outcome) where
  born hforked := w.born_ending fiber outcome (h.born hforked)
  attached {parent child} hmem := by
    by_cases heq : parent = fiber
    · subst heq
      rw [World.children_ending_self] at hmem
      cases hmem
    · rw [w.children_ending_other fiber outcome heq] at hmem
      exact h.attached hmem
  cared {parent child} hforked := by
    rcases h.cared hforked with hfinished | hasked | ⟨hgoing, hmem⟩
    · exact Or.inl (w.isFinished_ending fiber outcome hfinished)
    · exact Or.inr (Or.inl ((w.requests_ending_grow fiber outcome child).subset hasked))
    · by_cases heq : parent = fiber
      · subst heq
        rcases w.mem_requests_ending parent outcome hmem (h.born hforked) with hfinished | hasked
        · exact Or.inl (w.isFinished_ending parent outcome hfinished)
        · exact Or.inr (Or.inl hasked)
      · rw [w.isFinished_ending_other fiber outcome heq,
          w.children_ending_other fiber outcome heq]
        exact Or.inr (Or.inr ⟨hgoing, hmem⟩)
  once := h.once

/-- Everybody is told. -/
theorem told (h : Supervised record w) (fiber : FiberId) (observers : List Observer) :
    Supervised record (w.notifyAll fiber observers) := by
  have hsame := w.sameBonds_notifyAll fiber observers
  exact h.tends hsame.tends fun f => (hsame.requests f).symm ▸ List.prefix_refl _

/-- **A fiber starts another one**, which is remembered if it is attached. -/
theorem fork (h : Supervised record w) {fiber : FiberId} (hphase : w.phase fiber = some false)
    (run : RunState) (i : Instruction) (daemon : Bool) :
    Supervised (record ++ [(fiber, .iterated w run (.eval (.fork i daemon)))])
      (w.fork fiber run i daemon).2 := by
  have hfresh : w.store.fiber? w.store.nextFiber = none := Numbered.get?_next _
  have hself : (w.store.fiber? fiber).isSome := by
    obtain ⟨r, hr, -⟩ := Option.map_eq_some_iff.mp hphase
    rw [hr]
    rfl
  have hgoing : w.store.isFinished fiber = false := by
    obtain ⟨r, hr, hfinished⟩ := Option.map_eq_some_iff.mp hphase
    rw [Store.isFinished, hr, Option.any_some, hfinished]
  -- what has been started is what had been before, and the new fiber
  have hforked : ∀ {d parent child},
      Forked (record ++ [(fiber, .iterated w run (.eval (.fork i daemon)))]) d parent child ↔
        Forked record d parent child ∨
          parent = fiber ∧ child = w.store.nextFiber ∧ d = daemon := by
    intro d parent child
    rw [forked_append, forked_singleton]
    simp only [Event.starts?, Option.some.injEq, Prod.mk.injEq]
    rw [eq_comm (a := child), eq_comm (a := d)]
  have hnew : ∀ {d parent}, ¬ Forked record d parent w.store.nextFiber := by
    intro d parent hold
    have hborn := h.born hold
    rw [hfresh] at hborn
    cases hborn
  refine ⟨fun hstarted => ?_, fun {parent child} hmem => ?_, fun {parent child} hstarted => ?_,
    fun {d d' parent parent' child} hstarted hstarted' => ?_⟩
  · refine w.born_fork fiber run i daemon ?_
    rcases hforked.mp hstarted with hold | ⟨-, rfl, -⟩
    · exact Or.inl (h.born hold)
    · exact Or.inr rfl
  · rw [hforked]
    cases daemon with
    | true => exact Or.inl (h.attached ((w.fork_daemon fiber run i).children parent ▸ hmem))
    | false =>
      rcases (w.mem_children_fork fiber run i hself).mp hmem with ⟨rfl, rfl⟩ | ⟨hold, -⟩
      · exact Or.inr ⟨rfl, rfl, rfl⟩
      · exact Or.inl (h.attached hold)
  · rw [w.isFinished_fork fiber run i daemon, w.isFinished_fork fiber run i daemon]
    rcases hforked.mp hstarted with hold | ⟨rfl, rfl, rfl⟩
    · rcases h.cared hold with hfinished | hasked | ⟨hparent, hmem⟩
      · exact Or.inl hfinished
      · exact Or.inr (Or.inl ((w.requests_fork_grow fiber run i daemon child).subset hasked))
      · cases daemon with
        | true =>
          rw [(w.fork_daemon fiber run i).children]
          exact Or.inr (Or.inr ⟨hparent, hmem⟩)
        | false =>
          -- what is forgotten has finished
          cases hdone : w.store.isFinished child with
          | true => exact Or.inl rfl
          | false =>
            exact Or.inr (Or.inr ⟨hparent, (w.mem_children_fork fiber run i hself).mpr
              (Or.inr ⟨hmem, fun _ _ => hdone⟩)⟩)
    · exact Or.inr (Or.inr ⟨hgoing, (w.mem_children_fork _ run i hself).mpr (Or.inl ⟨rfl, rfl⟩)⟩)
  · rcases hforked.mp hstarted with hold | ⟨rfl, rfl, rfl⟩ <;>
      rcases hforked.mp hstarted' with hold' | ⟨rfl, hchild, rfl⟩
    · exact h.once hold hold'
    · exact (hnew (hchild ▸ hold)).elim
    · exact (hnew hold').elim
    · exact ⟨rfl, rfl⟩

/-- **An iteration of a fiber.** -/
theorem carryOut (h : Supervised record w) {fiber : FiberId} (hphase : w.phase fiber = some false)
    (run : RunState) (step : Step)
    (hrequests : ∀ f, w.requests f <+:
      (w.carryOut fiber (step.plan (w.pending fiber) fiber run)).2.requests f) :
    Supervised (record ++ [(fiber, .iterated w run step)])
      (w.carryOut fiber (step.plan (w.pending fiber) fiber run)).2 := by
  have hborn : (w.store.fiber? fiber).isSome := by
    obtain ⟨r, hr, -⟩ := Option.map_eq_some_iff.mp hphase
    rw [hr]
    rfl
  -- nothing but the start of a fiber adds to what has been started
  have hsame : (∀ rest i daemon, step.plan (w.pending fiber) fiber run ≠ .fork rest i daemon) →
      ∀ {d parent child}, Forked (record ++ [(fiber, .iterated w run step)]) d parent child ↔
        Forked record d parent child := by
    intro hnone d parent child
    rw [forked_append, forked_singleton, or_iff_left]
    rintro ⟨-, hstarts⟩
    cases step with
    | eval i =>
      cases i with
      | fork i daemon => exact hnone _ _ _ rfl
      | _ => cases hstarts
    | value _ | halt _ | attempt _ _ => cases hstarts
  cases hplan : step.plan (w.pending fiber) fiber run with
  | fork rest i daemon =>
    obtain ⟨rfl, rfl⟩ := Step.of_plan_fork hplan
    exact h.fork hphase rest i daemon
  | finish outcome =>
    refine Supervised.congr ?_ (hsame (by simp [hplan]))
    rw [World.carryOut, World.complete_eq hborn]
    exact (h.ending fiber outcome).told fiber _
  | _ =>
    rw [hplan] at hrequests hsame
    refine Supervised.congr ?_ (hsame (by simp))
    exact h.tends (w.tends_carryOut fiber (by simp) (by simp)) hrequests

end Supervised

/-! ### Moves -/

/-- What may happen in a move: one fiber iterates, or no fiber does anything and no child is
forgotten. -/
theorem Move.iterates_or_tends (h : Move budget s events s') (hvalid : s.Valid) :
    (∃ fiber run step stops, events = stops ++ [(fiber, .iterated s.world run step)] ∧
        (∀ {f e}, (f, e) ∈ stops → f = fiber ∧ e = .stopped s.world) ∧
        s.world.phase fiber = some false ∧
        s'.world = (s.world.carryOut fiber (step.plan (s.world.pending fiber) fiber run)).2) ∨
      events = [] ∧ s.world.Tends s'.world := by
  cases h with
  | @pick w running tasks before after task hw hw' =>
    have hsame : w.SameBonds { w with tasks } := .of_fibers rfl
    exact Or.inr ⟨rfl, hsame.tends⟩
  | @advance w before after slice m hm =>
    subst hm
    obtain ⟨a, ha⟩ := hvalid.stands slice.fiber
    obtain ⟨-, hin, -, -⟩ := stands_of_running ha
    simp only [Machine.advance, Slice.doings]
    generalize (if Machine.counts slice.step then slice.used + 1 else slice.used) = used
    by_cases hused : max budget 1 < used
    · have hsame : w.SameBonds (w.schedule slice.fiber slice.run slice.step) := .of_fibers rfl
      simp only [if_pos hused]
      exact Or.inr ⟨rfl, hsame.tends⟩
    · refine Or.inl ⟨slice.fiber, slice.run, w.divert slice.fiber slice.run slice.step,
        (if slice.step.givesWay && w.mustStop slice.fiber slice.run then [Event.stopped w] else
          []).map (slice.fiber, ·), ?_, fun {f e} he => ?_, hin.phase, ?_⟩
      · simp only [if_neg hused, List.map_append]
        rfl
      · obtain ⟨e', he', heq⟩ := List.mem_map.mp he
        obtain ⟨rfl, rfl⟩ := Prod.mk.inj heq
        split at he'
        · exact ⟨rfl, List.mem_singleton.mp he'⟩
        · cases he'
      · simp only [if_neg hused, World.iterate_eq_carryOut]
        split <;> simp [*]
  | interrupt target source => exact Or.inr ⟨rfl, World.tends_interrupt _ target source⟩
  | act a => exact Or.inr ⟨rfl, (World.sameBonds_run a _).tends⟩
  | ring hm => exact Or.inr ⟨rfl, (World.sameBonds_ring hm).tends⟩
  | @start w running effect environment report =>
    have hpush := World.Tends.push w (r := { observers := (report.map Observer.report).toList })
      rfl rfl
    exact Or.inr ⟨rfl, ⟨hpush.finished, hpush.children, hpush.born⟩⟩

/-- **Every move keeps every child taken care of.** -/
theorem Supervised.move (h : Supervised record s.world) (hmove : Move budget s events s')
    (hvalid : s.Valid) : Supervised (record ++ events) s'.world := by
  have hrequests := (hmove.effect hvalid).requests
  rcases hmove.iterates_or_tends hvalid with
    ⟨fiber, run, step, stops, rfl, hstops, hphase, hworld⟩ | ⟨rfl, htends⟩
  · rw [hworld] at hrequests ⊢
    rw [← List.append_assoc]
    refine Supervised.carryOut (h.congr ?_) hphase run step hrequests
    intro d parent child
    rw [forked_append, or_iff_left]
    rintro ⟨e, hmem, hstarts⟩
    rw [(hstops hmem).2] at hstarts
    cases hstarts
  · rw [List.append_nil]
    exact h.tends htends hrequests

/-- **In every run every child is taken care of.** -/
theorem Run.supervised_after {before : List (FiberId × Event)} (h : Run budget s record s')
    (hvalid : s.Valid) (hbefore : Supervised before s.world) :
    Supervised (before ++ record) s'.world := by
  induction h generalizing before with
  | rest => rwa [List.append_nil]
  | move hmove _ ih =>
    rw [← List.append_assoc]
    exact ih (hmove.valid hvalid) (hbefore.move hmove hvalid)

theorem Run.supervised (h : Run budget (init minted) record s) : Supervised record s.world :=
  h.supervised_after (valid_init minted) (.init minted)

/-! ### The end of a fiber in a run -/

/-- The move in which something is done. -/
theorem Run.move_of_mem {p : FiberId × Event} (h : Run budget s record s') (hp : p ∈ record) :
    ∃ s₁ s₂ before events after, record = before ++ events ++ after ∧ p ∈ events ∧
      Run budget s before s₁ ∧ Move budget s₁ events s₂ ∧ Run budget s₂ after s' := by
  induction h with
  | rest => cases hp
  | @move s s₁ s' events record hmove hrest ih =>
    rcases List.mem_append.mp hp with hmem | hmem
    · exact ⟨s, s₁, [], events, record, rfl, hmem, .rest, hmove, hrest⟩
    · obtain ⟨s₂, s₃, before, events', after, rfl, hmem', hbefore, hmove', hafter⟩ := ih hmem
      exact ⟨s₂, s₃, events ++ before, events', after, by simp only [List.append_assoc], hmem',
        .move hmove hbefore, hmove', hafter⟩

/-- Who has finished does nothing. -/
theorem Run.eventsOf_of_finished (h : Run budget s record s') (hvalid : s.Valid) {fiber : FiberId}
    (hfinished : s.world.store.isFinished fiber = true) : eventsOf fiber record = [] := by
  obtain ⟨a, ha⟩ := hvalid.stands fiber
  obtain ⟨r, hr, hdone⟩ := (Option.any_eq_true ..).mp hfinished
  have hphase := ha.phase
  rw [World.phase, hr, Option.map_some, hdone] at hphase
  obtain ⟨es, b, -, hlife, hdoings⟩ := h.extends_history hvalid ha
  cases a with
  | ended o =>
    cases hlife with
    | rest => exact hdoings.symm
    | go _ hgoes _ => cases hgoes
  | unborn | active _ _ | waiting _ => cases hphase

/-- A fiber ends in an iteration, and all its children have been started before. -/
theorem Run.at_end (h : Run budget (init minted) record s) {fiber : FiberId} {run : RunState}
    {step : Step} {outcome : Outcome} (hmem : (fiber, .iterated w run step) ∈ record)
    (hplan : step.plan (w.pending fiber) fiber run = .finish outcome) :
    (w.store.fiber? fiber).isSome ∧ ∃ before, Supervised before w ∧
      ∀ {daemon child}, Forked record daemon fiber child ↔ Forked before daemon fiber child := by
  obtain ⟨s₁, s₂, before, events, after, rfl, hp, hbefore, hmove, hafter⟩ := h.move_of_mem hmem
  have hvalid := hbefore.valid (valid_init minted)
  obtain rfl := hmove.world_of_mem hp rfl
  rcases hmove.iterates_or_tends hvalid with
    ⟨f, run', step', stops, rfl, hstops, hphase, hworld⟩ | ⟨rfl, -⟩
  · have hsame : (fiber, Event.iterated s₁.world run step) = (f, .iterated s₁.world run' step') := by
      rcases List.mem_append.mp hp with hstop | hlast
      · cases (hstops hstop).2
      · exact List.mem_singleton.mp hlast
    cases hsame
    have hborn : (s₁.world.store.fiber? fiber).isSome := by
      obtain ⟨r, hr, -⟩ := Option.map_eq_some_iff.mp hphase
      rw [hr]
      rfl
    have hfinished : s₂.world.store.isFinished fiber = true := by
      rw [hworld, hplan, World.carryOut, World.complete_eq hborn,
        (World.sameBonds_notifyAll _ _ _).isFinished]
      exact s₁.world.isFinished_ending_self fiber outcome hborn
    have hidle := hafter.eventsOf_of_finished (hmove.valid hvalid) hfinished
    refine ⟨hborn, before, hbefore.supervised, fun {daemon child} => ⟨?_, fun hforked => ?_⟩⟩
    swap
    · exact forked_append.mpr (Or.inl (forked_append.mpr (Or.inl hforked)))
    -- neither the end itself nor what comes after it starts a fiber
    rintro ⟨e, he, hstarts⟩
    rcases List.mem_append.mp he with he | he
    · rcases List.mem_append.mp he with he | he
      · exact ⟨e, he, hstarts⟩
      · rcases List.mem_append.mp he with hstop | hlast
        · rw [(hstops hstop).2] at hstarts
          cases hstarts
        · obtain ⟨-, rfl⟩ := Prod.mk.inj (List.mem_singleton.mp hlast)
          obtain ⟨rfl, -⟩ := Step.of_plan_finish hplan
          cases outcome <;> cases hstarts
    · have hnone := mem_eventsOf.mpr he
      rw [hidle] at hnone
      cases hnone
  · cases hp

/-- **The end of a fiber asks nobody to stop but attached children of its own.** -/
theorem Run.requests_complete_other (h : Run budget (init minted) record s) {run : RunState}
    {step : Step} {outcome : Outcome} (hmem : (parent, .iterated w run step) ∈ record)
    (hplan : step.plan (w.pending parent) parent run = .finish outcome)
    (hnot : ¬ Forked record false parent child) : child ∉ w.children parent ∧
      (w.complete parent outcome).requests child = w.requests child := by
  obtain ⟨hborn, before, hbefore, hearlier⟩ := h.at_end hmem hplan
  have hnone : child ∉ w.children parent := fun hchild =>
    hnot (hearlier.mpr (hbefore.attached hchild))
  refine ⟨hnone, ?_⟩
  rw [World.complete_eq hborn, (World.sameBonds_notifyAll _ _ _).requests]
  exact w.requests_ending_other parent outcome hnone

/-- **Supervision.**  In every run, whoever finds a fiber finished finds each child that the fiber
has ever started attached finished, or asked to stop by the fiber.  That is so in the iteration in
which the fiber ends already, before anybody is told and while the others are being told.  The end
of a fiber asks nobody to stop but attached children of its own, and a detached child is not one of
anybody's. -/
theorem Run.supervises (h : Run budget (init minted) record s) :
    (∀ {parent child}, s.world.store.isFinished parent = true → Forked record false parent child →
        s.world.store.isFinished child = true ∨ parent ∈ s.world.requests child) ∧
      (∀ {parent w run step outcome}, (parent, .iterated w run step) ∈ record →
        step.plan (w.pending parent) parent run = .finish outcome →
        w.complete parent outcome = (w.ending parent outcome).notifyAll parent (w.audience parent) ∧
          (∀ {child told rest}, Forked record false parent child →
            w.audience parent = told ++ rest →
            ((w.ending parent outcome).notifyAll parent told).store.isFinished child = true ∨
              parent ∈ ((w.ending parent outcome).notifyAll parent told).requests child) ∧
          ∀ {child}, ¬ Forked record false parent child → child ∉ w.children parent ∧
            (w.complete parent outcome).requests child = w.requests child) ∧
      ∀ {starter parent child}, Forked record true starter child →
        ¬ Forked record false parent child := by
  have hsupervised := h.supervised
  refine ⟨fun hfinished hforked => ?_, fun {parent w run step outcome} hmem hplan => ?_,
    fun hdetached hattached => ?_⟩
  · rcases hsupervised.cared hforked with hdone | hasked | ⟨hgoing, -⟩
    · exact Or.inl hdone
    · exact Or.inr hasked
    · rw [hfinished] at hgoing
      cases hgoing
  · obtain ⟨hborn, before, hbefore, hearlier⟩ := h.at_end hmem hplan
    have hcomplete := World.complete_eq hborn outcome
    refine ⟨hcomplete, fun {child told _} hforked _ => ?_, fun {child} hnot =>
      h.requests_complete_other hmem hplan hnot⟩
    have hfinished : ((w.ending parent outcome).notifyAll parent told).store.isFinished parent =
        true := by
      rw [(World.sameBonds_notifyAll _ _ _).isFinished]
      exact w.isFinished_ending_self parent outcome hborn
    rcases ((hbefore.ending parent outcome).told parent told).cared (hearlier.mp hforked) with
      hdone | hasked | ⟨hgoing, -⟩
    · exact Or.inl hdone
    · exact Or.inr hasked
    · rw [hfinished] at hgoing
      cases hgoing
  · cases (hsupervised.once hdetached hattached).2

/-! ### A large family -/

/-- A fiber starts more children than it remembers, and then one that waits for ever, attached, and
one that does so detached. -/
def family : Effect ⟨"E"⟩ :=
  (((Effect.unit : Effect ⟨"E"⟩).fork : Effect ⟨"E"⟩).repeatN 33).zipRight
    (((Effect.never : Effect ⟨"E"⟩).fork : Effect ⟨"E"⟩).zipRight
      (Effect.never : Effect ⟨"E"⟩).forkDaemon)

/-- Whether an entry of a record says that a fiber has started another one. -/
def tellsForked (daemon : Bool) (parent child : FiberId) (p : FiberId × Event) : Bool :=
  p.1 = parent && p.2.starts? == some (child, daemon)

theorem forked_of_any (h : record.any (tellsForked daemon parent child) = true) :
    Forked record daemon parent child := by
  obtain ⟨⟨f, e⟩, hmem, htells⟩ := List.any_eq_true.mp h
  obtain ⟨hparent, hstarts⟩ := (Bool.and_eq_true ..).mp htells
  obtain rfl : f = parent := of_decide_eq_true hparent
  exact ⟨e, hmem, beq_iff_eq.mp hstarts⟩

/-- When the fiber has ended, the attached child has been asked to stop and has not done so yet, and
the detached child has not been asked. -/
theorem Run.supervises_family :
    (afterBegun family 253).world.store.isFinished ⟨1⟩ = true ∧
      Forked (recordBegun family 253) false ⟨1⟩ ⟨36⟩ ∧
      (afterBegun family 253).world.store.isFinished ⟨36⟩ = false ∧
      ⟨1⟩ ∈ (afterBegun family 253).world.requests ⟨36⟩ ∧
      Forked (recordBegun family 253) true ⟨1⟩ ⟨37⟩ ∧
      ¬ Forked (recordBegun family 253) false ⟨1⟩ ⟨37⟩ ∧
      (afterBegun family 253).world.requests ⟨37⟩ = [] := by
  have hfinished : (afterBegun family 253).world.store.isFinished ⟨1⟩ = true := by decide +kernel
  have hgoing : (afterBegun family 253).world.store.isFinished ⟨36⟩ = false := by decide +kernel
  have hattached : Forked (recordBegun family 253) false ⟨1⟩ ⟨36⟩ :=
    forked_of_any (by decide +kernel)
  have hdetached : Forked (recordBegun family 253) true ⟨1⟩ ⟨37⟩ :=
    forked_of_any (by decide +kernel)
  obtain ⟨hcared, -, hapart⟩ := Run.supervises (run_begun family 253)
  refine ⟨hfinished, hattached, hgoing, (hcared hfinished hattached).resolve_left (by simp [hgoing]),
    hdetached, hapart hdetached, by decide +kernel⟩

end Workshop

end Fibers
