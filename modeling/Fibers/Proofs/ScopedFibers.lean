import Fibers.Proofs.Scopes

/-!
# Fibers for as long as a scope

`Resource.fiber` starts a fiber when it is acquired, and stops it when it is released.  The fiber is
attached to the one that acquires it.  If that is the one that uses the resource, it goes on for as
long as the scope does: nobody else asks it to stop by ending, and the one that uses it does not end
before the scope does; when the scope is over, it has finished.

Acquisitions at once are made by fibers that end as soon as they have acquired something.  What they
have started is asked to stop then, before the scope has begun.

## Main definitions

* `Resource.stops` — what stops a fiber in the end.

## Main results

* `Workshop.PrudentRun.keeps_scoped_fiber` — **a fiber that is acquired by the one that uses it lives
  as long as the scope does.**
* `Workshop.Run.not_every_scoped_fiber_kept` — one that is acquired by somebody else does not.
-/

namespace Fibers

open Effect

namespace Resource

variable {ε : ErrorType} {f : FiberId} {m : Resource ε} {took : Took} {st : Story}
  {lost : List (Defect × Hold)} {inside : List (ReleaseId × ReleaseId)} {acquire : Effect ε}
  {release : Value → Exit Value Value → Action (Effect ε)}

/-- What stops a fiber in the end, as the release of `Resource.fiber` does. -/
def stops (ε : ErrorType) (v : Value) : Exit Value Value → Action Instruction := fun _ =>
  expecting (fun f : Fiber ε => pure (f.interrupt : Effect ε).asUnit) v

/-- What goes on with a reservation is not what reserves. -/
theorem onReserved_ne {next : Reservation → Action (Effect ε)} :
    m.onReserved next ≠ bracketExit acquire release := by
  intro heq
  have hreserve : (m.onReserved next).reserve = (bracketExit acquire release).reserve := congrArg _ heq
  obtain ⟨-, hnext⟩ := Instruction.chain.inj hreserve
  -- for a value that is no reservation
  cases congrFun hnext .unit

/-- **What is told of the acquisition of what has not been put together.** -/
theorem Acquires.of_bracketExit (h : (bracketExit acquire release).Acquires f took st lost inside) :
    lost = [] ∧ ((∃ v id, took = .got v (.single id (release v)) ∧
        st = [(f, .ran acquire (.done v)), (f, .reserved v id (release v))]) ∨
      ∃ failure, took = .failed failure ∧ st = [(f, .ran acquire (.halt failure))]) := by
  generalize hm : bracketExit acquire release = m at h
  have hreserve : (bracketExit acquire release).reserve = m.reserve := congrArg _ hm
  cases h with
  | @acquired _ acquire' release' v id =>
    obtain ⟨rfl, hnext⟩ := Instruction.chain.inj hreserve
    have hreserve : (reservation v (.code (release v)) : Effect ε) =
        reservation v (.code (release' v)) := Action.done.inj (congrFun hnext v)
    have hrelease : release v = release' v := Release.code.inj (Instruction.reserve.inj hreserve).2
    exact ⟨rfl, Or.inl ⟨v, id, hrelease ▸ rfl, hrelease ▸ rfl⟩⟩
  | refused =>
    obtain ⟨rfl, -⟩ := Instruction.chain.inj hreserve
    exact ⟨rfl, Or.inr ⟨_, rfl, rfl⟩⟩
  | fail | built _ _ | unbuilt _ | paired _ _ _ | unpaired _ _ _ | rightRefused _ _ _
  | leftRefused _ _ _ | bothRefused _ _ => cases hreserve
  | mapped _ _ | unmapped _ _ | mapRefused _ | chained _ _ | unchained _ _ _ | chainRefused _
  | provided _ | provideRefused _ => exact (onReserved_ne hm.symm).elim

end Resource

namespace Workshop

variable {budget minted : Nat} {s : Workshop} {record : List (FiberId × Event)}
  {fiber f : FiberId} {base : RunState} {during : List Event} {o : Outcome} {ε : ErrorType}
  {m : Resource ε} {g : Value → Action (Effect ε)}

/-! ### The fiber -/

/-- Who has started a fiber has been told which one. -/
theorem Evaluated.forked {i : Instruction} {v : Value}
    (hdone : Evaluated s record f base (.fork i false) during (.done v))
    (hfalse : base.interruptible = false) : ∃ c, v = .fiber c ∧ Forked record false f c := by
  obtain ⟨-, hcourse, -, hhistory⟩ := hdone
  generalize hend : Standing.handed base (.done v) = d at hcourse
  cases hcourse with
  | rest => cases hend
  | @go _ _ _ e es _ hgoes hrest =>
    subst hend
    obtain ⟨w, rfl, rfl⟩ := hgoes.of_uninterruptible hfalse
    change Course f _ (.handed base (.done (.fiber w.store.nextFiber))) es _ at hrest
    obtain ⟨rfl, heq⟩ := hrest.eq_of_handed
    have hmem := mem_eventsOf.mp (List.mem_of_getElem? (hhistory.getElem?_doing rfl))
    exact ⟨_, Exit.done.inj heq, _, hmem, rfl⟩

/-- Who has been stopped and waited for has finished. -/
theorem Evaluated.finished {c : Fiber ε} (h : Run budget (init minted) record s)
    (hdone : Evaluated s record f base (c.interrupt : Effect ε).asUnit during o)
    (hfalse : base.interruptible = false) : s.world.store.isFinished c.id = true := by
  have htells : Tells s record f 0 base (.active base (.eval (c.interrupt : Effect ε).asUnit))
      fun _ _ _ => s.world.store.isFinished c.id = true := by
    refine Tells.chain (P := fun _ _ _ => s.world.store.isFinished c.id = true) hfalse
      (Tells.interrupt h hfalse fun _ _ _ hfinished => hfinished) ?_ fun _ _ _ _ hfinished => hfinished
    exact fun v st m _ hfinished w => Tells.done hfalse hfinished
  obtain ⟨-, -, -, hfinished⟩ := htells.of_evaluated hdone
  exact hfinished

/-- A fiber does not end in the course of an evaluation. -/
theorem Evaluated.not_ends {i : Instruction} {w : World} {run : RunState} {step : Step}
    {outcome : Outcome} (hdone : Evaluated s record f base i during o)
    (hplan : step.plan (w.pending f) f run = .finish outcome) :
    .iterated w run step ∉ during := by
  intro hmem
  obtain ⟨-, hcourse, -, -⟩ := hdone
  obtain ⟨before, after, rfl⟩ := List.append_of_mem hmem
  obtain ⟨a, -, hlast⟩ := hcourse.of_append
  generalize hend : Standing.handed base o = d at hlast
  cases hlast with
  | go _ hgoes hrest =>
    cases hgoes with
    | iterated _ =>
      rw [hplan] at hrest
      change Course f _ (.ended outcome) after d at hrest
      cases hrest with
      | rest => cases hend
      | go _ hgoes _ => cases hgoes

/-! ### The scope -/

/-- **A fiber that is acquired by the one that uses it lives as long as the scope does**, unless it
is handed to code that panics: no end of another fiber asks it to stop, and the one that uses it does
not end before the scope does; when the scope is over, it has finished. -/
theorem PrudentRun.keeps_scoped_fiber (h : PrudentRun budget minted record s)
    (hm : m.Composed False)
    (hdone : Evaluated s record fiber base (m.use g) during o) :
    ∃ st lost inside, Told s record fiber during st ∧
      m.Uses g base.interruptible fiber o st lost inside ∧
      ∀ (e : Effect ε) v id f,
        (fiber, .ran (e.interruptible.fork : Effect ε) (.done v)) ∈ st →
        (f, .reserved v id (Resource.stops ε v)) ∈ st → id ∉ lostIds lost →
          ∃ c, v = .fiber c ∧ Forked record false fiber c ∧ s.world.store.isFinished c = true ∧
            ∀ p w run step outcome, (p, .iterated w run step) ∈ record →
              step.plan (w.pending p) p run = .finish outcome →
                (w.complete p outcome).requests c = w.requests c ∨
                  p = fiber ∧ .iterated w run step ∉ during := by
  obtain ⟨st, -, htold, lost, inside, -, huses⟩ :=
    (Tells.uses hm h.run h.discreet).of_evaluated hdone
  refine ⟨st, lost, inside, htold, huses, fun e v id f hran hreserved hkept => ?_⟩
  obtain ⟨base', _, hfalse, hstarted⟩ := htold.evaluated hran
  obtain ⟨c, rfl, hforked⟩ := hstarted.forked hfalse
  refine ⟨c, rfl, hforked, ?_, fun p w run step outcome hmem hplan => ?_⟩
  · rcases huses.settles hreserved with ⟨x, -, hcarried⟩ | ⟨q, hq, hpart⟩
    · -- the release has waited for the end of the fiber
      rcases hcarried with ⟨w, i, p, o', hi, hmem⟩ | ⟨w, d, hd⟩
      · obtain rfl := Except.ok.inj hi
        obtain ⟨base'', _, hfalse', hstopped⟩ := htold.evaluated hmem
        exact Evaluated.finished (c := ⟨c⟩) h.run hstopped hfalse'
      · cases hd
    · exact absurd (List.mem_flatMap.mpr ⟨q, hq, List.mem_map_of_mem hpart⟩) hkept
  · by_cases hparent : Forked record false p c
    · -- it is attached to the one that uses it
      obtain ⟨rfl, -⟩ := h.run.supervised.once hforked hparent
      exact Or.inr ⟨rfl, hdone.not_ends hplan⟩
    · exact Or.inl (h.run.requests_complete_other hmem hplan hparent).2

/-- A scope with a fiber that goes on for ever. -/
def lone : Effect ⟨"E"⟩ := (Resource.fiber (never : Effect ⟨"E"⟩)).use fun _ => pure unit

theorem guards_lone (c : FiberId) : lone.Guards c .none :=
  (Resource.Guards.fiber (Instruction.Guards.wait (.callback fun _ => .done (.done trivial)))).use
    fun _ _ => .done Effect.Guards.unit

/-- The fiber has been started by the one that uses it, and has finished when the scope is over. -/
theorem PrudentRun.keeps_scoped_fiber_lone :
    ∃ during o, Evaluated (afterBegun lone 60) (recordBegun lone 60) ⟨1⟩ (.start .unit true) lone
        during o ∧ ∃ c, Forked (recordBegun lone 60) false ⟨1⟩ c ∧
      (afterBegun lone 60).world.store.isFinished c = true ∧
      ∀ p w run step outcome, (p, .iterated w run step) ∈ recordBegun lone 60 →
        step.plan (w.pending p) p run = .finish outcome →
          (w.complete p outcome).requests c = w.requests c ∨
            p = ⟨1⟩ ∧ .iterated w run step ∉ during := by
  obtain ⟨during, o, hdone, hsucceeds, -⟩ := exists_evaluated (i := lone) (n := 60)
    (fun o => !isFailure o) ⟨_, rfl⟩ (by decide +kernel) (by decide +kernel) (by decide +kernel)
  obtain ⟨st, lost, inside, -, huses, hkeeps⟩ := PrudentRun.keeps_scoped_fiber
    (prudent_begun guards_lone 60)
    (Resource.composed_fiber (never : Effect ⟨"E"⟩)) hdone
  -- since the use has succeeded, the fiber has been acquired
  obtain ⟨v, hold, st, st', hacquires, rfl⟩ : ∃ v hold st₁ st₂,
      (Resource.fiber (never : Effect ⟨"E"⟩)).Acquires ⟨1⟩ (.got v hold) st₁ lost inside ∧
        st = st₁ ++ st₂ := by
    cases huses with
    | stopped _ | refused _ => cases hsucceeds
    | used hacquires _ _ => exact ⟨_, _, _, _, hacquires, rfl⟩
  obtain ⟨rfl, ⟨v', id, -, rfl⟩ | ⟨failure, hfailed, -⟩⟩ := hacquires.of_bracketExit
  · obtain ⟨c, -, hc⟩ := hkeeps never v' id ⟨1⟩ List.mem_cons_self
      (List.mem_cons_of_mem _ List.mem_cons_self) List.not_mem_nil
    exact ⟨during, o, hdone, c, hc⟩
  · cases hfailed

/-! ### A fiber that is acquired at once with something else -/

/-- A scope with a fiber that goes on for ever, acquired at once with something else. -/
def beside : Effect ⟨"E"⟩ :=
  ((Resource.fiber (never : Effect ⟨"E"⟩)).parZip plain).use fun _ => pure unit

/-- Whether an entry of a record says that a fiber ends and asks another one to stop. -/
def asks (c : FiberId) : FiberId × Event → Bool
  | (f, .iterated w run step) =>
    match step.plan (w.pending f) f run with
    | .finish o => (w.complete f o).requests c != w.requests c
    | _ => false
  | _ => false

theorem finish_of_asks {c p : FiberId} {w : World} {run : RunState} {step : Step}
    (h : asks c (p, .iterated w run step) = true) : ∃ o,
      step.plan (w.pending p) p run = .finish o ∧ (w.complete p o).requests c ≠ w.requests c := by
  change (match step.plan (w.pending p) p run with
    | .finish o => (w.complete p o).requests c != w.requests c
    | _ => false) = true at h
  split at h
  · next o hplan => exact ⟨o, hplan, bne_iff_ne.mp h⟩
  · cases h

/-- **Not every fiber lives as long as its scope does**: one that is acquired at once with something
else is asked to stop before anything is released. -/
theorem Run.not_every_scoped_fiber_kept :
    ¬ ∀ (budget minted : Nat) (s : Workshop) (record : List (FiberId × Event)) (fiber : FiberId)
        (w : World) (environment : Value),
      Run budget (init minted) record s →
      (eventsOf fiber record).head? =
        some (.iterated w (.start environment true) (.eval beside)) →
      s.world.store.isInterrupted fiber = false →
        ∀ c f w run, (f, .iterated w run (.eval (.reserve (.fiber c)
            (.code (Resource.stops ⟨"E"⟩ (.fiber c)))))) ∈ record →
          ∀ p w' run' step outcome,
            (p, .iterated w' run' step) ∈ record.takeWhile (fun q => !tellsCalled q.2) →
            step.plan (w'.pending p) p run' = .finish outcome →
              (w'.complete p outcome).requests c = w'.requests c := by
  intro hall
  have hfree : (afterBegun beside 160).world.store.isInterrupted ⟨1⟩ = false := by decide +kernel
  obtain ⟨w₀, hfirst⟩ : ∃ w, (eventsOf ⟨1⟩ (recordBegun beside 160)).head? =
    some (.iterated w (.start .unit true) (.eval beside)) := ⟨_, rfl⟩
  obtain ⟨w, run, hreserved⟩ : ∃ w run, (recordBegun beside 160)[19]? =
    some (⟨2⟩, .iterated w run (.eval (.reserve (.fiber ⟨4⟩)
      (.code (Resource.stops ⟨"E"⟩ (.fiber ⟨4⟩)))))) := ⟨_, _, rfl⟩
  have hasks : ((recordBegun beside 160).takeWhile fun q => !tellsCalled q.2).any (asks ⟨4⟩) =
      true := by
    decide +kernel
  obtain ⟨⟨p, e⟩, hp, hasked⟩ := List.any_eq_true.mp hasks
  cases e with
  | started _ _ _ | stopped _ | resumed _ | cancelled _ => cases hasked
  | iterated w' run' step =>
    obtain ⟨o', hplan, hother⟩ := finish_of_asks hasked
    exact hother (hall 16 0 _ _ ⟨1⟩ w₀ _ (run_begun beside 160) hfirst hfree ⟨4⟩ ⟨2⟩ w run
      (List.mem_of_getElem? hreserved) p w' run' step o' hp hplan)

end Workshop

end Fibers
