import Fibers.Proofs.Workshop

/-!
# Cancellations cannot be swallowed

Once the interruption of a fiber has been requested, the fiber calls no code of the program
wherever it allows interruption: values and instructions give way to the cancellation, and
no handler of a failure is called.  Only the mapping of failures still is, and the function of
an update that was begun before may be called again.

A fiber that was created with interruption allowed has this status again when all of its
continuations are done.  So if its interruption has been requested by then, it does not end
with a value.

## Main definitions

* `Standing.OnTop` — the standings of a fiber above the state in which it was started.

## Main results

* `Step.callback?_of_mustStop` — what an iteration of a fiber that must stop still calls.
* `Life.update_of_attempt` — an update is attempted again only after it was begun.
* `Workshop.Run.interruption_is_sticky` — **a request for interruption cannot be swallowed.**
-/

namespace Fibers

/-! ### Iterations that must stop -/

theorem World.stopsFor_of_mustStop {w : World} {fiber : FiberId} {run : RunState}
    (h : w.mustStop fiber run = true) :
    run.stopsFor (w.pending fiber) = some (w.store.interruptor fiber) := by
  rw [World.stopsFor_pending, if_pos h]

/-- A fiber that must stop has dropped every step but these. -/
theorem World.step_of_mustStop {w : World} {fiber : FiberId} {run : RunState} {step : Step}
    (hstop : w.mustStop fiber run = true) (hstep : w.divert fiber run step = step) :
    (∃ h, step = .halt h) ∨ ∃ cell f, step = .attempt cell f := by
  rw [World.divert_eq] at hstep
  cases step with
  | halt h => exact Or.inl ⟨h, rfl⟩
  | attempt cell f => exact Or.inr ⟨cell, f, rfl⟩
  | eval i | value v =>
    rw [hstop] at hstep
    simp [Step.givesWay, Step.interrupt] at hstep

/-- A failure that unwinds a fiber that must stop meets no code but the mapping of failures. -/
theorem RunState.callback?_planHalt {run : RunState} {pending : Option FiberId}
    (hstop : run.stopsFor pending ≠ none) (h : Halt Failure) {c : Callback}
    (hc : (planHalt pending run h).callback? = some c) : ∃ code, c = .translate code := by
  rcases planHalt_cases pending run h with
    ⟨hplan, -⟩ | ⟨hnone, -⟩ | ⟨rest, code, hplan⟩ | ⟨rest, h', hplan⟩
  · rw [hplan] at hc
    cases hc
  · -- only a handler of failures would be called, but the fiber stops instead
    exact absurd hnone hstop
  · rw [hplan] at hc
    exact ⟨code, (Option.some.inj hc).symm⟩
  · rw [hplan] at hc
    cases hc

/-- **What an iteration of a fiber that must stop still calls.** -/
theorem Step.callback?_of_mustStop {w : World} {fiber : FiberId} {run : RunState} {step : Step}
    (hstop : w.mustStop fiber run = true) (hstep : w.divert fiber run step = step) {c : Callback}
    (hc : (step.plan (w.pending fiber) fiber run).callback? = some c) :
    (∃ code, c = .translate code) ∨ ∃ cell f, step = .attempt cell f := by
  rcases World.step_of_mustStop hstop hstep with ⟨h, rfl⟩ | hattempt
  · refine Or.inl (RunState.callback?_planHalt ?_ h hc)
    simp [World.stopsFor_of_mustStop hstop]
  · exact Or.inr hattempt

/-! ### Updates that have been begun -/

theorem World.park_step {w : World} {fiber : FiberId} {run : RunState}
    {registration : Registration} {step : Step}
    (h : (w.park fiber run registration).1 = some step) : step.isOutcome = true := by
  simp only [World.park] at h
  split at h
  · cases h
  · obtain rfl := Option.some.inj h
    exact Step.isOutcome_ofOutcome _
  · obtain rfl := Option.some.inj h
    rfl
  · obtain rfl := Option.some.inj h
    rfl

/-- Only an update that is going on leads to another attempt. -/
theorem World.plan_of_attempt {w : World} {fiber : FiberId} {plan : Plan} {run : RunState}
    {cell : CellId} {f : Value → Action (Update Value)}
    (h : w.after fiber plan = .active run (.attempt cell f)) :
    plan = .proceed run (.attempt cell f) ∨ plan = .update run cell f := by
  -- code that builds an instruction leads to no attempt
  have hbuilt : ∀ {run' : RunState} (built : Except Defect Instruction),
      Standing.active run' (.ofBuilt built) ≠ .active run (.attempt cell f) := by
    intro run' built heq
    cases built <;> cases heq
  cases plan with
  | proceed run' step =>
    simp only [after, carryOut] at h
    cases h
    exact Or.inl rfl
  | update run' cell' f' =>
    simp only [after, carryOut] at h
    generalize (w.attemptUpdate cell' f').1 = attempt at h
    cases attempt with
    | overtaken =>
      cases h
      exact Or.inr rfl
    | finished v | panicked d => cases h
  | wait run' registration =>
    simp only [after, carryOut] at h
    cases hpark : (w.park fiber run' registration) with
    | mk progress w' =>
      rw [hpark] at h
      cases progress with
      | none => cases h
      | some step =>
        have hout := park_step (congrArg Prod.fst hpark)
        cases h
        cases hout
  | releaseLease run' lease exit =>
    simp only [after] at h
    rcases w.carryOut_releaseLease fiber run' lease exit with heq | ⟨release, leases, heq⟩ <;>
      rw [heq] at h
    · cases h
    · exact absurd h (hbuilt _)
  | build run' code => exact absurd h (hbuilt _)
  | release run' id exit => exact absurd h (hbuilt _)
  | translate run' code =>
    simp only [after, carryOut] at h
    generalize (code.run w).1 = translated at h
    cases translated <;> cases h
  | compute run' code =>
    simp only [after, carryOut] at h
    generalize (code.run w).1 = computed at h
    cases computed with
    | error d => cases h
    | ok outcome => cases outcome <;> cases h
  | finish _ | reserve _ _ _ | fork _ _ _ | signal _ _ | makeWay _ => cases h

/-- The plan that goes on with an attempt is none but that of an update. -/
theorem Step.plan_ne_attempt {pending : Option FiberId} {fiber : FiberId} {run rest : RunState}
    {step : Step} {cell : CellId} {f : Value → Action (Update Value)} :
    step.plan pending fiber run ≠ .proceed rest (.attempt cell f) := by
  intro h
  cases step with
  | eval i =>
    cases i with
    | done outcome => cases outcome <;> cases h
    | _ => cases h
  | value v =>
    rcases run.planValue_cases v with ⟨hplan, -⟩ | ⟨_, _, hplan⟩ | ⟨_, hplan⟩ <;>
      cases hplan.symm.trans h
  | halt failure =>
    rcases RunState.planHalt_cases pending run failure with
      ⟨hplan, -⟩ | ⟨-, _, _, hplan⟩ | ⟨_, _, hplan⟩ | ⟨_, _, hplan⟩ <;>
      cases hplan.symm.trans h
  | attempt cell' f' => cases h

/-- A fiber ends with an outcome that is handed to no continuation. -/
theorem Step.of_plan_finish {pending : Option FiberId} {fiber : FiberId} {run : RunState}
    {step : Step} {outcome : Outcome} (h : step.plan pending fiber run = .finish outcome) :
    step = .ofOutcome outcome ∧ run.stack = [] := by
  cases step with
  | eval i => cases i <;> cases h
  | value v =>
    rcases run.planValue_cases v with ⟨hplan, hstack⟩ | ⟨_, _, hplan⟩ | ⟨_, hplan⟩ <;>
      cases hplan.symm.trans h
    exact ⟨rfl, hstack⟩
  | halt failure =>
    rcases RunState.planHalt_cases pending run failure with
      ⟨hplan, hstack⟩ | ⟨-, _, _, hplan⟩ | ⟨_, _, hplan⟩ | ⟨_, _, hplan⟩ <;>
      cases hplan.symm.trans h
    exact ⟨rfl, hstack⟩
  | attempt cell f => cases h

/-- The plan of an update is that of its instruction or of another attempt. -/
theorem Step.of_plan_update {pending : Option FiberId} {fiber : FiberId} {run rest : RunState}
    {step : Step} {cell : CellId} {f : Value → Action (Update Value)}
    (h : step.plan pending fiber run = .update rest cell f) :
    rest = run ∧ (step = .eval (.update cell f) ∨ step = .attempt cell f) := by
  cases step with
  | eval i =>
    cases i with
    | update cell' f' =>
      cases h
      exact ⟨rfl, Or.inl rfl⟩
    | _ => cases h
  | value v =>
    rcases run.planValue_cases v with ⟨hplan, -⟩ | ⟨_, _, hplan⟩ | ⟨_, hplan⟩ <;>
      cases hplan.symm.trans h
  | halt failure =>
    rcases RunState.planHalt_cases pending run failure with
      ⟨hplan, -⟩ | ⟨-, _, _, hplan⟩ | ⟨_, _, hplan⟩ | ⟨_, _, hplan⟩ <;>
      cases hplan.symm.trans h
  | attempt cell' f' =>
    cases h
    exact ⟨rfl, Or.inr rfl⟩

/-- Another attempt comes from the beginning of the update or from an attempt. -/
theorem Goes.of_attempt {fiber : FiberId} {a b : Standing} {e : Event} {run : RunState}
    {cell : CellId} {f : Value → Action (Update Value)} (h : Goes fiber a e b)
    (hb : b = .active run (.attempt cell f)) :
    a = .active run (.attempt cell f) ∨ ∃ w, e = .iterated w run (.eval (.update cell f)) := by
  cases h with
  | started environment allowed i => cases hb
  | stopped _ _ => cases hb
  | resumed outcome => cases outcome <;> cases hb
  | cancelled source _ => cases hb
  | @iterated w run' step _ =>
    rcases World.plan_of_attempt hb with hplan | hplan
    · exact absurd hplan Step.plan_ne_attempt
    · obtain ⟨rfl, rfl | rfl⟩ := Step.of_plan_update hplan
      · exact Or.inr ⟨w, rfl⟩
      · exact Or.inl rfl

/-- **An update is attempted again only after it was begun**, with the same rest of the
fiber. -/
theorem Life.update_of_attempt {fiber : FiberId} {es : List Event} {a b : Standing}
    {run : RunState} {cell : CellId} {f : Value → Action (Update Value)}
    (h : Life fiber a es b) (hb : b = .active run (.attempt cell f)) :
    a = .active run (.attempt cell f) ∨ ∃ w, .iterated w run (.eval (.update cell f)) ∈ es := by
  induction h with
  | rest => exact Or.inl hb
  | go _ hgoes _ ih =>
    rcases ih hb with hmid | ⟨w, hmem⟩
    · rcases hgoes.of_attempt hmid with ha | ⟨w, rfl⟩
      · exact Or.inl ha
      · exact Or.inr ⟨w, List.mem_cons_self⟩
    · exact Or.inr ⟨w, List.mem_cons_of_mem _ hmem⟩

/-- So the beginning of an update comes before every attempt at it that a fiber iterates. -/
theorem Life.update_before {fiber : FiberId} {earlier later : List Event} {b : Standing}
    {w : World} {run : RunState} {cell : CellId} {f : Value → Action (Update Value)}
    (h : Life fiber .unborn (earlier ++ .iterated w run (.attempt cell f) :: later) b) :
    ∃ w₀, .iterated w₀ run (.eval (.update cell f)) ∈ earlier := by
  obtain ⟨c, hearlier, hlater⟩ := h.of_append
  have hc : c = .active run (.attempt cell f) := by
    cases hlater with
    | go _ hgoes _ =>
      cases hgoes
      rfl
  rcases Life.update_of_attempt hearlier hc with hunborn | hbegun
  · cases hunborn
  · exact hbegun

/-- A fiber iterates no step that it should have dropped. -/
theorem Course.divert_of_mem {fiber : FiberId} {P : Standing → Prop} {es : List Event}
    {a b : Standing} {w : World} {run : RunState} {step : Step} (h : Course fiber P a es b)
    (hmem : .iterated w run step ∈ es) : w.divert fiber run step = step := by
  obtain ⟨c, d, -, hgoes⟩ := h.of_mem hmem
  cases hgoes with
  | iterated hstep => exact hstep

/-! ### The whole of a life -/

/-- The standings of a fiber above the state in which it was started. -/
def Standing.OnTop (base : RunState) : Standing → Prop
  | .active run _ => RunState.Above (fun _ => True) base run
  | .waiting run => RunState.Above (fun _ => True) base run
  | .ended _ => True
  | .unborn => False

section OnTop

variable {fiber : FiberId} {base : RunState} {a b : Standing} {e : Event} {es : List Event}

/-- A plan above a state without continuations stays above it, or is the end. -/
theorem Step.plan_onTop {pending : Option FiberId} {run : RunState} {step : Step}
    (hbase : base.stack = []) (h : RunState.Above (fun _ => True) base run) :
    (∃ outcome, step.plan pending fiber run = .finish outcome) ∨
      ∃ rest, (step.plan pending fiber run).rest? = some rest ∧
        RunState.Above (fun _ => True) base rest := by
  by_cases hout : run = base ∧ step.isOutcome = true
  · -- no continuation is left to be handed the outcome
    obtain ⟨rfl, hstep⟩ := hout
    obtain ⟨outcome, rfl⟩ := Step.isOutcome_iff.mp hstep
    refine Or.inl ⟨outcome, ?_⟩
    cases outcome <;>
      simp only [Step.ofOutcome, Step.plan, RunState.planValue, RunState.planHalt, hbase]
  · refine Or.inr (Step.plan_above h (fun heq => ?_) fun _ _ => trivial)
    exact Bool.not_eq_true _ |>.mp fun hstep => hout ⟨heq, hstep⟩

theorem Goes.onTop (hbase : base.stack = []) (h : Goes fiber a e b) (ha : a.OnTop base) :
    b.OnTop base := by
  cases h with
  | started environment allowed i => exact ha.elim
  | stopped _ _ => exact ha
  | resumed outcome => exact ha
  | cancelled source _ => exact ha
  | @iterated w run step _ =>
    rcases @Step.plan_onTop fiber base (w.pending fiber) run step hbase ha with
      ⟨outcome, hplan⟩ | ⟨rest, hrest, habove⟩
    · rw [hplan]
      exact trivial
    · rcases @World.after_of_rest w fiber _ _ hrest with ⟨step', hafter⟩ | hafter <;>
        rw [hafter] <;> exact habove

theorem Life.onTop (hbase : base.stack = []) (h : Life fiber a es b) (ha : a.OnTop base) :
    Course fiber (Standing.OnTop base) a es b ∧ b.OnTop base := by
  induction h with
  | rest => exact ⟨.rest, ha⟩
  | go _ hgoes _ ih =>
    obtain ⟨hcourse, hb⟩ := ih (hgoes.onTop hbase ha)
    exact ⟨.go ha hgoes hcourse, hb⟩

/-- A life begins with the start of the fiber, and then stays above that. -/
theorem Life.of_unborn (h : Life fiber .unborn es b) :
    (es = [] ∧ b = .unborn) ∨ ∃ environment allowed i es',
      es = .started environment allowed i :: es' ∧
        Course fiber (Standing.OnTop (.start environment allowed))
          (.active (.start environment allowed) (.eval i)) es' b ∧
        b.OnTop (.start environment allowed) := by
  cases h with
  | rest => exact Or.inl ⟨rfl, rfl⟩
  | go _ hgoes hrest =>
    cases hgoes with
    | started environment allowed i =>
      obtain ⟨hcourse, hb⟩ := Life.onTop rfl hrest (.base : RunState.Above _ _ _)
      exact Or.inr ⟨environment, allowed, i, _, rfl, hcourse, hb⟩

end OnTop

/-- A fiber that was created with interruption allowed, and whose interruption has been
requested, does not end with a value. -/
theorem Life.not_done_of_interrupted {fiber : FiberId} {es : List Event} {a : Standing}
    (h : Life fiber .unborn es a) {environment : Value} {i : Instruction}
    (hstart : .started environment true i ∈ es) {w : World} {run : RunState} {step : Step}
    (hmem : .iterated w run step ∈ es) (hflag : w.store.isInterrupted fiber = true) (v : Value) :
    step.plan (w.pending fiber) fiber run ≠ .finish (.done v) := by
  intro hplan
  rcases Life.of_unborn h with ⟨rfl, -⟩ | ⟨environment', allowed, i', es', rfl, hcourse, -⟩
  · cases hmem
  obtain rfl : allowed = true := by
    rcases List.mem_cons.mp hstart with heq | hlater
    · cases heq
      rfl
    · -- a fiber is started only once
      obtain ⟨c, d, hc, hgoes⟩ := hcourse.of_mem hlater
      cases hgoes
      exact hc.elim
  have hmem' : .iterated w run step ∈ es' := by
    rcases List.mem_cons.mp hmem with heq | hlater
    · cases heq
    · exact hlater
  obtain ⟨c, d, hc, hgoes⟩ := hcourse.of_mem hmem'
  cases hgoes with
  | iterated hstep =>
    -- without continuations it has its first state again, in which it must stop
    obtain ⟨hvalue, hstack⟩ := Step.of_plan_finish hplan
    have hbase : run = .start environment' true := hc.eq_of_length_le (by simp [hstack])
    subst hvalue
    have hstop : w.mustStop fiber run = true := by
      simp [World.mustStop, hbase, RunState.interruptible, RunState.start, hflag]
    rcases World.step_of_mustStop hstop hstep with ⟨_, heq⟩ | ⟨_, _, heq⟩ <;> cases heq

/-! ### Runs -/

namespace Workshop

variable {budget minted : Nat} {s s' : Workshop} {record record' : List (FiberId × Event)}
  {fiber : FiberId}

/-- The history of a fiber at one moment goes on to a later one. -/
theorem History.extend {es : List Event} {a : Standing} (h : History s record fiber es a)
    (hvalid : s.Valid) (hrun : Run budget s record' s') :
    ∃ es' b, Life fiber a es' b ∧ es'.filter Event.isDoing = eventsOf fiber record' ∧
      History s' (record ++ record') fiber (es ++ es') b := by
  obtain ⟨es', b, hb, hlife, hdoings⟩ := hrun.extends_history hvalid h.stands
  refine ⟨es', b, hlife, hdoings, h.life.append hlife, hb, ?_⟩
  rw [List.filter_append, eventsOf_append, h.doings, hdoings]

/-- **A request for interruption cannot be swallowed.**  From the moment on at which it has
been made, every iteration of the fiber finds it.  None of them, where the fiber allows
interruption, calls code of the program other than the mapping of failures; only an update
that was begun before may be attempted again.  And a fiber that was created with
interruption allowed does not end with a value in an iteration that finds the request. -/
theorem Run.interruption_is_sticky (h : Run budget (init minted) record s)
    (hflag : s.world.store.isInterrupted fiber = true) (h' : Run budget s record' s') :
    (∀ e ∈ record', ∀ w, e.2.world? = some w → w.store.isInterrupted fiber = true) ∧
    (∀ w run step c, (fiber, .iterated w run step) ∈ record' → run.interruptible = true →
      (step.plan (w.pending fiber) fiber run).callback? = some c →
      (∃ code, c = .translate code) ∨ ∃ cell f, step = .attempt cell f ∧
        ∃ w₀, (fiber, .iterated w₀ run (.eval (.update cell f))) ∈ record) ∧
    (∃ es a, History s' (record ++ record') fiber es a) ∧
    ∀ es a, History s' (record ++ record') fiber es a →
      ∀ environment i, .started environment true i ∈ es →
        ∀ w run step v, (fiber, .iterated w run step) ∈ record ++ record' →
          w.store.isInterrupted fiber = true →
          step.plan (w.pending fiber) fiber run ≠ .finish (.done v) := by
  have hvalid := h.valid (valid_init minted)
  have hfound : ∀ e ∈ record', ∀ w, e.2.world? = some w → w.store.isInterrupted fiber = true :=
    fun e he w hw =>
      World.isInterrupted_of_requests (h'.requests_of_mem hvalid he hw fiber).1 hflag
  obtain ⟨es, a, hhistory⟩ := h.history fiber
  obtain ⟨es', b, hlife', hdoings', hhistory'⟩ := hhistory.extend hvalid h'
  refine ⟨hfound, ?_, ⟨es ++ es', b, hhistory'⟩, ?_⟩
  · intro w run step c hmem hallowed hcallback
    have hlater : ∀ {w : World} {step : Step},
        Event.iterated w run step ∈ es' ↔ (fiber, .iterated w run step) ∈ record' := by
      intro w step
      rw [← mem_eventsOf, ← hdoings', List.mem_filter]
      exact (and_iff_left rfl).symm
    have hstop : ∀ {w : World} {step : Step}, (fiber, Event.iterated w run step) ∈ record' →
        w.mustStop fiber run = true := by
      intro w step hmem
      simp [World.mustStop, hallowed, hfound _ hmem w rfl]
    have hstep := hlife'.divert_of_mem (hlater.mpr hmem)
    rcases Step.callback?_of_mustStop (hstop hmem) hstep hcallback with htranslate | ⟨cell, f, rfl⟩
    · exact Or.inl htranslate
    · refine Or.inr ⟨cell, f, rfl, ?_⟩
      -- the update was begun before the request or after it
      obtain ⟨between, after, rfl⟩ := List.append_of_mem (hlater.mpr hmem)
      have hlife := hhistory'.life
      rw [← List.append_assoc] at hlife
      obtain ⟨w₀, hbegun⟩ := hlife.update_before
      refine ⟨w₀, ?_⟩
      rcases List.mem_append.mp hbegun with hbefore | hbetween
      · exact (hhistory.mem_iff rfl).mp hbefore
      · -- after the request the update would have given way
        have hmem₀ := List.mem_append_left
          (.iterated w run (.attempt cell f) :: after) hbetween
        have hstep₀ := hlife'.divert_of_mem hmem₀
        rcases World.step_of_mustStop (hstop (hlater.mp hmem₀)) hstep₀ with
          ⟨_, heq⟩ | ⟨_, _, heq⟩ <;> cases heq
  · intro es a hhistory environment i hstart w run step v hmem hflag'
    exact hhistory.life.not_done_of_interrupted hstart ((hhistory.mem_iff rfl).mpr hmem) hflag' v

/-- A fiber that is asked to stop before it has begun calls nothing. -/
theorem Run.interruption_is_sticky_at_start :
    ∃ s s' record record', Run 1 (init 0) record s ∧ s.world.store.isInterrupted ⟨1⟩ = true ∧
      Run 1 s record' s' ∧
      (∃ w run step, (⟨1⟩, .iterated w run step) ∈ record' ∧ run.interruptible = true) ∧
      ∀ w run step c, (⟨1⟩, .iterated w run step) ∈ record' → run.interruptible = true →
        (step.plan (w.pending ⟨1⟩) ⟨1⟩ run).callback? = some c →
        (∃ code, c = .translate code) ∨ ∃ cell f, step = .attempt cell f ∧
          ∃ w₀, (⟨1⟩, .iterated w₀ run (.eval (.update cell f))) ∈ record := by
  let root := Machine.startRoot { budget := 1, world := .init 0 } (.suspend (pure .yield)) .unit none
  let w := root.2.world.interrupt ⟨1⟩ ⟨0⟩
  have h : Run 1 (init 0) [] ⟨w, []⟩ :=
    .move (.start (.suspend (pure .yield)) .unit none) (.move (.interrupt ⟨1⟩ ⟨0⟩) .rest)
  have hflag : w.store.isInterrupted ⟨1⟩ = true := by decide
  have h' : Run 1 ⟨w, []⟩ _ _ :=
    .move (.pick_first rfl) (.move (.advance_one _ _ _) .rest)
  refine ⟨⟨w, []⟩, _, _, _, h, hflag, h', ?_, (interruption_is_sticky h hflag h').2.1⟩
  exact ⟨_, _, _, List.mem_cons_of_mem _ List.mem_cons_self, rfl⟩

end Workshop

end Fibers
