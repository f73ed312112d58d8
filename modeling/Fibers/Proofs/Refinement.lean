import Fibers.Proofs.Evaluation
import Fibers.Proofs.Workshop

/-!
# The interpreter computes what the evaluation says

An iteration takes a fiber from one step to the next, with continuations, environments and
interrupt statuses on stacks.  `Follows` says that from a standing on, whatever worlds it
finds, a fiber that is not interrupted makes the calls of an evaluation and comes, after
finitely many iterations, to the state `base` with the outcome of the evaluation.  It has
one constructor for an iteration, with a branch for every world.

That a fiber follows the evaluation of a sequential instruction is shown by induction on the
instruction, for every state on top of which it is evaluated; the continuations that are
pushed on the way are evaluations that follow (`Follows.andThen`).  Everything else is read
off the tree: what happens under a schedule is a path in it, and a path cannot be endless.

## Main definitions

* `Event.call?`, `calls` — the calls of code of the program among events.
* `Follows` — a fiber follows an evaluation.
* `World.Alone` — nobody but one fiber can change the world.

## Main results

* `Instruction.Sequential.follows` — the induction on the instruction.
* `Instruction.Sequential.refines` — **the interpreter refines the evaluation**, under every
  schedule, in any worlds, and for every budget.
-/

namespace Fibers

/-! ### Following an evaluation -/

/-- The call of a plan, and the world in which it is. -/
def Plan.call? (plan : Plan) (w : World) : Option (World × Callback) := plan.callback?.map (w, ·)

/-- The call of an event. -/
def Event.call? (fiber : FiberId) : Event → Option (World × Callback)
  | .iterated w run step => (step.plan (w.pending fiber) fiber run).call? w
  | .started _ _ _ | .stopped _ | .resumed _ | .cancelled _ => none

/-- The calls of code of the program among events. -/
def calls (fiber : FiberId) (es : List Event) : List (World × Callback) :=
  es.filterMap (Event.call? fiber)

/-- The plans that do nothing but call code of the program or go on. -/
def Plan.isOwn : Plan → Bool
  | .proceed _ _ | .build _ _ | .translate _ _ | .compute _ _ | .makeWay _ => true
  | .finish _ | .update _ _ _ | .release _ _ _ | .releaseLease _ _ _ | .reserve _ _ _
  | .fork _ _ _ | .signal _ _ | .wait _ _ => false

/-- A fiber follows an evaluation, up to the moment at which the state `base` is handed the
outcome of it. -/
inductive Follows (fiber : FiberId) (base : RunState) : Standing → Evaluation → Prop where
  /-- The outcome is handed to the state. -/
  | settled (outcome : Outcome) : Follows fiber base (.handed base outcome) (.ended outcome)
  /-- The fiber iterates, in whatever world, and makes the call of the evaluation if it makes
  one. -/
  | iterates {run : RunState} {step : Step} {e : Evaluation} (rest : World → Evaluation) :
      Inside (fun _ => True) base (.active run step) →
      (step.plan none fiber run).isOwn = true →
      (∀ w, e.Makes ((step.plan none fiber run).call? w).toList (rest w)) →
      (∀ w : World, Follows fiber base (w.after fiber (step.plan none fiber run)) (rest w)) →
      Follows fiber base (.active run step) e

theorem Inside.of_length {base run : RunState} (h : RunState.Above (fun _ => True) base run)
    (hlt : base.stack.length < run.stack.length) (step : Step) :
    Inside (fun _ => True) base (.active run step) := by
  refine ⟨h, fun heq => ?_⟩
  subst heq
  omega

namespace Follows

variable {fiber : FiberId} {base mid run run' : RunState} {step step' : Step} {a : Standing}
  {e : Evaluation}

/-- An evaluation on top of more continuations, and what follows its outcome. -/
theorem andThen (habove : RunState.Above (fun _ => True) base mid)
    (hlt : base.stack.length < mid.stack.length) (h : Follows fiber mid a e)
    {next : Outcome → Evaluation}
    (hnext : ∀ o, Inside (fun _ => True) base (.handed mid o) →
      Follows fiber base (.handed mid o) (next o)) :
    Follows fiber base a (e.andThen next) := by
  induction h with
  | settled outcome => exact hnext outcome (.of_length habove hlt _)
  | iterates rest hin hown hmakes _ ih =>
    exact .iterates _ (hin.weaken habove hlt) hown (fun w => (hmakes w).andThen next) ih

/-- An iteration without a call. -/
theorem proceeds (hin : Inside (fun _ => True) base (.active run step))
    (hplan : step.plan none fiber run = .proceed run' step')
    (h : Follows fiber base (.active run' step') e) : Follows fiber base (.active run step) e :=
  .iterates (fun _ => e) hin (by rw [hplan]; rfl) (fun w => by rw [hplan]; exact .rest)
    fun w => by rw [hplan]; exact h

/-- An evaluation in a region, which is left with the outcome of it. -/
theorem leaves (habove : RunState.Above (fun _ => True) base mid)
    (hlt : base.stack.length < mid.stack.length) (h : Follows fiber mid a e)
    (hplan : ∀ o, (Step.ofOutcome o).plan none fiber mid = .proceed base (.ofOutcome o)) :
    Follows fiber base a e := by
  rw [← e.andThen_ended_right]
  exact h.andThen habove hlt fun o hin => .proceeds hin (hplan o) (.settled o)

/-- Code that builds an instruction. -/
theorem builds {code : Action Instruction} (hin : Inside (fun _ => True) base (.active run step))
    (hplan : step.plan none fiber run = .build base code)
    (h : code.Builds fun i => Follows fiber base (.active base (.eval i))
      (i.evaluation fiber base.environment base.interruptible)) :
    Follows fiber base (.active run step)
      (.call (.build code) (built fiber base.environment base.interruptible code)) := by
  refine .iterates _ hin (by rw [hplan]; rfl) (fun w => by rw [hplan]; exact .call .rest) fun w => ?_
  rw [hplan, built_eq]
  change Follows fiber base (.active base (.ofBuilt (code.run w).1)) _
  cases hrun : (code.run w).1 with
  | ok i => exact h w i hrun
  | error d => exact .settled (.die d)

/-- Code that computes an outcome. -/
theorem computes {code : Action Outcome} (hin : Inside (fun _ => True) base (.active run step))
    (hplan : step.plan none fiber run = .compute base code) :
    Follows fiber base (.active run step) (.call (.compute code) (.ofResult code id)) := by
  refine .iterates _ hin (by rw [hplan]; rfl) (fun w => by rw [hplan]; exact .call .rest) fun w => ?_
  rw [hplan, Evaluation.ofResult]
  change Follows fiber base (.active base (.ofComputed (code.run w).1)) _
  cases (code.run w).1 with
  | ok o => exact .settled o
  | error d => exact .settled (.die d)

/-- Code that translates failures. -/
theorem translates {code : Action (Halt Failure)}
    (hin : Inside (fun _ => True) base (.active run step))
    (hplan : step.plan none fiber run = .translate base code) :
    Follows fiber base (.active run step) (.call (.translate code) (.ofResult code .halt)) := by
  refine .iterates _ hin (by rw [hplan]; rfl) (fun w => by rw [hplan]; exact .call .rest) fun w => ?_
  rw [hplan, Evaluation.ofResult]
  change Follows fiber base (.active base (.ofTranslated (code.run w).1)) _
  cases (code.run w).1 with
  | ok h => exact .settled (.halt h)
  | error d => exact .settled (.die d)

end Follows

/-! ### The induction on the instruction -/

@[simp] theorem RunState.stopsFor_none (run : RunState) : run.stopsFor none = none := by
  simp [stopsFor]

theorem inside_eval (base : RunState) (i : Instruction) :
    Inside (fun _ => True) base (.active base (.eval i)) := ⟨.base, fun _ => rfl⟩

/-- **A fiber follows the evaluation of a sequential instruction**, whatever it still has to do
afterwards. -/
theorem Instruction.Sequential.follows {i : Instruction} (hi : i.Sequential) (fiber : FiberId)
    (base : RunState) :
    Follows fiber base (.active base (.eval i))
      (i.evaluation fiber base.environment base.interruptible) := by
  -- what is pushed for a part is the base of the part, so the base is free
  induction hi generalizing base with
  | done outcome => exact .proceeds (inside_eval base _) rfl (.settled outcome)
  | sync action => exact .computes (inside_eval base _) rfl
  | @chain first next _ _ ihfirst ihnext =>
    refine .proceeds (inside_eval base _) rfl ?_
    have habove : RunState.Above (fun _ => True) base (base.push (.chain next)) := .chain _ .base
    have hlt : base.stack.length < (base.push (.chain next)).stack.length := Nat.lt_succ_self _
    refine .andThen habove hlt (ihfirst _) fun o hin => ?_
    cases o with
    | done v => exact .builds hin rfl fun w i hi => ihnext v w i hi base
    | halt h => exact .proceeds hin rfl (.settled (.halt h))
  | @fold first onHalt onDone sameError _ _ _ ihfirst ihhalt ihdone =>
    refine .proceeds (inside_eval base _) rfl ?_
    let mid := base.push (.fold onHalt onDone sameError)
    have habove : RunState.Above (fun _ => True) base mid := .fold _ _ _ .base
    have hlt : base.stack.length < mid.stack.length := Nat.lt_succ_self _
    refine .andThen habove hlt (ihfirst mid) fun o hin => ?_
    cases o with
    | done v => exact .builds hin rfl fun w i hi => ihdone v w i hi base
    | halt h =>
      -- nothing is pending, so the handler is not passed by
      have hplan : (Step.halt h).plan none fiber mid = .build base (onHalt h) := by
        simp only [Step.plan, RunState.planHalt, mid, RunState.push, RunState.stopsFor_none]
      exact .builds hin hplan fun w i hi => ihhalt h w i hi base
  | @mapError first source target f _ ih =>
    refine .proceeds (inside_eval base _) rfl ?_
    have habove : RunState.Above (fun _ => True) base (base.push (.mapError source target f)) :=
      .mapError _ _ _ .base
    have hlt : base.stack.length < (base.push (.mapError source target f)).stack.length :=
      Nat.lt_succ_self _
    refine .andThen habove hlt (ih _) fun o hin => ?_
    cases o with
    | done v => exact .proceeds hin rfl (.settled (.done v))
    | halt h => exact .translates hin rfl
  | suspend _ ih => exact .builds (inside_eval base _) rfl fun w i hi => ih w i hi base
  | access _ ih => exact .builds (inside_eval base _) rfl fun w i hi => ih _ w i hi base
  | interruptStatus _ ih => exact .builds (inside_eval base _) rfl fun w i hi => ih _ w i hi base
  | descriptor _ ih => exact .builds (inside_eval base _) rfl fun w i hi => ih _ w i hi base
  | @provide environment body _ ih =>
    refine .proceeds (inside_eval base _) rfl ?_
    have habove : RunState.Above (fun _ => True) base (base.enterEnvironment environment) :=
      .environment _ .base
    have hlt : base.stack.length < (base.enterEnvironment environment).stack.length :=
      Nat.lt_succ_self _
    refine .leaves habove hlt (ih _) fun o => ?_
    cases o with
    | done v => rfl
    | halt h => rfl
  | @setInterruptible allowed body _ ih =>
    refine .proceeds (inside_eval base _) rfl ?_
    have habove : RunState.Above (fun _ => True) base (base.enterStatus allowed) :=
      .status _ trivial .base
    have hlt : base.stack.length < (base.enterStatus allowed).stack.length := Nat.lt_succ_self _
    refine .leaves habove hlt (ih _) fun o => ?_
    cases o with
    | done v => rfl
    | halt h => rfl
  | yield =>
    exact .iterates _ (inside_eval base _) rfl (fun _ => .rest) fun _ => .settled (.done .unit)

/-! ### Under a schedule -/

theorem World.pending_eq_none {w : World} {fiber : FiberId} :
    w.pending fiber = none ↔ w.store.isInterrupted fiber = false := by
  simp [pending]

/-- A fiber whose interruption has not been requested drops nothing. -/
theorem World.divert_of_free {w : World} {fiber : FiberId}
    (hfree : w.store.isInterrupted fiber = false) (run : RunState) (step : Step) :
    w.divert fiber run step = step := by
  simp [divert_eq, mustStop, hfree]

theorem Goes.iterated_of_free {w : World} {fiber : FiberId}
    (hfree : w.store.isInterrupted fiber = false) (run : RunState) (step : Step) :
    Goes fiber (.active run step) (.iterated w run step)
      (w.after fiber (step.plan none fiber run)) := by
  have hgoes := Goes.iterated (w.divert_of_free hfree run step)
  rwa [World.pending_eq_none.mpr hfree] at hgoes

/-- A running fiber whose interruption has not been requested does nothing but iterate. -/
theorem Goes.of_free {fiber : FiberId} {run : RunState} {step : Step} {ev : Event} {b : Standing}
    (h : Goes fiber (.active run step) ev b)
    (hfree : ∀ w, ev.world? = some w → w.store.isInterrupted fiber = false) :
    ∃ w, ev = .iterated w run step ∧ w.pending fiber = none ∧
      b = w.after fiber (step.plan none fiber run) := by
  cases h with
  | @stopped w _ _ _ hstop => simp [World.mustStop, hfree w rfl] at hstop
  | @iterated w _ _ _ =>
    have hpending := World.pending_eq_none.mpr (hfree w rfl)
    exact ⟨w, rfl, hpending, by rw [hpending]⟩

theorem calls_cons {fiber : FiberId} {w : World} (hpending : w.pending fiber = none)
    (run : RunState) (step : Step) (es : List Event) :
    calls fiber (.iterated w run step :: es) =
      ((step.plan none fiber run).call? w).toList ++ calls fiber es := by
  unfold calls
  rw [List.filterMap_cons]
  simp only [Event.call?, hpending]
  cases (step.plan none fiber run).call? w <;> rfl

namespace Follows

variable {fiber : FiberId} {base : RunState} {a c : Standing} {e : Evaluation} {es : List Event}

/-- **Under every schedule a fiber makes the calls of the evaluation that it follows**, and
settles with the outcome of it. -/
theorem course (hf : Follows fiber base a e) (h : Life fiber a es c)
    (hfree : ∀ ev ∈ es, ∀ w, ev.world? = some w → w.store.isInterrupted fiber = false) :
    (∃ e', e.Makes (calls fiber es) e' ∧ Inside (fun _ => True) base c) ∨
      ∃ es₁ es₂ o, es = es₁ ++ es₂ ∧ e.Makes (calls fiber es₁) (.ended o) ∧
        Course fiber (Inside (fun _ => True) base) a es₁ (.handed base o) ∧
        Life fiber (.handed base o) es₂ c := by
  induction hf generalizing es with
  | settled outcome => exact Or.inr ⟨[], es, outcome, rfl, .rest, .rest, h⟩
  | iterates rest hin _ hmakes _ ih =>
    cases h with
    | rest => exact Or.inl ⟨_, .rest, hin⟩
    | go _ hgoes hrest =>
      have hhead := hfree _ List.mem_cons_self
      have htail := fun ev hev => hfree ev (List.mem_cons_of_mem _ hev)
      obtain ⟨w, rfl, hpending, rfl⟩ := hgoes.of_free hhead
      rcases ih w hrest htail with ⟨e', hcalls, hc⟩ | ⟨es₁, es₂, o, rfl, hcalls, hcourse, hlife⟩
      · refine Or.inl ⟨e', ?_, hc⟩
        rw [calls_cons hpending]
        exact (hmakes w).append hcalls
      · refine Or.inr ⟨_ :: es₁, es₂, o, rfl, ?_, .go hin hgoes hcourse, hlife⟩
        rw [calls_cons hpending]
        exact (hmakes w).append hcalls

/-- **In whatever worlds it finds, a fiber comes to the end of the evaluation that it
follows.** -/
theorem reaches (hf : Follows fiber base a e) (worlds : Nat → World)
    (hfree : ∀ n, (worlds n).store.isInterrupted fiber = false) :
    ∃ es o, Course fiber (Inside (fun _ => True) base) a es (.handed base o) ∧
      es.map Event.world? = (List.range es.length).map (fun n => some (worlds n)) ∧
      e.Makes (calls fiber es) (.ended o) := by
  induction hf generalizing worlds with
  | settled outcome => exact ⟨[], outcome, .rest, rfl, .rest⟩
  | @iterates run step e rest hin _ hmakes _ ih =>
    obtain ⟨es, o, hcourse, hworlds, hcalls⟩ :=
      -- the later iterations find the later worlds
      ih (worlds 0) (fun n => worlds (n + 1)) fun n => hfree (n + 1)
    have hpending := World.pending_eq_none.mpr (hfree 0)
    have hgoes := Goes.iterated_of_free (hfree 0) run step
    refine ⟨_ :: es, o, .go hin hgoes hcourse, ?_, ?_⟩
    · rw [List.map_cons, hworlds, List.length_cons, List.range_succ_eq_map, List.map_cons,
        List.map_map]
      rfl
    · rw [calls_cons hpending]
      exact (hmakes _).append hcalls

end Follows

/-! ### On a machine of its own -/

/-- The world that a plan leaves. -/
def Plan.leaves (plan : Plan) (w : World) : World :=
  match plan.callback? with
  | some code => code.leaves w
  | none => w

/-- Nobody comes in the way of a running fiber. -/
structure World.Calm (w : World) (fiber : FiberId) : Prop where
  /-- No other fiber is ready to run. -/
  idle : w.tasks.toList = []
  /-- The interruption of the fiber has not been requested. -/
  free : w.store.isInterrupted fiber = false

/-- Nobody comes in the way of an evaluation: no call of it makes another fiber ready. -/
def Evaluation.Undisturbed (fiber : FiberId) : Evaluation → World → Prop
  | .ended _, w => w.Calm fiber
  | .call code next, w => w.Calm fiber ∧ (next w).Undisturbed fiber (code.leaves w)

/-- Nobody but the fiber has to do with the world. -/
structure World.Alone (w : World) (fiber : FiberId) : Prop extends w.Calm fiber where
  /-- No fiber is parked. -/
  vacant : ∀ {s place}, w.suspension? s = some place → place.state.run? = none

/-- Where nobody is parked, nobody is woken. -/
theorem Influence.tasks_eq {w w' : World} {events : List (FiberId × Event)}
    (h : Influence w events w')
    (hvacant : ∀ {s place}, w.suspension? s = some place → place.state.run? = none) :
    w'.tasks = w.tasks ∧ ∀ {s place}, w'.suspension? s = some place → place.state.run? = none := by
  have hkeeps : ∀ {v v' : World} {events : List (FiberId × Event)}, Influence v events v' →
      (∀ {s place}, v.suspension? s = some place → place.state.run? = none) →
      ∀ {s place}, v'.suspension? s = some place → place.state.run? = none := by
    intro v v' events h hv s place hs
    cases hbefore : v.suspension? s with
    | none =>
      rw [h.no_place hbefore] at hs
      cases hs
    | some before =>
      obtain ⟨after, hafter, hkeeps⟩ := h.place hbefore
      obtain rfl : after = place := Option.some.inj (hafter.symm.trans hs)
      rcases hkeeps.state with heq | hnone
      · rw [heq]
        exact hv hbefore
      · exact hnone
  refine ⟨?_, hkeeps h hvacant⟩
  -- a waking would need somebody who is parked
  induction h with
  | data _ htasks _ => exact htasks
  | vacant _ _ _ => rfl
  | resumed _ hs hrun => rw [hvacant hs] at hrun; cases hrun
  | cancelled _ hs hrun _ _ _ => rw [hvacant hs] at hrun; cases hrun
  | trans h h' ih ih' => exact (ih' (hkeeps h hvacant)).trans (ih hvacant)

theorem World.Alone.run {α : Type} {w : World} {fiber : FiberId} (h : w.Alone fiber)
    (a : Action α) : (a.run w).2.Alone fiber := by
  obtain ⟨events, hinfluence⟩ := a.influences_run w
  obtain ⟨htasks, hvacant⟩ := hinfluence.tasks_eq h.vacant
  refine ⟨⟨by rw [htasks]; exact h.idle, ?_⟩, hvacant⟩
  have hfree := h.free
  unfold Store.isInterrupted Store.fiber? at hfree ⊢
  rwa [a.fibers_run w]

/-- In a world with nobody else no evaluation is disturbed. -/
theorem World.Alone.undisturbed {w : World} {fiber : FiberId} (h : w.Alone fiber)
    (e : Evaluation) : e.Undisturbed fiber w := by
  induction e generalizing w with
  | ended outcome => exact h.toCalm
  | call code next ih =>
    refine ⟨h.toCalm, ih w ?_⟩
    cases code with
    | build code => exact h.run code
    | translate code => exact h.run code
    | compute code => exact h.run code
    | update _ | register _ | release _ | releaseLease _ => exact h

namespace Machine

/-- The machine comes from one state to another, while a record is made. -/
def Comes (awaited : Option FiberId) (m : Machine) (record : List (FiberId × Event))
    (m' : Machine) : Prop :=
  (∃ n, moves awaited n m = m') ∧ Workshop.Run m.budget m.workshop record m'.workshop

theorem moves_add (awaited : Option FiberId) (k n : Nat) (m : Machine) :
    moves awaited (k + n) m = moves awaited n (moves awaited k m) := by
  induction k generalizing m with
  | zero => rw [Nat.zero_add]; rfl
  | succ k ih =>
    rw [Nat.succ_add]
    simp only [moves]
    cases h : m.step? awaited with
    | none => exact (moves_of_idle h n).symm
    | some m' => exact ih m'

namespace Comes

variable {awaited : Option FiberId} {m m' m'' : Machine} {record record' : List (FiberId × Event)}

theorem refl (awaited : Option FiberId) (m : Machine) : Comes awaited m [] m := ⟨⟨0, rfl⟩, .rest⟩

theorem trans (h : Comes awaited m record m') (h' : Comes awaited m' record' m'') :
    Comes awaited m (record ++ record') m'' := by
  obtain ⟨⟨k, hk⟩, hrun⟩ := h
  obtain ⟨⟨n, hn⟩, hrun'⟩ := h'
  rw [← hk, budget_moves, hk] at hrun'
  exact ⟨⟨k + n, by rw [moves_add, hk, hn]⟩, hrun.append hrun'⟩

theorem of_step (hstep : m.step? awaited = some m')
    (hmove : Workshop.Move m.budget m.workshop record m'.workshop) :
    Comes awaited m record m' := by
  refine ⟨⟨1, by simp [moves, hstep]⟩, ?_⟩
  rw [← List.append_nil record]
  exact .move hmove .rest

end Comes

variable {awaited : Option FiberId} {budget : Nat} {w : World} {fiber : FiberId}

theorem comes_advance (awaited : Option FiberId) (budget : Nat) (w : World) (slice : Slice) :
    Comes awaited ⟨budget, w, some slice⟩ ((slice.doings budget w).map (slice.fiber, ·))
      (advance ⟨budget, w, none⟩ slice) :=
  .of_step rfl (.advance_one budget w slice)

/-- A fiber that is alone and has to queue is picked up again. -/
theorem comes_requeue (hidle : w.tasks.toList = []) (fiber : FiberId) (run : RunState)
    (step : Step) :
    Comes awaited ⟨budget, w.schedule fiber run step, none⟩ []
      ⟨budget, w, some ⟨fiber, run, step, 0⟩⟩ := by
  obtain ⟨store, suspensions, ⟨front, back⟩, releases⟩ := w
  obtain ⟨rfl, hback⟩ := List.append_eq_nil_iff.mp hidle
  obtain rfl := List.reverse_eq_nil_iff.mp hback
  let queued := World.schedule ⟨store, suspensions, ⟨[], []⟩, releases⟩ fiber run step
  exact .of_step rfl (@Workshop.Move.pick_first budget queued [] ⟨[], []⟩ ⟨fiber, run, step⟩ rfl)

/-- The budget of a fiber that is alone may be used up, but it is not for long. -/
theorem comes_refilled (awaited : Option FiberId) (budget used : Nat) (hidle : w.tasks.toList = [])
    (fiber : FiberId) (run : RunState) (step : Step) :
    ∃ used', ¬ max budget 1 < (if counts step then used' + 1 else used') ∧
      Comes awaited ⟨budget, w, some ⟨fiber, run, step, used⟩⟩ []
        ⟨budget, w, some ⟨fiber, run, step, used'⟩⟩ := by
  by_cases hout : max budget 1 < (if counts step then used + 1 else used)
  · -- it queues once, and then nothing of its budget is used
    refine ⟨0, by split <;> omega, ?_⟩
    have hadvance := comes_advance awaited budget w ⟨fiber, run, step, used⟩
    simp only [Slice.doings, advance, if_pos hout] at hadvance
    exact hadvance.trans (comes_requeue hidle fiber run step)
  · exact ⟨used, hout, .refl _ _⟩

/-- What comes of a plan that does nothing but call code of the program or go on. -/
theorem carryOut_own (w : World) (fiber : FiberId) {plan : Plan} (h : plan.isOwn = true) :
    (∃ run, plan = .makeWay run) ∨
      ∃ run step, w.carryOut fiber plan = (some (run, step), plan.leaves w) := by
  cases plan with
  | makeWay run => exact Or.inl ⟨run, rfl⟩
  | proceed run step => exact Or.inr ⟨run, step, rfl⟩
  | build run code | translate run code | compute run code => exact Or.inr ⟨run, _, rfl⟩
  | finish _ | update _ _ _ | release _ _ _ | releaseLease _ _ _ | reserve _ _ _ | fork _ _ _
  | signal _ _ | wait _ _ => cases h

/-- **An iteration of a fiber that is alone**, whatever its budget is. -/
theorem comes_iteration (awaited : Option FiberId) (budget used : Nat) (hcalm : w.Calm fiber)
    {run : RunState} {step : Step} (hown : (step.plan none fiber run).isOwn = true) :
    ∃ run' step' used', w.after fiber (step.plan none fiber run) = .active run' step' ∧
      Comes awaited ⟨budget, w, some ⟨fiber, run, step, used⟩⟩ [(fiber, .iterated w run step)]
        ⟨budget, (step.plan none fiber run).leaves w, some ⟨fiber, run', step', used'⟩⟩ := by
  obtain ⟨used', hused, hrefilled⟩ :=
    comes_refilled awaited budget used hcalm.idle fiber run step
  have hadvance := comes_advance awaited budget w ⟨fiber, run, step, used'⟩
  have hmust : w.mustStop fiber run = false := by simp [World.mustStop, hcalm.free]
  have hdivert := w.divert_of_free hcalm.free run step
  simp only [Slice.doings, advance, if_neg hused, World.iterate_eq_carryOut, hdivert, hmust,
    World.pending_eq_none.mpr hcalm.free, Bool.and_false, Bool.false_eq_true, if_false,
    List.nil_append, List.map_cons, List.map_nil] at hadvance
  rcases carryOut_own w fiber hown with ⟨run', hplan⟩ | ⟨run', step', hout⟩
  · -- the fiber queues behind nobody
    refine ⟨run', .value .unit, 0, by rw [hplan]; rfl, ?_⟩
    rw [hplan] at hadvance ⊢
    exact hrefilled.trans (hadvance.trans (comes_requeue hcalm.idle fiber run' (.value .unit)))
  · refine ⟨run', step', if counts step then used' + 1 else used', ?_, ?_⟩
    · simp only [World.after, hout]
    rw [hout] at hadvance
    exact hrefilled.trans hadvance

end Machine

/-- What a call and the rest of the evaluation come to. -/
theorem Evaluation.Makes.run_call? {e e' : Evaluation} {plan : Plan} {w : World}
    (h : e.Makes (plan.call? w).toList e') :
    e.run w = ((plan.callback?.toList ++ (e'.run (plan.leaves w)).1),
      (e'.run (plan.leaves w)).2) := by
  unfold Plan.call? at h
  unfold Plan.leaves
  cases hcode : plan.callback? with
  | none =>
    rw [hcode] at h
    rw [h.eq_of_nil]
    rfl
  | some code =>
    rw [hcode] at h
    cases h with
    | call hrest =>
      rw [← hrest.eq_of_nil]
      rfl

theorem Evaluation.Undisturbed.calm {fiber : FiberId} {e : Evaluation} {w : World}
    (h : e.Undisturbed fiber w) : w.Calm fiber := by
  cases e with
  | ended outcome => exact h
  | call code next => exact h.1

theorem Evaluation.Makes.undisturbed {fiber : FiberId} {e e' : Evaluation} {plan : Plan} {w : World}
    (h : e.Makes (plan.call? w).toList e') (he : e.Undisturbed fiber w) :
    e'.Undisturbed fiber (plan.leaves w) := by
  unfold Plan.call? at h
  unfold Plan.leaves
  cases hcode : plan.callback? with
  | none =>
    rw [hcode] at h
    rwa [← h.eq_of_nil]
  | some code =>
    rw [hcode] at h
    cases h with
    | call hrest =>
      rw [← hrest.eq_of_nil]
      exact he.2

namespace Follows

variable {fiber : FiberId} {base : RunState} {a : Standing} {e : Evaluation}

/-- **A fiber that is not disturbed computes what the evaluation computes**, for every
budget. -/
theorem undisturbed (hf : Follows fiber base a e) (awaited : Option FiberId) (budget : Nat)
    {w : World} (he : e.Undisturbed fiber w) {run : RunState} {step : Step}
    (ha : a = .active run step) (used : Nat) :
    ∃ es used', Course fiber (Inside (fun _ => True) base) a es (.handed base (e.run w).2.1) ∧
      Machine.Comes awaited ⟨budget, w, some ⟨fiber, run, step, used⟩⟩ (es.map (fiber, ·))
        ⟨budget, (e.run w).2.2, some ⟨fiber, base, .ofOutcome (e.run w).2.1, used'⟩⟩ ∧
      (calls fiber es).map Prod.snd = (e.run w).1 ∧ ∀ ev ∈ es, ev.isDoing = true := by
  induction hf generalizing w run step used with
  | settled outcome =>
    obtain ⟨rfl, rfl⟩ := Standing.active.inj ha
    exact ⟨[], used, .rest, .refl _ _, rfl, by simp⟩
  | @iterates run step e rest hin hown hmakes _ ih =>
    obtain ⟨rfl, rfl⟩ := Standing.active.inj ha
    have hcalm := he.calm
    obtain ⟨run', step', used', hafter, hcomes⟩ :=
      Machine.comes_iteration awaited budget used hcalm hown
    obtain ⟨es, used'', hcourse, hcomes', hcalls, hdoings⟩ :=
      ih w ((hmakes w).undisturbed he) hafter used'
    have hpending := World.pending_eq_none.mpr hcalm.free
    have hgoes := Goes.iterated_of_free hcalm.free run step
    rw [(hmakes w).run_call?]
    refine ⟨_ :: es, used'', .go hin hgoes hcourse, hcomes.trans hcomes', ?_,
      List.forall_mem_cons.mpr ⟨rfl, hdoings⟩⟩
    rw [calls_cons hpending, List.map_append, hcalls, Plan.call?]
    cases (step.plan none fiber run).callback? <;> rfl

end Follows

/-! ### The refinement -/

/-- **The interpreter refines the evaluation** of every sequential instruction, on top of
whatever the fiber still has to do.

Under every schedule and for every budget, as long as the interruption of the fiber has not been
requested, the fiber makes the calls of the evaluation, in the worlds that it finds, and is
then back in the state from which it set out, with the outcome of the evaluation.  Whatever
worlds it finds, it comes to that.  And where no call makes another fiber ready, a machine of
every budget comes to the outcome, with the calls and the world, that the evaluation has by
itself. -/
theorem Instruction.Sequential.refines {i : Instruction} (hi : i.Sequential) (fiber : FiberId)
    (base : RunState) :
    (∀ {budget minted : Nat} {record : List (FiberId × Event)} {s : Workshop}
        {before after : List Event} {a : Standing},
        Workshop.Run budget (.init minted) record s → s.world.store.isInterrupted fiber = false →
        Workshop.History s record fiber (before ++ after) a →
        Life fiber .unborn before (.active base (.eval i)) →
        Life fiber (.active base (.eval i)) after a →
        (∃ e, (i.evaluation fiber base.environment base.interruptible).Makes
            (calls fiber after) e ∧ Inside (fun _ => True) base a) ∨
          ∃ es₁ es₂ o, after = es₁ ++ es₂ ∧
            (i.evaluation fiber base.environment base.interruptible).Makes
              (calls fiber es₁) (.ended o) ∧
            Course fiber (Inside (fun _ => True) base) (.active base (.eval i)) es₁
              (.handed base o) ∧
            Life fiber (.handed base o) es₂ a) ∧
      (∀ worlds : Nat → World, (∀ n, (worlds n).store.isInterrupted fiber = false) →
        ∃ es o, Course fiber (Inside (fun _ => True) base) (.active base (.eval i)) es
            (.handed base o) ∧
          es.map Event.world? = (List.range es.length).map (fun n => some (worlds n)) ∧
          (i.evaluation fiber base.environment base.interruptible).Makes
            (calls fiber es) (.ended o)) ∧
      ∀ (awaited : Option FiberId) (budget used : Nat) (w : World),
        (i.evaluation fiber base.environment base.interruptible).Undisturbed fiber w →
        ∃ codes outcome w' es used',
          (i.evaluation fiber base.environment base.interruptible).run w = (codes, outcome, w') ∧
          Course fiber (Inside (fun _ => True) base) (.active base (.eval i)) es
            (.handed base outcome) ∧
          Machine.Comes awaited ⟨budget, w, some ⟨fiber, base, .eval i, used⟩⟩
            (es.map (fiber, ·)) ⟨budget, w', some ⟨fiber, base, .ofOutcome outcome, used'⟩⟩ ∧
          (calls fiber es).map Prod.snd = codes := by
  have hf := hi.follows fiber base
  refine ⟨fun hrun hfree hhistory _ hlife => hf.course hlife fun ev hev => ?_, hf.reaches,
    fun awaited budget used w he => ?_⟩
  · exact hhistory.never_interrupted hrun hfree ev (List.mem_append_right _ hev)
  · obtain ⟨es, used', hcourse, hcomes, hcalls, -⟩ := hf.undisturbed awaited budget he rfl used
    exact ⟨_, _, _, es, used', rfl, hcourse, hcomes, hcalls⟩

/-- In a world in which nothing has been started every fiber is alone. -/
theorem World.alone_init (minted : Nat) (fiber : FiberId) : (World.init minted).Alone fiber where
  idle := rfl
  free := by
    simp [World.init, Store.init, Store.isInterrupted, Store.fiber?, Numbered.get?,
      Numbered.startingAt]
  vacant hs := by simp [World.init, World.suspension?, Numbered.get?] at hs

/-- A bracket, on a machine whose budget is used up by every iteration. -/
theorem Instruction.Sequential.refines_bracketExit :
    ∃ (i : Instruction) (es : List Event) (used : Nat) (codes : List Callback) (w : World),
      i.Sequential ∧ codes.length = 6 ∧
      Machine.Comes none ⟨1, .init 0, some ⟨⟨1⟩, .start .unit true, .eval i, 0⟩⟩
        (es.map (⟨1⟩, ·)) ⟨1, w, some ⟨⟨1⟩, .start .unit true, .value (.bool true), used⟩⟩ ∧
      (calls ⟨1⟩ es).map Prod.snd = codes := by
  let i : Effect ⟨"E"⟩ := Effect.bracketExit (Effect.succeed (.bool true))
    (fun held => pure (Effect.succeed held)) fun _ _ => pure Effect.unit
  have hi : Instruction.Sequential i :=
    Effect.sequential_bracketExit (.done _) (fun _ => .pure (.done _)) fun _ _ => .pure (.done _)
  obtain ⟨codes, outcome, w, es, used, hrun, -, hcomes, hcalls⟩ :=
    (hi.refines ⟨1⟩ (.start .unit true)).2.2 none 1 0 (.init 0)
      ((World.alone_init 0 ⟨1⟩).undisturbed _)
  have houtcome : outcome = .done (.bool true) := (congrArg (·.2.1) hrun).symm
  have hlength : codes.length = 6 := (congrArg (·.1.length) hrun).symm
  rw [houtcome] at hcomes
  exact ⟨i, es, used, codes, w, hi, hlength, hcomes, hcalls⟩

end Fibers
