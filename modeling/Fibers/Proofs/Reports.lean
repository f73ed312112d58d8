import Fibers.Proofs.Cancellation
import Fibers.Proofs.Leafwise

/-!
# What the failure of a fiber reports

A fiber that ends with a failure has raised it somewhere and unwound all of its
continuations since.  On the way continuations with a value are dropped, failures are
mapped, and folds are skipped if the fiber must stop; everything else would have raised
another failure or none.

Mapping keeps every cancellation, and a fold that is skipped records one.  So a cancellation
is reported if the failure recorded one when it was raised, or if there was a fold left to be
skipped — and otherwise it is not.  In particular a request for interruption that came while
the fiber was in an uninterruptible region goes unreported if the region ends with a failure
and the fiber has nothing but plain continuations around it.

## Main definitions

* `Event.passes` — an iteration that hands a failure on.
* `Frame.Passes` — how a failure gets past a continuation.
* `Fails` — a life that ends with a failure: where it was raised, and how it got to the end.

## Main results

* `Halt.isInterrupted_translate` — mapping failures keeps every cancellation.
* `Life.exists_fails` — every failure with which a fiber ends was raised at one place.
* `Fails.isInterrupted_iff` — whether a failure reports a cancellation.
* `Workshop.Run.reports_cancellation_iff` — **exactly when a fiber that ends with a failure
  reports a cancellation.**
* `Workshop.Run.not_every_cancellation_reported` — and that it does not always.
-/

namespace Fibers

/-! ### Cancellations in causes -/

namespace Cause

variable {ε ε' : Type}

theorem isInterrupted_eq (c : Cause ε) : c.isInterrupted = c.leaves.any Leaf.isInterrupt := by
  rw [isInterrupted, visited_eq_leaves]

@[simp] theorem isInterrupted_fail (e : ε) : (fail e).isInterrupted = false := by
  simp [isInterrupted_eq, leaves, Leaf.isInterrupt, Leaf.interruptor?]

@[simp] theorem isInterrupted_interrupt (source : FiberId) :
    (interrupt source : Cause ε).isInterrupted = true := by
  simp [isInterrupted_eq, leaves, Leaf.isInterrupt, Leaf.interruptor?]

@[simp] theorem isInterrupted_alongside (left right : Cause ε) :
    (left.alongside right).isInterrupted = (left.isInterrupted || right.isInterrupted) := by
  simp [isInterrupted_eq]

/-- Where a leaf is a cancellation if the one that corresponds to it is, a cause records one if the
other does. -/
theorem Leafwise.isInterrupted {R : Leaf ε → Leaf ε' → Prop} {c : Cause ε} {c' : Cause ε'}
    (h : c.Leafwise R c') (hR : ∀ l l', R l l' → l'.isInterrupt = l.isInterrupt) :
    c'.isInterrupted = c.isInterrupted := by
  rw [isInterrupted_eq, isInterrupted_eq, any_eq_of_forall₂ hR h]

end Cause

/-- A failure is never replaced by a cancellation. -/
theorem Leaf.Becomes.isInterrupt {ε ε' : Type} {F : ε → Leaf ε' → Prop} {l : Leaf ε}
    {l' : Leaf ε'} (h : l.Becomes F l') (hF : ∀ e l, F e l → l.isInterrupt = false) :
    l'.isInterrupt = l.isInterrupt := by
  cases h with
  | fail h => exact hF _ _ h
  | die d => rfl
  | interrupt source => rfl

namespace Halt

/-- **Mapping failures keeps every cancellation.** -/
theorem isInterrupted_translate {source target : ErrorType} {f : Value → Action Value}
    {h h' : Halt Failure} {w w' : World}
    (hrun : (h.translate source target f).run w = (.ok h', w')) :
    h'.isInterrupted = h.isInterrupted := by
  have hleafwise : h.Leafwise (Leaf.Becomes (Failure.Translates True source target f)) h' :=
    leafwise_translate (fun _ _ => Or.inl trivial) hrun
  refine hleafwise.cause.isInterrupted fun l l' hl => hl.isInterrupt fun e l he => ?_
  cases he <;> rfl

/-- A failure past a fold that was skipped records a cancellation. -/
theorem isInterrupted_pastFold (sameError : Bool) (source : FiberId) (h : Halt Failure) :
    (h.pastFold sameError source).isInterrupted = true := by
  simp only [pastFold, isInterrupted]
  split <;> split
  · assumption
  · simp
  · assumption
  · simp

end Halt

/-! ### Handing failures on -/

/-- Whether an entry of a continuation stack continues with failures. -/
def Frame.isFold : Frame → Bool
  | .fold _ _ _ => true
  | _ => false

/-- Whether an event hands on the failure with which the fiber unwinds. -/
def Event.passes (fiber : FiberId) : Event → Bool
  | .iterated w run (.halt h) =>
    match run.stack with
    | .fold _ _ _ :: _ => (run.stopsFor (w.pending fiber)).isSome
    | .mapError source target f :: _ => ((h.translate source target f).run w).1.isOk
    | _ => true
  | _ => false

/-- `frame.Passes w fiber run h h'` says that the failure `h`, with which the fiber unwinds as `run`
in the world `w`, gets past its innermost continuation `frame` as `h'`. -/
inductive Frame.Passes (w : World) (fiber : FiberId) (run : RunState) :
    Frame → Halt Failure → Halt Failure → Prop where
  /-- A continuation with a value is dropped. -/
  | chain (next : Value → Action Instruction) (h : Halt Failure) :
      Passes w fiber run (.chain next) h h
  /-- A fold is skipped for the cancellation for which the fiber must stop. -/
  | fold {source : FiberId} (onHalt : Halt Failure → Action Instruction)
      (onDone : Value → Action Instruction) (sameError : Bool) (h : Halt Failure) :
      run.stopsFor (w.pending fiber) = some source →
      Passes w fiber run (.fold onHalt onDone sameError) h (h.pastFold sameError source)
  /-- The mapping of failures does not panic. -/
  | mapError {source target : ErrorType} {f : Value → Action Value} {h h' : Halt Failure}
      {w' : World} : (h.translate source target f).run w = (.ok h', w') →
      Passes w fiber run (.mapError source target f) h h'
  | popEnvironment (h : Halt Failure) : Passes w fiber run .popEnvironment h h
  | popStatus (h : Halt Failure) : Passes w fiber run .popStatus h h

/-- A fold that is skipped adds a cancellation, and nothing else does. -/
theorem Frame.Passes.isInterrupted {w : World} {fiber : FiberId} {run : RunState} {frame : Frame}
    {h h' : Halt Failure} (hpasses : frame.Passes w fiber run h h') :
    h'.isInterrupted = (h.isInterrupted || frame.isFold) := by
  cases hpasses with
  | chain _ _ | popEnvironment _ | popStatus _ => simp [isFold]
  | fold onHalt onDone sameError h _ =>
    rw [Halt.isInterrupted_pastFold]
    simp [isFold]
  | mapError hrun =>
    rw [Halt.isInterrupted_translate hrun]
    simp [isFold]

section Passes

variable {fiber : FiberId} {a b : Standing} {e : Event} {es : List Event}

/-- A failure that is handed on has reached the end, or has passed one continuation. -/
theorem Goes.of_passes (h : Goes fiber a e b) (hpasses : e.passes fiber = true) :
    ∃ w run failure, e = .iterated w run (.halt failure) ∧ a = .active run (.halt failure) ∧
      ((run.stack = [] ∧ b = .ended (.halt failure)) ∨
        ∃ frame rest failure', run.stack = frame :: rest.stack ∧
          b = .active rest (.halt failure') ∧ frame.Passes w fiber run failure failure') := by
  cases h with
  | started _ _ _ | stopped _ _ | resumed _ | cancelled _ _ => cases hpasses
  | @iterated w run step _ =>
  cases step with
  | eval i | value v | attempt cell f => cases hpasses
  | halt failure =>
  refine ⟨w, run, failure, rfl, rfl, ?_⟩
  obtain ⟨stack, environments, statuses⟩ := run
  cases stack with
  | nil => exact Or.inl ⟨rfl, rfl⟩
  | cons frame stack =>
    refine Or.inr ?_
    cases frame with
    | chain next => exact ⟨_, _, _, rfl, rfl, .chain next failure⟩
    | popEnvironment => exact ⟨_, _, _, rfl, rfl, .popEnvironment failure⟩
    | popStatus => exact ⟨_, _, _, rfl, rfl, .popStatus failure⟩
    | fold onHalt onDone sameError =>
      obtain ⟨source, hsource⟩ := Option.isSome_iff_exists.mp hpasses
      simp only [Step.plan, RunState.planHalt, hsource]
      exact ⟨_, _, _, rfl, rfl, .fold onHalt onDone sameError failure hsource⟩
    | mapError source target f =>
      simp only [Step.plan, RunState.planHalt, World.after, World.carryOut]
      cases hrun : (failure.translate source target f).run w with
      | mk translated w' =>
        cases translated with
        | error d =>
          simp only [Event.passes, hrun] at hpasses
          cases hpasses
        | ok failure' => exact ⟨_, _, _, rfl, rfl, .mapError hrun⟩

theorem World.after_eq_ended {w : World} {plan : Plan} {outcome : Outcome}
    (h : w.after fiber plan = .ended outcome) : plan = .finish outcome := by
  rcases w.carryOut_rest fiber plan with
    ⟨outcome', rfl⟩ | ⟨run, registration, rfl⟩ | ⟨run, rfl⟩ | ⟨run, step, hrest, -⟩
  · cases h
    rfl
  · rcases @World.after_of_rest w fiber (.wait run registration) _ rfl with
      ⟨step, heq⟩ | heq <;> rw [heq] at h <;> cases h
  · cases h
  · rcases @World.after_of_rest w fiber _ _ hrest with ⟨step', heq⟩ | heq <;>
      rw [heq] at h <;> cases h

/-- A fiber ends with a failure by handing it on to nobody. -/
theorem Goes.of_ended (h : Goes fiber a e b) {failure : Halt Failure}
    (hb : b = .ended (.halt failure)) :
    (∃ run, a = .active run (.halt failure) ∧ run.stack = []) ∧ e.passes fiber = true := by
  cases h with
  | started _ _ _ | stopped _ _ | resumed _ | cancelled _ _ => cases hb
  | @iterated w run step _ =>
    obtain ⟨rfl, hstack⟩ := Step.of_plan_finish (World.after_eq_ended hb)
    refine ⟨⟨run, rfl, hstack⟩, ?_⟩
    simp only [Step.ofOutcome, Event.passes, hstack]

/-- A life that ends with `failure`, where it was raised as `raised` by the event `raise`,
and has been handed on since. -/
structure Fails (fiber : FiberId) (before : List Event) (raise : Event) (run : RunState)
    (raised : Halt Failure) (after : List Event) (failure : Halt Failure) : Prop where
  raises : Life fiber .unborn (before ++ [raise]) (.active run (.halt raised))
  fresh : raise.passes fiber = false
  unwinds : Life fiber (.active run (.halt raised)) after (.ended (.halt failure))
  passes : ∀ e ∈ after, e.passes fiber = true

/-- **What a failure becomes in a course in which it is handed on.**  It has passed the first of its
continuations, and what holds of one that has passed nothing, and is kept by passing one more, holds
of it. -/
theorem Life.passes_induction {P : List Frame → Halt Failure → Halt Failure → Prop}
    {run : RunState} {raised : Halt Failure} (hrefl : ∀ h, P [] h h)
    (h : Life fiber a es b) (ha : a = .active run (.halt raised))
    (hpasses : ∀ e ∈ es, e.passes fiber = true)
    (hcons : ∀ w run frame stack h mid, .iterated w run (.halt h) ∈ es →
      run.stack = frame :: stack → frame.Passes w fiber run h mid →
      ∀ passed now, P passed mid now → P (frame :: passed) h now) :
    ∃ passed now, P passed raised now ∧
      ((b = .ended (.halt now) ∧ run.stack = passed) ∨
        ∃ left, b = .active left (.halt now) ∧ run.stack = passed ++ left.stack) := by
  induction h generalizing run raised with
  | rest => exact ⟨[], raised, hrefl raised, Or.inr ⟨run, ha, rfl⟩⟩
  | @go a b c e es _ hgoes hrest ih =>
    obtain ⟨w, run', raised', rfl, ha', hend | ⟨frame, rest, mid, hstack, hmid, hframe⟩⟩ :=
      hgoes.of_passes (hpasses e List.mem_cons_self)
    · obtain ⟨hstack, rfl⟩ := hend
      rw [ha'] at ha
      cases ha
      -- a fiber that has ended does nothing more
      cases hrest with
      | rest => exact ⟨[], raised, hrefl raised, Or.inl ⟨rfl, hstack⟩⟩
      | go _ hgoes' _ => cases hgoes'
    · rw [ha'] at ha
      cases ha
      obtain ⟨passed, now, hnow, hlast⟩ :=
        ih hmid (fun e he => hpasses e (List.mem_cons_of_mem _ he))
          fun w run frame stack h mid he =>
            hcons w run frame stack h mid (List.mem_cons_of_mem _ he)
      refine ⟨frame :: passed, now,
        hcons w run frame _ raised mid List.mem_cons_self hstack hframe passed now hnow, ?_⟩
      rw [hstack]
      exact hlast.imp (fun ⟨hb, hpassed⟩ => ⟨hb, by rw [hpassed]⟩)
        fun ⟨left, hb, hpassed⟩ => ⟨left, hb, by rw [hpassed, List.cons_append]⟩

/-- What a failure records at the end, if it has only been handed on. -/
theorem Life.isInterrupted_of_passes {run : RunState} {raised failure : Halt Failure}
    (h : Life fiber (.active run (.halt raised)) es (.ended (.halt failure)))
    (hpasses : ∀ e ∈ es, e.passes fiber = true) :
    failure.isInterrupted = (raised.isInterrupted || run.stack.any Frame.isFold) := by
  -- every fold that is passed adds a cancellation
  let P (passed : List Frame) (h now : Halt Failure) : Prop :=
    now.isInterrupted = (h.isInterrupted || passed.any Frame.isFold)
  obtain ⟨passed, now, hnow, ⟨hb, hstack⟩ | ⟨left, hb, -⟩⟩ :=
    h.passes_induction (P := P) (fun h => (Bool.or_false _).symm) rfl hpasses
      fun w run frame stack h mid _ _ hframe passed now hnow => by
        simp only [P] at hnow ⊢
        rw [hnow, hframe.isInterrupted, List.any_cons, Bool.or_assoc]
  · cases hb
    rw [hstack, hnow]
  · cases hb

/-- Every failure with which a course ends was handed on from its beginning, or has been
raised in it. -/
theorem Life.raised_or_passed {failure : Halt Failure} (h : Life fiber a es b)
    (hb : b = .ended (.halt failure)) :
    (es = [] ∧ a = b) ∨
      (∃ run raised, a = .active run (.halt raised) ∧ ∀ e ∈ es, e.passes fiber = true) ∨
      ∃ before raise after run raised, es = before ++ raise :: after ∧
        Life fiber a (before ++ [raise]) (.active run (.halt raised)) ∧
        raise.passes fiber = false ∧ Life fiber (.active run (.halt raised)) after b ∧
        ∀ e ∈ after, e.passes fiber = true := by
  induction h with
  | rest => exact Or.inl ⟨rfl, rfl⟩
  | @go a b c e es _ hgoes hrest ih =>
    rcases ih hb with ⟨rfl, rfl⟩ | ⟨run, raised, rfl, hpasses⟩ |
      ⟨before, raise, after, run, raised, rfl, hraise, hfresh, hafter, hpasses⟩
    · obtain ⟨⟨run, rfl, -⟩, hpass⟩ := hgoes.of_ended hb
      exact Or.inr (Or.inl ⟨run, failure, rfl, by simpa using hpass⟩)
    · -- what has been handed on all the time is raised here, or handed on from before
      by_cases hpass : e.passes fiber = true
      · obtain ⟨w, run', raised', -, rfl, -⟩ := hgoes.of_passes hpass
        exact Or.inr (Or.inl ⟨run', raised', rfl, List.forall_mem_cons.mpr ⟨hpass, hpasses⟩⟩)
      · exact Or.inr (Or.inr ⟨[], e, es, run, raised, rfl, .one trivial hgoes,
          Bool.not_eq_true _ |>.mp hpass, hrest, hpasses⟩)
    · exact Or.inr (Or.inr ⟨e :: before, raise, after, run, raised, rfl,
        .go trivial hgoes hraise, hfresh, hafter, hpasses⟩)

/-- **Every failure with which a fiber ends was raised at one place.** -/
theorem Life.exists_fails {failure : Halt Failure}
    (h : Life fiber .unborn es (.ended (.halt failure))) :
    ∃ before raise after run raised, es = before ++ raise :: after ∧
      Fails fiber before raise run raised after failure := by
  rcases h.raised_or_passed rfl with ⟨-, heq⟩ | ⟨run, raised, heq, -⟩ |
    ⟨before, raise, after, run, raised, rfl, hraise, hfresh, hafter, hpasses⟩
  · cases heq
  · cases heq
  · exact ⟨before, raise, after, run, raised, rfl, hraise, hfresh, hafter, hpasses⟩

/-- **A failure reports a cancellation if it did so when it was raised, or if a fold was left
to be skipped**, and otherwise it does not. -/
theorem Fails.isInterrupted_iff {before after : List Event} {raise : Event} {run : RunState}
    {raised failure : Halt Failure} (h : Fails fiber before raise run raised after failure) :
    failure.isInterrupted = true ↔
      raised.isInterrupted = true ∨ ∃ frame ∈ run.stack, frame.isFold = true := by
  rw [Life.isInterrupted_of_passes h.unwinds h.passes]
  simp

end Passes

/-! ### Runs -/

namespace Workshop

variable {budget minted : Nat} {s : Workshop} {record : List (FiberId × Event)}

/-- **Exactly when a fiber that ends with a failure reports a cancellation**: if the failure
recorded one when it was raised, or if there was a fold on the stack then. -/
theorem Run.reports_cancellation_iff (h : Run budget (init minted) record s) (fiber : FiberId) :
    (∃ es a, History s record fiber es a) ∧
      ∀ es failure, History s record fiber es (.ended (.halt failure)) →
        ∃ before raise after run raised, es = before ++ raise :: after ∧
          Fails fiber before raise run raised after failure ∧
          (failure.cause.isInterrupted = true ↔
            raised.cause.isInterrupted = true ∨ ∃ frame ∈ run.stack, frame.isFold = true) := by
  refine ⟨h.history fiber, fun es failure hhistory => ?_⟩
  obtain ⟨before, raise, after, run, raised, hes, hfails⟩ := hhistory.life.exists_fails
  exact ⟨before, raise, after, run, raised, hes, hfails, hfails.isInterrupted_iff⟩

/-- A failure in a region where interruption is not allowed. -/
def maskedFailure : Instruction :=
  .setInterruptible false (.done (.halt (.of (.fail ⟨⟨"E"⟩, .unit⟩))))

/-- A fiber is asked to stop while it is in such a region, and ends with the failure only. -/
theorem exists_run_maskedFailure :
    ∃ s record es failure before raise after run raised w,
      Run 8 (init 0) record s ∧ History s record ⟨1⟩ es (.ended (.halt failure)) ∧
      .started .unit true maskedFailure ∈ es ∧ es = before ++ raise :: after ∧
      Fails ⟨1⟩ before raise run raised after failure ∧
      raise.world? = some w ∧ w.store.isInterrupted ⟨1⟩ = true ∧
      failure.cause.isInterrupted = false := by
  let w₀ := (Machine.startRoot { budget := 8, world := .init 0 } maskedFailure .unit none).2.world
  let w₁ : World := { w₀ with tasks := .empty }
  let w₂ := w₁.interrupt ⟨1⟩ ⟨0⟩
  let start : RunState := .start .unit true
  let inside : RunState := start.enterStatus false
  let failure : Halt Failure := .of (.fail ⟨⟨"E"⟩, .unit⟩)
  have hrun : Run 8 (init 0) _ _ :=
    .move (.start maskedFailure .unit none) <|
    .move (.pick_first rfl) <|
    .move (.advance_one _ _ _) <|
    .move (.interrupt ⟨1⟩ ⟨0⟩) <|
    .move (.advance_one _ _ _) <|
    .move (.advance_one _ _ _) <|
    .move (.advance_one _ _ _) .rest
  have hbegin : Life ⟨1⟩ .unborn _ (.active inside (.eval (.done (.halt failure)))) :=
    .go trivial (.started .unit true maskedFailure) <|
    .go trivial (.iterated (w := w₁) rfl) .rest
  have hraise : Goes ⟨1⟩ (.active inside (.eval (.done (.halt failure))))
      (.iterated w₂ inside _) (.active inside (.halt failure)) := .iterated rfl
  have hend : Life ⟨1⟩ (.active inside (.halt failure)) _ (.ended (.halt failure)) :=
    .go trivial (.iterated (w := w₂) rfl) <|
    .go trivial (.iterated (w := w₂) rfl) .rest
  have hflag : w₂.store.isInterrupted ⟨1⟩ = true := by decide
  refine ⟨_, _, _, failure, _, _, _, inside, failure, w₂, hrun,
    ⟨hbegin.append (.go trivial hraise hend), ⟨by decide, rfl⟩, rfl⟩, List.mem_cons_self, rfl,
    ⟨hbegin.append (.one trivial hraise), rfl, hend, ?_⟩, rfl, hflag, Cause.isInterrupted_fail _⟩
  intro e he
  rcases List.mem_cons.mp he with rfl | he
  · rfl
  · rw [List.mem_singleton.mp he]
    rfl

/-- **Not every cancellation is reported**, although the fiber was created with interruption
allowed and its interruption had been requested when the failure was raised. -/
theorem Run.not_every_cancellation_reported :
    ¬ ∀ budget minted s record fiber es failure environment i before raise after run raised w,
      Run budget (init minted) record s →
      History s record fiber es (.ended (.halt failure)) →
      .started environment true i ∈ es → es = before ++ raise :: after →
      Fails fiber before raise run raised after failure →
      raise.world? = some w → w.store.isInterrupted fiber = true →
      failure.cause.isInterrupted = true := by
  intro hall
  obtain ⟨s, record, es, failure, before, raise, after, run, raised, w, hrun, hhistory, hstart, hes,
    hfails, hw, hflag, hunreported⟩ := exists_run_maskedFailure
  have hreported := hall 8 0 s record ⟨1⟩ es failure .unit maskedFailure before raise after run
    raised w hrun hhistory hstart hes hfails hw hflag
  rw [hunreported] at hreported
  cases hreported

/-- What the fiber with the masked failure reports. -/
theorem Run.reports_cancellation_iff_maskedFailure :
    ∃ s record es failure, Run 8 (init 0) record s ∧
      History s record ⟨1⟩ es (.ended (.halt failure)) ∧ failure.cause.isInterrupted = false ∧
      ∃ before raise after run raised, es = before ++ raise :: after ∧
        Fails ⟨1⟩ before raise run raised after failure ∧
        (failure.cause.isInterrupted = true ↔
          raised.cause.isInterrupted = true ∨ ∃ frame ∈ run.stack, frame.isFold = true) := by
  obtain ⟨s, record, es, failure, _, _, _, _, _, _, hrun, hhistory, -, -, -, -, -, hunreported⟩ :=
    exists_run_maskedFailure
  exact ⟨s, record, es, failure, hrun, hhistory, hunreported,
    (reports_cancellation_iff hrun ⟨1⟩).2 es failure hhistory⟩

end Workshop

end Fibers
