import Fibers.Proofs.Refinement

/-!
# Brackets release exactly once

A bracket acquires a resource, uses it and releases it.  Acquisition and release are
evaluated where interruption is not allowed; the use goes on as the surroundings do.  What a
fiber still has to do tells how far the bracket has come: while the resource is used, the
continuation that holds its release lies on the stack, and a value is handed to it exactly
once, which is the exit of the use.

`Bracket.Stage` says this of the events of one evaluation, from the moment at which the
fiber comes to it.  There is one constructor for each of the stages, and each of them says
whether the release has been called so far: not until the use has settled, and then once.

## Main definitions

* `Bracket` — a bracket and the fiber state in which it is evaluated.
* `Bracket.Uses`, `Bracket.Releases` — the use and the release, from beginning to end.
* `Bracket.Stage` — how far an evaluation has come.

## Main results

* `Bracket.stage` — every evaluation of a bracket is at one of the stages.
* `Workshop.Run.bracketExit_releases_once` — **in every run each evaluation of a bracket
  releases exactly once what it has acquired.**
-/

namespace Fibers

open Effect

/-! ### Code that is guarded -/

/-- Guarded code does not panic. -/
theorem Effect.run_guarded {ε : ErrorType} (code : Action (Effect ε)) (w : World) :
    ∃ i, ((guarded code).run w).1 = .ok i := by
  unfold guarded
  rw [Action.run_recover]
  cases (code.run w).1 with
  | ok i => exact ⟨i, rfl⟩
  | error d => exact ⟨_, rfl⟩

/-- What follows guarded code is built of what that has built, or of its panic. -/
theorem Effect.run_guarded_bind {ε ε' : ErrorType} {code : Action (Effect ε)} {w : World}
    {i : Effect ε} (h : ((guarded code).run w).1 = .ok i) (f : Effect ε → Effect ε') :
    (((guarded code) >>= fun e => (pure (f e) : Action (Effect ε'))).run w).1 = .ok (f i) := by
  rw [Action.run_bind]
  generalize (guarded code).run w = result at h
  obtain ⟨built, w'⟩ := result
  obtain rfl : built = .ok i := h
  rfl

/-! ### The states of a bracket -/

/-- A bracket, and the state in which a fiber evaluates it. -/
structure Bracket where
  /-- The type of its failures. -/
  type : ErrorType
  /-- What the fiber still has to do afterwards. -/
  base : RunState
  /-- The acquisition. -/
  acquire : Effect type
  /-- The use of what has been acquired. -/
  use : Value → Action (Effect type)
  /-- The release of it, for the exit of the use. -/
  release : Value → Exit Value Value → Action (Effect type)

namespace Bracket

/-- The bracket as an effect. -/
def effect (b : Bracket) : Instruction := bracketExit b.acquire b.use b.release

/-- The fiber is going to evaluate the bracket. -/
def start (b : Bracket) : Standing := .active b.base (.eval b.effect)

/-- Inside of the region in which interruption is not allowed. -/
def masked (b : Bracket) : RunState := b.base.enterStatus false

/-- The use, with the interrupt status of the surroundings. -/
def restored (b : Bracket) (used : Effect b.type) : Effect b.type :=
  Restore.apply ⟨b.base.interruptible⟩ used

/-- What follows the acquisition. -/
def useIt (b : Bracket) (held : Value) : Action (Effect b.type) := do
  let used ← guarded (b.use held)
  pure (((b.restored used).result : Effect b.type).chainAs (settleUse held b.release))

/-- While the resource is being acquired. -/
def acquiring (b : Bracket) : RunState := b.masked.push (.chain b.useIt)

/-- While the release is held, to be called with the exit of the use. -/
def holding (b : Bracket) (held : Value) : RunState :=
  b.masked.push (.chain (expecting (settleUse held b.release)))

/-- The continuation that turns an outcome into a value. -/
def resultFrame (type : ErrorType) : Frame :=
  .fold (fun h => pure (give (Exit.halt (h.untag type) : Exit Value Value) : Effect type))
    (fun v => pure (give (Exit.done v : Exit Value Value) : Effect type)) (type == type)

/-- While the resource is being used. -/
def inUse (b : Bracket) (held : Value) : RunState := (b.holding held).push (resultFrame b.type)

/-- While the exit of the release is to be merged with that of the use. -/
def merging (b : Bracket) (x : Exit Value Value) : RunState :=
  b.masked.push (.chain (expecting fun released : Exit Value Value =>
    (pure (ofExit (x.withFinalizer released)) : Action (Effect b.type))))

/-- While the resource is being released. -/
def releasing (b : Bracket) (x : Exit Value Value) : RunState :=
  (b.merging x).push (resultFrame b.type)

/-- The standings of a fiber while it evaluates the bracket. -/
def Within (b : Bracket) : Standing → Prop := Inside (fun _ => True) b.base

/-- A part of an evaluation of the bracket. -/
def Part (b : Bracket) (fiber : FiberId) : Standing → List Event → Standing → Prop :=
  Course fiber b.Within

end Bracket

/-- A value is handed to the continuation on top of a state. -/
def Event.HandsTo (run : RunState) (e : Event) : Prop := ∃ w v, e = .iterated w run (.value v)

/-- No interruption has an effect, unless an interruptible region is entered. -/
def Uncut (fiber : FiberId) (es : List Event) : Prop :=
  (∀ e ∈ es, e.entered? ≠ some true) → ∀ e ∈ es, ¬ e.IsCut fiber

namespace Uncut

variable {fiber : FiberId} {es fs : List Event}

theorem append (h : Uncut fiber es) (h' : Uncut fiber fs) : Uncut fiber (es ++ fs) := by
  intro henter e he
  rcases List.mem_append.mp he with hmem | hmem
  · exact h (fun e he => henter e (List.mem_append_left _ he)) e hmem
  · exact h' (fun e he => henter e (List.mem_append_right _ he)) e hmem

theorem of_chores {a b : Standing} {chores : List (RunState × Step)}
    (hchores : Chores fiber a chores b) (h : OfChores chores es) : Uncut fiber es := by
  intro _ e he
  obtain ⟨w, run, step, hmem, rfl⟩ := h e he
  have hrun : run.interruptible = false := hchores.uninterruptible _ hmem
  simp [Event.IsCut, World.mustStop, hrun]

end Uncut

namespace Bracket

/-- The release is not called. -/
def Quiet (b : Bracket) (es : List Event) : Prop := ∀ e ∈ es, ∀ held, ¬ e.HandsTo (b.holding held)

/-- No value is handed to a continuation of the bracket itself. -/
def Idle (b : Bracket) (es : List Event) : Prop :=
  ∀ (w : World) (run : RunState) (v : Value), .iterated w run (.value v) ∈ es →
    b.base.stack.length + 2 < run.stack.length

/-! ### Stages -/

/-- The use of the resource, from its acquisition to the moment at which its exit is handed
to the release; it has settled with `o`. -/
inductive Uses (b : Bracket) (fiber : FiberId) (held : Value) : List Event → Outcome → Prop where
  | intro {w : World} {begins during settles : List Event} {used : Effect b.type} {o : Outcome} :
      ((guarded (b.use held)).run w).1 = .ok used →
      b.Part fiber (.handed b.acquiring (.done held))
        (.iterated w b.acquiring (.value held) :: begins)
        (.active (b.inUse held) (.eval (b.restored used))) →
      Course fiber (Inside (fun _ => True) (b.inUse held))
        (.active (b.inUse held) (.eval (b.restored used))) during (.handed (b.inUse held) o) →
      b.Part fiber (.handed (b.inUse held) o) settles
        (.active (b.holding held) (.value (.exit (o.untag b.type)))) →
      Uses b fiber held (.iterated w b.acquiring (.value held) :: begins ++ during ++ settles) o

/-- The release of the resource for the exit `x` of its use, from the moment at which it has
been built to the end of the bracket; it has settled with `o`. -/
inductive Releases (b : Bracket) (fiber : FiberId) (x : Exit Value Value)
    (finalizer : Effect b.type) : List Event → Outcome → Prop where
  | intro {begins during settles : List Event} {o : Outcome} :
      b.Part fiber (.active b.masked (.eval (finishWith x finalizer))) begins
        (.active (b.releasing x) (.eval finalizer)) →
      Course fiber (Inside (fun _ => True) (b.releasing x))
        (.active (b.releasing x) (.eval finalizer)) during (.handed (b.releasing x) o) →
      b.Part fiber (.handed (b.releasing x) o) settles
        (.handed b.base ((x.withFinalizer (o.untag b.type)).tag b.type)) →
      Releases b fiber x finalizer (begins ++ during ++ settles) o

/-- How far an evaluation of a bracket has come after some events. -/
inductive Stage (b : Bracket) (fiber : FiberId) : List Event → Standing → Prop where
  /-- The acquisition has not settled. -/
  | entering {es : List Event} {a : Standing} :
      b.Part fiber b.start es a → b.Within a → (∀ o, a ≠ .handed b.acquiring o) →
      (∀ e ∈ es, ¬ e.HandsTo b.acquiring) → b.Quiet es → Stage b fiber es a
  /-- An interruption has been applied before the acquisition began. -/
  | stopped {es : List Event} {source : FiberId} :
      b.Part fiber b.start es (.handed b.base (.halt (.of (.interrupt source)))) →
      (∀ e ∈ es, ¬ e.HandsTo b.acquiring) → b.Quiet es →
      Stage b fiber es (.handed b.base (.halt (.of (.interrupt source))))
  /-- The acquisition has failed, and the bracket fails with it or is going to. -/
  | failed {acquired rest : List Event} {h : Halt Failure} {a : Standing} :
      b.Part fiber b.start acquired (.handed b.acquiring (.halt h)) →
      b.Part fiber (.handed b.acquiring (.halt h)) rest a →
      b.Within a ∨ a = .handed b.base (.halt h) →
      (∀ e ∈ acquired ++ rest, ¬ e.HandsTo b.acquiring) → b.Quiet (acquired ++ rest) →
      Stage b fiber (acquired ++ rest) a
  /-- The resource is in use, and its release is owed. -/
  | owing {acquired rest : List Event} {held : Value} {a : Standing} :
      b.Part fiber b.start acquired (.handed b.acquiring (.done held)) →
      b.Part fiber (.handed b.acquiring (.done held)) rest a → b.Within a →
      b.Quiet (acquired ++ rest) → Stage b fiber (acquired ++ rest) a
  /-- The use has settled, and the release has been called with its exit. -/
  | releasing {acquired used rest : List Event} {held : Value} {o : Outcome} {w : World}
      {finalizer : Effect b.type} {a : Standing} :
      b.Part fiber b.start acquired (.handed b.acquiring (.done held)) →
      b.Uses fiber held used o →
      ((guarded (b.release held (o.untag b.type))).run w).1 = .ok finalizer →
      b.Part fiber (.active b.masked (.eval (finishWith (o.untag b.type) finalizer))) rest a →
      b.Within a → b.Quiet (acquired ++ used) → b.Quiet rest → Uncut fiber rest →
      Stage b fiber
        (acquired ++ used ++ .iterated w (b.holding held) (.value (.exit (o.untag b.type))) :: rest)
        a
  /-- The release has settled, with `o'`, and so has the bracket. -/
  | released {acquired used rest : List Event} {held : Value} {o o' : Outcome} {w : World}
      {finalizer : Effect b.type} :
      b.Part fiber b.start acquired (.handed b.acquiring (.done held)) →
      b.Uses fiber held used o →
      ((guarded (b.release held (o.untag b.type))).run w).1 = .ok finalizer →
      b.Releases fiber (o.untag b.type) finalizer rest o' →
      b.Quiet (acquired ++ used) → b.Quiet rest → Uncut fiber rest →
      Stage b fiber
        (acquired ++ used ++ .iterated w (b.holding held) (.value (.exit (o.untag b.type))) :: rest)
        (.handed b.base (((o.untag b.type).withFinalizer (o'.untag b.type)).tag b.type))

/-- A part of an evaluation stops within, or with the end of the bracket. -/
def Ends (b : Bracket) (a : Standing) : Prop := b.Within a ∨ ∃ o, a = .handed b.base o

/-! ### How high the states of a bracket are -/

section

variable (b : Bracket) (fiber : FiberId)

@[simp] theorem length_masked : b.masked.stack.length = b.base.stack.length + 1 := rfl

@[simp] theorem length_acquiring : b.acquiring.stack.length = b.base.stack.length + 2 := rfl

@[simp] theorem length_holding (held : Value) :
    (b.holding held).stack.length = b.base.stack.length + 2 := rfl

@[simp] theorem length_inUse (held : Value) :
    (b.inUse held).stack.length = b.base.stack.length + 3 := rfl

@[simp] theorem length_merging (x : Exit Value Value) :
    (b.merging x).stack.length = b.base.stack.length + 2 := rfl

@[simp] theorem length_releasing (x : Exit Value Value) :
    (b.releasing x).stack.length = b.base.stack.length + 3 := rfl

/-! ### What the chores of a bracket are -/

theorem chores_acquire : Chores fiber (.active b.masked (.eval (b.acquire.chain b.useIt)))
    [(b.masked, .eval (b.acquire.chain b.useIt))] (.active b.acquiring (.eval b.acquire)) :=
  .cons rfl (fun _ => rfl) .done

theorem chores_fail (h : Halt Failure) : Chores fiber (.handed b.acquiring (.halt h))
    [(b.acquiring, .halt h), (b.masked, .halt h)] (.handed b.base (.halt h)) :=
  .cons rfl (fun _ => rfl) <| .cons rfl (fun _ => rfl) .done

theorem chores_use (held : Value) (used : Effect b.type) :
    Chores fiber
      (.active b.masked (.eval (((b.restored used).result : Effect b.type).chainAs
        (settleUse held b.release))))
      [(b.masked, .eval (((b.restored used).result : Effect b.type).chainAs
        (settleUse held b.release))),
        (b.holding held, .eval ((b.restored used).result : Effect b.type))]
      (.active (b.inUse held) (.eval (b.restored used))) :=
  .cons rfl (fun _ => rfl) <| .cons rfl (fun _ => rfl) .done

theorem chores_result {run : RunState} (hrun : run.interruptible = false) (type : ErrorType)
    (o : Outcome) :
    Chores fiber (.handed (run.push (resultFrame type)) o)
      [(run.push (resultFrame type), .ofOutcome o),
        (run, .eval (give (o.untag type) : Effect type))]
      (.active run (.value (.exit (o.untag type)))) := by
  cases o with
  | done v => exact .cons hrun (fun _ => rfl) <| .cons hrun (fun _ => rfl) .done
  | halt h =>
    refine .cons hrun (fun w => ?_) <| .cons hrun (fun _ => rfl) .done
    have hstop : (run.push (resultFrame type)).stopsFor (w.pending fiber) = none := by
      change (if run.interruptible = true then _ else none) = none
      rw [hrun]
      rfl
    simp only [Step.plan, RunState.planHalt, RunState.push, resultFrame] at hstop ⊢
    rw [hstop]
    rfl

theorem chores_release (x : Exit Value Value) (finalizer : Effect b.type) :
    Chores fiber (.active b.masked (.eval (finishWith x finalizer)))
      [(b.masked, .eval (finishWith x finalizer)),
        (b.merging x, .eval (finalizer.result : Effect b.type))]
      (.active (b.releasing x) (.eval finalizer)) :=
  .cons rfl (fun _ => rfl) <| .cons rfl (fun _ => rfl) .done

theorem chores_merge (x r : Exit Value Value) :
    Chores fiber (.active (b.merging x) (.value (.exit r)))
      [(b.merging x, .value (.exit r)),
        (b.masked, .eval (ofExit (x.withFinalizer r) : Effect b.type)),
        (b.masked, .ofOutcome ((x.withFinalizer r).tag b.type))]
      (.handed b.base ((x.withFinalizer r).tag b.type)) := by
  refine .cons rfl (fun _ => rfl) <| .cons rfl (fun _ => rfl) ?_
  cases (x.withFinalizer r).tag b.type <;> exact .cons rfl (fun _ => rfl) .done

/-- What there is to do once the use has settled. -/
theorem chores_settle (held : Value) (o : Outcome) :
    Chores fiber (.handed (b.inUse held) o)
      [(b.inUse held, .ofOutcome o),
        (b.holding held, .eval (give (o.untag b.type) : Effect b.type))]
      (.active (b.holding held) (.value (.exit (o.untag b.type)))) :=
  chores_result fiber rfl b.type o

/-- What there is to do once the release has settled. -/
theorem chores_finish (x : Exit Value Value) (o : Outcome) :
    Chores fiber (.handed (b.releasing x) o)
      [(b.releasing x, .ofOutcome o),
        (b.merging x, .eval (give (o.untag b.type) : Effect b.type)),
        (b.merging x, .value (.exit (o.untag b.type))),
        (b.masked, .eval (ofExit (x.withFinalizer (o.untag b.type)) : Effect b.type)),
        (b.masked, .ofOutcome ((x.withFinalizer (o.untag b.type)).tag b.type))]
      (.handed b.base ((x.withFinalizer (o.untag b.type)).tag b.type)) :=
  (@chores_result fiber (b.merging x) rfl b.type o).append
    (b.chores_merge fiber x (o.untag b.type))

end

/-! ### Which continuations are which -/

variable {b : Bracket} {fiber : FiberId} {held : Value} {x : Exit Value Value}
  {es fs : List Event} {a c : Standing}

/-- The release is built with the merging of the exits to follow. -/
theorem run_settleUse {finalizer : Effect b.type} {w : World}
    (h : ((guarded (b.release held x)).run w).1 = .ok finalizer) :
    ((settleUse held b.release x).run w).1 = .ok (finishWith x finalizer) :=
  run_guarded_bind h fun finalizer => finishWith x finalizer

theorem run_useIt {used : Effect b.type} {w : World}
    (h : ((guarded (b.use held)).run w).1 = .ok used) :
    ((b.useIt held).run w).1 =
      .ok (((b.restored used).result : Effect b.type).chainAs (settleUse held b.release)) :=
  run_guarded_bind h fun used =>
    ((b.restored used).result : Effect b.type).chainAs (settleUse held b.release)

/-- What follows the acquisition does not release. -/
theorem acquiring_ne_holding (held : Value) : b.acquiring ≠ b.holding held := by
  intro heq
  have hstack : b.acquiring.stack = (b.holding held).stack := by rw [heq]
  obtain ⟨hframe, -⟩ := List.cons.inj hstack
  -- the one continuation goes on with any value, the other one only with an exit
  have hcode := congrFun (Frame.chain.inj hframe) .unit
  obtain ⟨used, hused⟩ := run_guarded (b.use .unit) default
  have hrun := run_useIt hused
  rw [hcode] at hrun
  cases hrun

theorem ne_holding_of_length {run : RunState}
    (hlen : run.stack.length ≠ b.base.stack.length + 2) (held : Value) : run ≠ b.holding held := by
  rintro rfl
  exact hlen (b.length_holding held)

/-- Nor does what follows the release. -/
theorem merging_ne_holding (x : Exit Value Value) (held : Value) :
    b.merging x ≠ b.holding held := by
  intro heq
  have hstack : (b.merging x).stack = (b.holding held).stack := by rw [heq]
  obtain ⟨hframe, -⟩ := List.cons.inj hstack
  have hcode := congrFun (Frame.chain.inj hframe) (.exit x)
  obtain ⟨finalizer, hfinalizer⟩ := run_guarded (b.release held x) default
  have hrun := run_settleUse hfinalizer
  have hcode' : settleUse held b.release x =
      (pure (ofExit (x.withFinalizer x)) : Action (Effect b.type)) := hcode.symm
  rw [hcode'] at hrun
  cases hrun

/-! ### Parts in which the release is not called -/

theorem Quiet.append (h : b.Quiet es) (h' : b.Quiet fs) : b.Quiet (es ++ fs) := by
  intro e he
  exact (List.mem_append.mp he).elim (h e) (h' e)

theorem quiet_of_chores {chores : List (RunState × Step)} (h : OfChores chores es)
    (hne : ∀ run v, (run, Step.value v) ∈ chores → ∀ held, run ≠ b.holding held) : b.Quiet es := by
  intro e he held hto
  obtain ⟨w, run, step, hmem, rfl⟩ := h e he
  obtain ⟨w', v, heq⟩ := hto
  cases heq
  exact hne _ _ hmem held rfl

theorem Idle.quiet (h : b.Idle es) : b.Quiet es := by
  rintro e he held ⟨w, v, rfl⟩
  exact absurd (h _ _ _ he) (by simp)

theorem Idle.not_handsTo_acquiring (h : b.Idle es) : ∀ e ∈ es, ¬ e.HandsTo b.acquiring := by
  rintro e he ⟨w, v, rfl⟩
  exact absurd (h _ _ _ he) (by simp)

theorem Idle.append (h : b.Idle es) (h' : b.Idle fs) : b.Idle (es ++ fs) := by
  intro w run v he
  exact (List.mem_append.mp he).elim (h w run v) (h' w run v)

theorem idle_of_chores {chores : List (RunState × Step)} (h : OfChores chores es)
    (hne : ∀ run v, (run, Step.value v) ∉ chores) : b.Idle es := by
  intro w run v he
  obtain ⟨w', run', step, hmem, heq⟩ := h _ he
  cases heq
  exact absurd hmem (hne _ _)

/-- High above the bracket nothing is handed to what it has put on the stack. -/
theorem idle_of_inside {run : RunState} {p : Bool → Prop}
    (hlen : b.base.stack.length + 2 ≤ run.stack.length)
    (h : Course fiber (Inside p run) a es c) : b.Idle es :=
  fun _ _ _ he => Nat.lt_of_le_of_lt hlen (h.length_lt_of_value he)

/-- A part of an evaluation that stops above the bracket is still within. -/
theorem within_of_ends {run : RunState} {step : Step} (hlt : b.base.stack.length < run.stack.length)
    (hends : b.Ends (.active run step)) : b.Within (.active run step) := by
  rcases hends with hwithin | ⟨o, heq⟩
  · exact hwithin
  · have hrun : run = b.base := (Standing.active.inj heq).1
    rw [hrun] at hlt
    omega

theorem above_holding (b : Bracket) (held : Value) :
    RunState.Above (fun _ => True) b.base (b.holding held) := .chain _ (.status false trivial .base)

theorem above_acquiring (b : Bracket) : RunState.Above (fun _ => True) b.base b.acquiring :=
  .chain _ (.status false trivial .base)

theorem above_inUse (b : Bracket) (held : Value) :
    RunState.Above (fun _ => True) b.base (b.inUse held) := .fold _ _ _ (b.above_holding held)

theorem above_releasing (b : Bracket) (x : Exit Value Value) :
    RunState.Above (fun _ => True) b.base (b.releasing x) :=
  .fold _ _ _ (.chain _ (.status false trivial .base))

/-- An evaluation goes through the chores that come first, or stops in the midst of them; in
both cases it does not call the release, and nothing cuts it short. -/
theorem part_chores {chores : List (RunState × Step)} {d : Standing} (h : b.Part fiber a es c)
    (hchores : Chores fiber a chores d) (hends : b.Ends c)
    (hhigh : ∀ p ∈ chores, b.base.stack.length < p.1.stack.length)
    (hne : ∀ run v, (run, Step.value v) ∈ chores → ∀ held, run ≠ b.holding held) :
    (b.Quiet es ∧ Uncut fiber es ∧ b.Within c) ∨
      ∃ es₁ es₂, es = es₁ ++ es₂ ∧ OfChores chores es₁ ∧ b.Quiet es₁ ∧ Uncut fiber es₁ ∧
        b.Part fiber a es₁ d ∧ b.Part fiber d es₂ c := by
  rcases Course.split_chores h hchores with ⟨hes, run, step, hmem, rfl⟩ |
    ⟨es₁, es₂, rfl, hes, h₁, h₂⟩
  · exact Or.inl ⟨quiet_of_chores hes hne, .of_chores hchores hes,
      within_of_ends (hhigh _ hmem) hends⟩
  · exact Or.inr ⟨es₁, es₂, rfl, hes, quiet_of_chores hes hne, .of_chores hchores hes, h₁, h₂⟩

/-- A part of the evaluation high above the bracket does not call the release. -/
theorem part_inside {run : RunState} (h : b.Part fiber a es c) (ha : Inside (fun _ => True) run a)
    (habove : RunState.Above (fun _ => True) b.base run)
    (hlen : b.base.stack.length + 2 ≤ run.stack.length) :
    (b.Idle es ∧ b.Within c ∧ Course fiber (Inside (fun _ => True) run) a es c ∧
        Inside (fun _ => True) run c) ∨
      ∃ es₁ es₂ o, es = es₁ ++ es₂ ∧ b.Idle es₁ ∧
        Course fiber (Inside (fun _ => True) run) a es₁ (.handed run o) ∧
        b.Part fiber a es₁ (.handed run o) ∧ b.Part fiber (.handed run o) es₂ c := by
  rcases Course.split h ha with ⟨hcourse, hc⟩ | ⟨es₁, es₂, o, rfl, hcourse, h₁, h₂⟩
  · exact Or.inl ⟨idle_of_inside hlen hcourse, hc.weaken habove (by omega), hcourse, hc⟩
  · exact Or.inr ⟨es₁, es₂, o, rfl, idle_of_inside hlen hcourse, hcourse, h₁, h₂⟩

/-! ### From the call of the release on -/

/-- Once the release has been built, it settles before the bracket does, and nothing cuts it
short. -/
theorem part_release {finalizer : Effect b.type}
    (h : b.Part fiber (.active b.masked (.eval (finishWith x finalizer))) es a)
    (hends : b.Ends a) :
    b.Quiet es ∧ Uncut fiber es ∧ (b.Within a ∨ ∃ o, b.Releases fiber x finalizer es o ∧
      a = .handed b.base ((x.withFinalizer (o.untag b.type)).tag b.type)) := by
  -- the release is entered
  rcases part_chores h (b.chores_release fiber x finalizer) hends (by simp) (by simp) with
    ⟨hquiet, huncut, hwithin⟩ | ⟨begins, rest, rfl, -, hquiet₁, huncut₁, hbegins, hrest⟩
  · exact ⟨hquiet, huncut, Or.inl hwithin⟩
  -- it settles, without being cut short
  have hfalse : Inside (· = false) (b.releasing x) (.active (b.releasing x) (.eval finalizer)) :=
    ⟨.base, fun _ => rfl⟩
  rcases part_inside hrest ⟨.base, fun _ => rfl⟩ (b.above_releasing x)
      (by simp) with
    ⟨hidle, hwithin, hduring, -⟩ | ⟨during, rest, o, rfl, hidle, hduring, -, hrest⟩
  · exact ⟨hquiet₁.append hidle.quiet, huncut₁.append (hduring.not_isCut rfl hfalse), Or.inl hwithin⟩
  have huncut₂ : Uncut fiber during := hduring.not_isCut rfl hfalse
  -- and its exit is merged with that of the use
  have hstep : ∀ run v, (run, Step.value v) ∈
      [(b.releasing x, Step.ofOutcome o),
        (b.merging x, .eval (give (o.untag b.type) : Effect b.type)),
        (b.merging x, .value (.exit (o.untag b.type))),
        (b.masked, .eval (ofExit (x.withFinalizer (o.untag b.type)) : Effect b.type)),
        (b.masked, .ofOutcome ((x.withFinalizer (o.untag b.type)).tag b.type))] →
      ∀ held, run ≠ b.holding held := by
    intro run v hmem held
    simp only [List.mem_cons, Prod.mk.injEq, List.not_mem_nil, or_false] at hmem
    rcases hmem with ⟨rfl, -⟩ | ⟨rfl, -⟩ | ⟨rfl, -⟩ | ⟨rfl, -⟩ | ⟨rfl, -⟩
    · exact ne_holding_of_length (by simp) held
    · exact merging_ne_holding x held
    · exact merging_ne_holding x held
    · exact ne_holding_of_length (by simp) held
    · exact ne_holding_of_length (by simp) held
  rcases part_chores hrest (b.chores_finish fiber x o) hends (by simp) hstep with
    ⟨hquiet₃, huncut₃, hwithin⟩ | ⟨settles, rest, rfl, -, hquiet₃, huncut₃, hsettles, hrest⟩
  · exact ⟨hquiet₁.append (hidle.quiet.append hquiet₃), huncut₁.append (huncut₂.append huncut₃),
      Or.inl hwithin⟩
  obtain ⟨rfl, rfl⟩ := Course.of_handed hrest
  rw [List.append_nil, ← List.append_assoc]
  exact ⟨(hquiet₁.append hidle.quiet).append hquiet₃, (huncut₁.append huncut₂).append huncut₃,
    Or.inr ⟨o, .intro hbegins hduring hsettles, rfl⟩⟩

/-! ### From the acquisition on -/

/-- Once the resource has been acquired, it is in use until the release is called with the
exit of its use. -/
theorem part_use (h : b.Part fiber (.handed b.acquiring (.done held)) es a) (hends : b.Ends a) :
    (b.Quiet es ∧ b.Within a) ∨
      ∃ (used rest : List Event) (o : Outcome) (w : World) (finalizer : Effect b.type),
        es = used ++ .iterated w (b.holding held) (.value (.exit (o.untag b.type))) :: rest ∧
        b.Quiet used ∧ b.Uses fiber held used o ∧
        ((guarded (b.release held (o.untag b.type))).run w).1 = .ok finalizer ∧
        b.Part fiber (.active b.masked (.eval (finishWith (o.untag b.type) finalizer))) rest a := by
  -- the resource is handed to the code that builds its use
  rcases Course.of_uninterruptible h rfl with ⟨rfl, rfl⟩ | ⟨w, es, rfl, hbegin, hrest⟩
  · exact Or.inl ⟨by simp [Quiet], within_of_ends (by simp) hends⟩
  have hquiet₀ : b.Quiet [.iterated w b.acquiring (.value held)] := by
    intro e he held' ⟨w', v, heq⟩
    rw [List.mem_singleton.mp he] at heq
    exact acquiring_ne_holding held' (Event.iterated.inj heq).2.1
  obtain ⟨used, hused⟩ := run_guarded (b.use held) w
  have hafter : w.after fiber
      ((Step.ofOutcome (.done held)).plan (w.pending fiber) fiber b.acquiring) =
      .active b.masked (.eval (((b.restored used).result : Effect b.type).chainAs
        (settleUse held b.release))) :=
    congrArg (fun built => Standing.active b.masked (.ofBuilt built)) (run_useIt hused)
  rw [hafter] at hbegin hrest
  rcases part_chores hrest (b.chores_use fiber held used) hends (by simp) (by simp) with
    ⟨hquiet₁, -, hwithin⟩ | ⟨begins, rest, rfl, -, hquiet₁, -, hbegins, hrest⟩
  · exact Or.inl ⟨hquiet₀.append hquiet₁, hwithin⟩
  -- the use settles
  rcases part_inside hrest ⟨.base, fun _ => rfl⟩ (b.above_inUse held) (by simp) with
    ⟨hidle, hwithin, -⟩ | ⟨during, rest, o, rfl, hidle, hduring, -, hrest⟩
  · exact Or.inl ⟨hquiet₀.append (hquiet₁.append hidle.quiet), hwithin⟩
  have hne : ∀ run v, (run, Step.value v) ∈
      [(b.inUse held, Step.ofOutcome o),
        (b.holding held, .eval (give (o.untag b.type) : Effect b.type))] →
      ∀ held', run ≠ b.holding held' := by
    intro run v hmem held'
    simp only [List.mem_cons, Prod.mk.injEq, List.not_mem_nil, or_false, reduceCtorEq,
      and_false] at hmem
    rw [hmem.1]
    exact ne_holding_of_length (by simp) held'
  rcases part_chores hrest (b.chores_settle fiber held o) hends (by simp) hne with
    ⟨hquiet₂, -, hwithin⟩ | ⟨settles, rest, rfl, -, hquiet₂, -, hsettles, hrest⟩
  · exact Or.inl ⟨hquiet₀.append (hquiet₁.append (hidle.quiet.append hquiet₂)), hwithin⟩
  -- the release is called with its exit
  rcases Course.of_uninterruptible hrest rfl with ⟨rfl, rfl⟩ | ⟨w', es, rfl, -, hrest⟩
  · refine Or.inl ⟨?_, within_of_ends (by simp) hends⟩
    rw [List.append_nil]
    exact hquiet₀.append (hquiet₁.append (hidle.quiet.append hquiet₂))
  obtain ⟨finalizer, hfinalizer⟩ := run_guarded (b.release held (o.untag b.type)) w'
  have hafter' : w'.after fiber
      ((Step.value (.exit (o.untag b.type))).plan (w'.pending fiber) fiber (b.holding held)) =
      .active b.masked (.eval (finishWith (o.untag b.type) finalizer)) :=
    congrArg (fun built => Standing.active b.masked (.ofBuilt built)) (run_settleUse hfinalizer)
  rw [hafter'] at hrest
  refine Or.inr ⟨_, es, o, w', finalizer, ?_, ?_,
    .intro hused (Course.append hbegin hbegins) hduring hsettles, hfinalizer, hrest⟩
  · simp [Step.ofOutcome]
  · exact ((hquiet₀.append hquiet₁).append hidle.quiet).append hquiet₂

/-! ### From the start on -/

/-- The first iterations of a bracket: an interruption that is applied in them ends it. -/
theorem part_enter {i : Instruction} {d : Standing} (h : b.Part fiber (.active b.base (.eval i)) es a)
    (hafter : ∀ w : World, w.after fiber (b.base.planEval fiber i) = d) :
    (es = [] ∧ a = .active b.base (.eval i)) ∨
      (∃ w source, es = [.stopped w] ∧ a = .handed b.base (.halt (.of (.interrupt source)))) ∨
      ∃ w es', es = .iterated w b.base (.eval i) :: es' ∧
        b.Part fiber (.active b.base (.eval i)) [.iterated w b.base (.eval i)] d ∧
        b.Part fiber d es' a := by
  cases h with
  | rest => exact Or.inl ⟨rfl, rfl⟩
  | go hI hgoes hrest =>
    cases hgoes with
    | @stopped w _ _ _ _ =>
      -- the cancellation is handed to the surroundings of the bracket
      have hend : b.Part fiber (.handed b.base (.halt (.of (.interrupt (w.store.interruptor fiber)))))
        _ a := hrest
      obtain ⟨rfl, rfl⟩ := Course.of_handed hend
      exact Or.inr (Or.inl ⟨w, _, rfl, rfl⟩)
    | @iterated w _ _ hdivert =>
      have hd := hafter w
      have hone := @Goes.iterated fiber _ _ _ hdivert
      simp only [Step.plan, hd] at hone hrest
      exact Or.inr (Or.inr ⟨w, _, rfl, .one hI hone, hrest⟩)

/-- Chores without a value, at the beginning of a part. -/
theorem part_idle_chores {chores : List (RunState × Step)} {d : Standing}
    (h : b.Part fiber a es c) (hchores : Chores fiber a chores d) (hends : b.Ends c)
    (hhigh : ∀ p ∈ chores, b.base.stack.length < p.1.stack.length)
    (hvalue : ∀ run v, (run, Step.value v) ∉ chores) :
    (b.Idle es ∧ b.Within c ∧ ∃ run step, (run, step) ∈ chores ∧ c = .active run step) ∨
      ∃ es₁ es₂, es = es₁ ++ es₂ ∧ b.Idle es₁ ∧ b.Part fiber a es₁ d ∧ b.Part fiber d es₂ c := by
  rcases Course.split_chores h hchores with ⟨hes, run, step, hmem, rfl⟩ |
    ⟨es₁, es₂, rfl, hes, h₁, h₂⟩
  · exact Or.inl ⟨idle_of_chores hes hvalue, within_of_ends (hhigh _ hmem) hends, _, _, hmem, rfl⟩
  · exact Or.inr ⟨es₁, es₂, rfl, idle_of_chores hes hvalue, h₁, h₂⟩

/-- The acquisition settles, unless the evaluation stops before. -/
theorem part_acquire (h : b.Part fiber b.start es a) (hends : b.Ends a) :
    (b.Idle es ∧ b.Within a ∧ ∀ o, a ≠ .handed b.acquiring o) ∨
      (b.Idle es ∧ ∃ source, a = .handed b.base (.halt (.of (.interrupt source)))) ∨
      ∃ acquired rest o, es = acquired ++ rest ∧ b.Idle acquired ∧
        b.Part fiber b.start acquired (.handed b.acquiring o) ∧
        b.Part fiber (.handed b.acquiring o) rest a := by
  have hcode : ∀ {run i} o, Standing.active run (.eval i) ≠ .handed b.acquiring o := by
    intro run i o heq
    have hout := Step.isOutcome_ofOutcome o
    rw [← (Standing.active.inj heq).2] at hout
    cases hout
  -- the status is looked at, and then the region is entered
  rcases part_enter (d := .active b.base (.eval (.setInterruptible false (b.acquire.chain b.useIt))))
      h (fun _ => rfl) with
    ⟨rfl, rfl⟩ | ⟨w, source, rfl, rfl⟩ | ⟨w, es, rfl, hfirst, hrest⟩
  · exact Or.inl ⟨by simp [Idle], ⟨.base, fun _ => rfl⟩, hcode⟩
  · exact Or.inr (Or.inl ⟨by simp [Idle], source, rfl⟩)
  rcases part_enter (d := .active b.masked (.eval (b.acquire.chain b.useIt))) hrest
      (fun _ => rfl) with
    ⟨rfl, rfl⟩ | ⟨w', source, rfl, rfl⟩ | ⟨w', es, rfl, hsecond, hrest⟩
  · exact Or.inl ⟨by simp [Idle], ⟨.base, fun _ => rfl⟩, hcode⟩
  · exact Or.inr (Or.inl ⟨by simp [Idle], source, rfl⟩)
  have henter := Course.append hfirst hsecond
  rcases part_idle_chores hrest (b.chores_acquire fiber) hends (by simp) (by simp) with
    ⟨hidle₁, hwithin, run, step, hmem, rfl⟩ | ⟨begins, rest, rfl, hidle₁, hbegins, hrest⟩
  · obtain ⟨rfl, rfl⟩ := Prod.mk.inj (List.mem_singleton.mp hmem)
    exact Or.inl ⟨by simpa [Idle] using hidle₁, hwithin, hcode⟩
  -- the acquisition is inside of the region, and settles there
  rcases part_inside hrest ⟨.base, fun _ => rfl⟩ b.above_acquiring (by simp) with
    ⟨hidle₂, hwithin, -, hinside⟩ | ⟨during, rest, o, rfl, hidle₂, -, hduring, hrest⟩
  · refine Or.inl ⟨by simpa [Idle] using hidle₁.append hidle₂, hwithin, ?_⟩
    rintro o rfl
    have hout := hinside.2 rfl
    rw [Step.isOutcome_ofOutcome] at hout
    cases hout
  · refine Or.inr (Or.inr ⟨_, rest, o, ?_, ?_, henter.append (hbegins.append hduring), hrest⟩)
    · simp
    · simpa [Idle] using hidle₁.append hidle₂

/-- **Every evaluation of a bracket is at one of the stages.** -/
theorem stage (h : b.Part fiber b.start es a) (hends : b.Ends a) : b.Stage fiber es a := by
  rcases part_acquire h hends with
    ⟨hidle, hwithin, hne⟩ | ⟨hidle, source, rfl⟩ | ⟨acquired, rest, o, rfl, hidle, hacq, hrest⟩
  · exact .entering h hwithin hne hidle.not_handsTo_acquiring hidle.quiet
  · exact .stopped h hidle.not_handsTo_acquiring hidle.quiet
  cases o with
  | halt failure =>
    rcases part_idle_chores hrest (b.chores_fail fiber failure) hends (by simp) (by simp) with
      ⟨hidle', hwithin, -⟩ | ⟨fails, rest, rfl, hidle', hfails, hrest⟩
    · have hall := hidle.append hidle'
      exact .failed hacq hrest (Or.inl hwithin) hall.not_handsTo_acquiring hall.quiet
    · obtain ⟨rfl, rfl⟩ := Course.of_handed hrest
      have hall := hidle.append hidle'
      rw [List.append_nil]
      exact .failed hacq hfails (Or.inr rfl) hall.not_handsTo_acquiring hall.quiet
  | done held =>
    rcases part_use hrest hends with
      ⟨hquiet, hwithin⟩ | ⟨used, rest, o, w, finalizer, rfl, hquiet, huses, hfinalizer, hrest⟩
    · exact .owing hacq hrest hwithin (hidle.quiet.append hquiet)
    obtain ⟨hquiet', huncut, hend⟩ := part_release hrest hends
    have hbefore := hidle.quiet.append hquiet
    rw [← List.append_assoc]
    rcases hend with hwithin | ⟨o', hreleases, rfl⟩
    · exact .releasing hacq huses hfinalizer hrest hwithin hbefore hquiet' huncut
    · exact .released hacq huses hfinalizer hreleases hbefore hquiet' huncut

/-- A life that has come to a bracket is at one of the stages of its evaluation, or it has
left the evaluation when that had settled. -/
theorem exists_stage (h : Life fiber b.start es a) :
    ∃ es₁ es₂ c, es = es₁ ++ es₂ ∧ b.Stage fiber es₁ c ∧ Life fiber c es₂ a ∧
      ((es₂ = [] ∧ c = a ∧ b.Within a) ∨ ∃ o, c = .handed b.base o) := by
  rcases @Course.split b.base _ _ _ _ _ h ⟨.base, fun _ => rfl⟩ with
    ⟨hpart, hwithin⟩ | ⟨es₁, es₂, o, rfl, hpart, -, hrest⟩
  · exact ⟨es, [], a, (List.append_nil es).symm, stage hpart (Or.inl hwithin), .rest,
      Or.inl ⟨rfl, rfl, hwithin⟩⟩
  · exact ⟨es₁, es₂, _, rfl, stage hpart (Or.inr ⟨o, rfl⟩), hrest, Or.inr ⟨o, rfl⟩⟩

end Bracket

/-! ### Runs -/

namespace Workshop

/-- **In every run each evaluation of a bracket releases exactly once what it has acquired**:
it is at one of the stages, or it has left the last of them when the bracket settled.  A fiber
that has finished has left every bracket to which it had come. -/
theorem Run.bracketExit_releases_once {budget minted : Nat} {record : List (FiberId × Event)}
    {s : Workshop} (h : Run budget (init minted) record s) (fiber : FiberId) :
    (∃ es a, History s record fiber es a) ∧
      ∀ (b : Bracket) (before after : List Event) (a : Standing),
        History s record fiber (before ++ after) a →
        Life fiber .unborn before b.start → Life fiber b.start after a →
        ∃ es₁ es₂ c, after = es₁ ++ es₂ ∧ b.Stage fiber es₁ c ∧ Life fiber c es₂ a ∧
          ((es₂ = [] ∧ c = a ∧ b.Within a) ∨ ∃ o, c = .handed b.base o) ∧
          ((∃ o, a = .ended o) → ∃ o, c = .handed b.base o) := by
  refine ⟨h.history fiber, fun b before after a _ _ hlife => ?_⟩
  obtain ⟨es₁, es₂, c, hes, hstage, hrest, hend⟩ := Bracket.exists_stage hlife
  refine ⟨es₁, es₂, c, hes, hstage, hrest, hend, ?_⟩
  rintro ⟨o, rfl⟩
  exact hend.resolve_left fun ⟨_, _, hwithin⟩ => hwithin

/-- A bracket that hands out what it has acquired. -/
theorem Run.bracketExit_releases_once_done :
    ∃ (b : Bracket) (s : Workshop) (record : List (FiberId × Event)) (es₁ es₂ : List Event)
      (o : Outcome),
      Run 4 (init 0) record s ∧
      History s record ⟨1⟩ ([.started .unit true b.effect] ++ (es₁ ++ es₂))
        (.handed b.base (.done (.bool true))) ∧
      b.Stage ⟨1⟩ es₁ (.handed b.base o) := by
  let b : Bracket :=
    ⟨⟨"E"⟩, .start .unit true, succeed (.bool true), fun held => pure (succeed held),
      fun _ _ => pure unit⟩
  let w : World := (Machine.startRoot { budget := 4, world := .init 0 } b.effect .unit none).2.world
  let w₁ : World := { w with tasks := .empty }
  have hb : Instruction.Sequential b.effect :=
    sequential_bracketExit (.done _) (fun _ => .pure (.done _)) fun _ _ => .pure (.done _)
  have halone : w₁.Alone ⟨1⟩ := ⟨⟨rfl, by decide⟩, (World.alone_init 0 ⟨1⟩).vacant⟩
  have hbegin : Run 4 (init 0) [] ⟨w₁, [⟨⟨1⟩, b.base, .eval b.effect, 0⟩]⟩ :=
    .move (.start b.effect .unit none) (.move (.pick_first rfl) .rest)
  obtain ⟨es, used, hcourse, ⟨-, hrun⟩, -, hdoings⟩ :=
    (hb.follows ⟨1⟩ b.base).undisturbed none 4 (halone.undisturbed _) rfl 0
  have hwhole := hbegin.append hrun
  have hlife : Life ⟨1⟩ b.start es (.handed b.base (.done (.bool true))) := hcourse.life
  have hstart : Life ⟨1⟩ .unborn [.started .unit true b.effect] b.start :=
    .one trivial (.started .unit true b.effect)
  have hhistory : History
      ⟨((b.effect.evaluation ⟨1⟩ .unit true).run w₁).2.2, [⟨⟨1⟩, b.base, .value (.bool true), used⟩]⟩
      (es.map (⟨1⟩, ·)) ⟨1⟩ ([.started .unit true b.effect] ++ es)
      (.handed b.base (.done (.bool true))) := by
    refine ⟨hstart.append hlife, ⟨rfl, rfl⟩, ?_⟩
    rw [eventsOf_map_self]
    exact List.filter_eq_self.mpr hdoings
  obtain ⟨es₁, es₂, c, rfl, hstage, -, hend, -⟩ :=
    (Run.bracketExit_releases_once hwhole ⟨1⟩).2 b _ es _ hhistory hstart hlife
  rcases hend with ⟨-, rfl, hwithin⟩ | ⟨o, rfl⟩
  · cases hwithin.2 rfl
  · exact ⟨b, _, _, es₁, es₂, o, hwhole, hhistory, hstage⟩

end Workshop

end Fibers
