import Fibers.Effect.Region
import Fibers.Proofs.Iteration

/-!
# What sequential instructions amount to

An instruction that waits for nobody and has nothing to do with other fibers can be
evaluated by recursion on it: the environment and the interrupt status are handed down to
its parts, a panic in code of the program becomes a defect, and an outcome is handed to what
follows.  There is no stack and no budget.

What code of the program does depends on the world in which it is called, and other fibers
may change the world between two calls.  So an evaluation is a tree: it has ended, or it
calls some code, with a branch for each world in which it may do so.

## Main definitions

* `Evaluation`, `Evaluation.andThen` — evaluations, one after the other.
* `Instruction.evaluation` — **the evaluation of an instruction, by recursion on it.**
* `Evaluation.Makes` — the calls of an evaluation in the worlds that it finds.
* `Evaluation.run` — an evaluation while nobody else changes the world.
* `Instruction.Sequential` — the instructions whose evaluation this is.

## Main results

* `Effect.sequential_bracketExit` and its neighbours — the effects put together from
  sequential ones are sequential.
-/

namespace Fibers

/-! ### Evaluations -/

/-- The evaluation of an instruction. -/
inductive Evaluation where
  /-- It has ended. -/
  | ended (outcome : Outcome)
  /-- It calls code of the program; what follows depends on the world that it finds. -/
  | call (code : Callback) (next : World → Evaluation)

/-- The world that code of the program leaves. -/
def Callback.leaves : Callback → World → World
  | .build code, w => (code.run w).2
  | .translate code, w => (code.run w).2
  | .compute code, w => (code.run w).2
  -- what the runtime does with the code is more than a call of it
  | .update _, w | .register _, w | .release _, w | .releaseLease _, w => w

namespace Evaluation

/-- One evaluation, and another one for the outcome of it. -/
def andThen : Evaluation → (Outcome → Evaluation) → Evaluation
  | .ended outcome, next => next outcome
  | .call code follow, next => .call code fun w => (follow w).andThen next

/-- What follows code that computes something. -/
def ofResult {α : Type} (code : Action α) (next : α → Outcome) (w : World) : Evaluation :=
  match (code.run w).1 with
  | .ok x => .ended (next x)
  | .error d => .ended (.die d)

/-- The calls of an evaluation while nobody else changes the world, its outcome and the world
that it leaves. -/
def run : Evaluation → World → List Callback × Outcome × World
  | .ended outcome, w => ([], outcome, w)
  | .call code next, w =>
    let (codes, outcome, w) := (next w).run (code.leaves w)
    (code :: codes, outcome, w)

/-- `Makes e calls e'` says that the evaluation `e` makes the given calls, each in the world
with which it stands, and that `e'` is left of it. -/
inductive Makes : Evaluation → List (World × Callback) → Evaluation → Prop where
  /-- It makes no call. -/
  | rest {e : Evaluation} : Makes e [] e
  /-- It makes one, and then others. -/
  | call {code : Callback} {next : World → Evaluation} {w : World}
      {calls : List (World × Callback)} {e : Evaluation} :
      Makes (next w) calls e → Makes (.call code next) ((w, code) :: calls) e

@[simp] theorem andThen_ended_right (e : Evaluation) : e.andThen .ended = e := by
  induction e with
  | ended outcome => rfl
  | call code next ih => simp [andThen, ih]

theorem Makes.eq_of_nil {e e' : Evaluation} (h : e.Makes [] e') : e = e' := by
  cases h
  rfl

theorem Makes.andThen {e e' : Evaluation} {calls : List (World × Callback)}
    (h : e.Makes calls e') (next : Outcome → Evaluation) :
    (e.andThen next).Makes calls (e'.andThen next) := by
  induction h with
  | rest => exact .rest
  | call _ ih => exact .call ih

theorem Makes.append {e e' e'' : Evaluation} {calls calls' : List (World × Callback)}
    (h : e.Makes calls e') (h' : e'.Makes calls' e'') : e.Makes (calls ++ calls') e'' := by
  induction h with
  | rest => exact h'
  | call _ ih => exact .call (ih h')

/-- What an evaluation calls and how it ends is settled by the worlds that it finds. -/
theorem Makes.unique {e : Evaluation} {worlds : List World} {calls calls' : List (World × Callback)}
    {o o' : Outcome} (h : e.Makes calls (.ended o)) (h' : e.Makes calls' (.ended o'))
    (hcalls : calls.map Prod.fst <+: worlds) (hcalls' : calls'.map Prod.fst <+: worlds) :
    calls = calls' ∧ o = o' := by
  -- the worlds of the later calls are the rest of the list
  induction e generalizing worlds calls calls' with
  | ended outcome =>
    cases h
    cases h'
    exact ⟨rfl, rfl⟩
  | call code next ih =>
    cases h with
    | @call _ _ w calls _ h =>
      cases h' with
      | @call _ _ w' calls' _ h' =>
        cases worlds with
        | nil => simp at hcalls
        | cons v worlds =>
          obtain ⟨hw, hrest⟩ := List.cons_prefix_cons.mp hcalls
          obtain ⟨hw', hrest'⟩ := List.cons_prefix_cons.mp hcalls'
          obtain rfl : w = w' := hw.trans hw'.symm
          obtain ⟨rfl, rfl⟩ := ih w h h' hrest hrest'
          exact ⟨rfl, rfl⟩

end Evaluation

/-! ### The evaluation of an instruction -/

mutual

/-- The evaluation of a sequential instruction, by a fiber in an environment and with an
interrupt status. -/
def Instruction.evaluation (fiber : FiberId) (environment : Value) (allowed : Bool) :
    Instruction → Evaluation
  | .done outcome => .ended outcome
  | .sync action => .call (.compute action) (.ofResult action id)
  | .chain first next =>
    (first.evaluation fiber environment allowed).andThen fun
      | .done v => .call (.build (next v)) (built fiber environment allowed (next v))
      | .halt h => .ended (.halt h)
  | .fold first onHalt onDone _ =>
    (first.evaluation fiber environment allowed).andThen fun
      | .done v => .call (.build (onDone v)) (built fiber environment allowed (onDone v))
      | .halt h => .call (.build (onHalt h)) (built fiber environment allowed (onHalt h))
  | .mapError first source target f =>
    (first.evaluation fiber environment allowed).andThen fun
      | .done v => .ended (.done v)
      | .halt h =>
        .call (.translate (h.translate source target f))
          (.ofResult (h.translate source target f) .halt)
  | .suspend next => .call (.build next) (built fiber environment allowed next)
  | .access next =>
    .call (.build (next environment)) (built fiber environment allowed (next environment))
  | .provide inner body => body.evaluation fiber inner allowed
  | .setInterruptible inner body => body.evaluation fiber environment inner
  | .interruptStatus next =>
    .call (.build (next allowed)) (built fiber environment allowed (next allowed))
  | .descriptor next => .call (.build (next fiber)) (built fiber environment allowed (next fiber))
  | .yield => .ended (.done .unit)
  -- the others are not sequential
  | _ => .ended (.done .unit)
termination_by structural i => i

/-- The evaluation of what code of the program builds. -/
def built (fiber : FiberId) (environment : Value) (allowed : Bool) :
    Action Instruction → World → Evaluation
  | .done i, _ => i.evaluation fiber environment allowed
  | .panic d, _ => .ended (.die d)
  | .perform op next, w =>
    built fiber environment allowed (next (w.perform op).1) (w.perform op).2
termination_by structural code => code

end

/-- What code builds is evaluated, and a panic of it is a defect. -/
theorem built_eq (fiber : FiberId) (environment : Value) (allowed : Bool)
    (code : Action Instruction) (w : World) :
    built fiber environment allowed code w =
      match (code.run w).1 with
      | .ok i => i.evaluation fiber environment allowed
      | .error d => .ended (.die d) := by
  induction code generalizing w with
  | done i => rfl
  | panic d => rfl
  | perform op next ih => exact ih _ _

/-! ### Sequential instructions -/

/-- Whatever the code builds, in whatever world, has the property. -/
def Action.Builds (p : Instruction → Prop) (code : Action Instruction) : Prop :=
  ∀ w i, (code.run w).1 = .ok i → p i

/-- The instructions that wait for nobody and have nothing to do with other fibers. -/
inductive Instruction.Sequential : Instruction → Prop where
  | done (outcome : Outcome) : Sequential (.done outcome)
  | sync (action : Action Outcome) : Sequential (.sync action)
  | chain {first : Instruction} {next : Value → Action Instruction} :
      Sequential first → (∀ v, (next v).Builds Sequential) → Sequential (.chain first next)
  | fold {first : Instruction} {onHalt : Halt Failure → Action Instruction}
      {onDone : Value → Action Instruction} (sameError : Bool) :
      Sequential first → (∀ h, (onHalt h).Builds Sequential) →
      (∀ v, (onDone v).Builds Sequential) → Sequential (.fold first onHalt onDone sameError)
  | mapError {first : Instruction} (source target : ErrorType) (f : Value → Action Value) :
      Sequential first → Sequential (.mapError first source target f)
  | suspend {next : Action Instruction} : next.Builds Sequential → Sequential (.suspend next)
  | access {next : Value → Action Instruction} :
      (∀ v, (next v).Builds Sequential) → Sequential (.access next)
  | provide (environment : Value) {body : Instruction} :
      Sequential body → Sequential (.provide environment body)
  | setInterruptible (allowed : Bool) {body : Instruction} :
      Sequential body → Sequential (.setInterruptible allowed body)
  | interruptStatus {next : Bool → Action Instruction} :
      (∀ allowed, (next allowed).Builds Sequential) → Sequential (.interruptStatus next)
  | descriptor {next : FiberId → Action Instruction} :
      (∀ fiber, (next fiber).Builds Sequential) → Sequential (.descriptor next)
  | yield : Sequential .yield

/-! ### Code that builds sequential instructions -/

namespace Action.Builds

variable {p : Instruction → Prop} {α : Type}

theorem pure {i : Instruction} (h : p i) : Builds p (Pure.pure i) := by
  rintro w j hj
  obtain rfl : i = j := Except.ok.inj hj
  exact h

theorem bind {code : Action α} {f : α → Action Instruction} (h : ∀ x, (f x).Builds p) :
    Builds p (code >>= f) := by
  intro w i hi
  rw [Action.run_bind] at hi
  generalize code.run w = result at hi
  obtain ⟨_ | x, w'⟩ := result
  · cases hi
  · exact h x w' i hi

/-- What is made of an instruction that code builds. -/
theorem andThen {q : Instruction → Prop} {code : Action Instruction}
    {f : Instruction → Action Instruction} (h : code.Builds q) (hf : ∀ i, q i → (f i).Builds p) :
    Builds p (code >>= f) := by
  intro w i hi
  rw [Action.run_bind] at hi
  cases hrun : code.run w with
  | mk built w' =>
    rw [hrun] at hi
    cases built with
    | error d => cases hi
    | ok j => exact hf j (h w j (by rw [hrun])) w' i hi

/-- What takes the place of a panic. -/
theorem recover {code : Action Instruction} {handler : Defect → Instruction} (h : code.Builds p)
    (hhandler : ∀ d, p (handler d)) : Builds p (code.recover handler) := by
  intro w i hi
  rw [Action.run_recover] at hi
  cases hrun : (code.run w).1 with
  | ok j =>
    rw [hrun] at hi
    obtain rfl : j = i := Except.ok.inj hi
    exact h w j hrun
  | error d =>
    rw [hrun] at hi
    obtain rfl : handler d = i := Except.ok.inj hi
    exact hhandler d

/-- What code computes, as a part of an instruction. -/
theorem map {code : Action α} {f : α → Instruction} (h : ∀ x, p (f x)) :
    Builds p (code >>= fun x => Pure.pure (f x)) := bind fun x => pure (h x)

end Action.Builds

namespace Effect

open Instruction

variable {ε ε' : ErrorType} {e : Effect ε}

theorem builds_guarded {code : Action (Effect ε)} (h : Action.Builds Sequential code) :
    Action.Builds Sequential (guarded code) := .recover h fun _ => .done _

theorem sequential_once (mark : Nat) (he : Sequential e) : Sequential (once mark e) := by
  refine .suspend (.bind fun isFirst => ?_)
  split
  · exact .pure he
  · exact .pure (.done _)

/-! ### Recovery -/

theorem sequential_foldHalt {onHalt : Halt Value → Action (Effect ε')}
    {onDone : Value → Action (Effect ε')} (he : Sequential e)
    (hhalt : ∀ h, (onHalt h).Builds Sequential) (hdone : ∀ v, (onDone v).Builds Sequential) :
    Sequential (e.foldHalt onHalt onDone) :=
  .fold _ he (fun h => hhalt (h.untag ε)) hdone

theorem sequential_catchHalt {handler : Halt Value → Action (Effect ε')} (he : Sequential e)
    (h : ∀ halt, (handler halt).Builds Sequential) : Sequential (e.catchHalt handler) :=
  sequential_foldHalt he h fun _ => .pure (.done _)

theorem sequential_result (he : Sequential e) : Sequential (e.result : Effect ε') :=
  sequential_foldHalt he (fun _ => .pure (.done _)) fun _ => .pure (.done _)

theorem sequential_foldFailure {onFail onDone : Value → Action (Effect ε')} (he : Sequential e)
    (hfail : ∀ v, (onFail v).Builds Sequential) (hdone : ∀ v, (onDone v).Builds Sequential) :
    Sequential (e.foldFailure onFail onDone) := by
  refine .fold _ he (fun h => ?_) hdone
  unfold recovering
  split
  · split
    · exact hfail _
    · exact .pure (.done _)
  · exact .pure (.done _)

theorem sequential_catchFailure {handler : Value → Action (Effect ε')} (he : Sequential e)
    (h : ∀ v, (handler v).Builds Sequential) : Sequential (e.catchFailure handler) :=
  sequential_foldFailure he h fun _ => .pure (.done _)

theorem sequential_fold {onFail onDone : Value → Action Value} (he : Sequential e) :
    Sequential (e.fold onFail onDone : Effect ε') :=
  sequential_foldFailure he (fun _ => .map fun _ => .done _) fun _ => .map fun _ => .done _

theorem sequential_either (he : Sequential e) : Sequential (e.either : Effect ε') :=
  sequential_fold he

/-! ### Regions -/

theorem sequential_access (f : Value → Action Value) : Sequential (access f : Effect ε) :=
  .access fun _ => .map fun _ => .done _

theorem sequential_provideSome (f : Value → Action Value) (he : Sequential e) :
    Sequential (provideSome f e) := .access fun _ => .map fun _ => .provide _ he

theorem sequential_mask {body : Restore → Action (Effect ε)}
    (h : ∀ restore, (body restore).Builds Sequential) : Sequential (mask body) :=
  .interruptStatus fun allowed =>
    .andThen (h ⟨allowed⟩) fun _ hbody => .pure (.setInterruptible _ hbody)

theorem sequential_restore (restore : Restore) (he : Sequential e) :
    Sequential (restore.apply e) := .setInterruptible _ he

theorem sequential_chainAs {α : Type} [Carried α] {next : α → Action (Effect ε)}
    (he : Sequential e) (h : ∀ a, (next a).Builds Sequential) : Sequential (e.chainAs next) := by
  refine .chain he fun v => ?_
  unfold expecting
  split
  · exact h _
  · exact .pure (.done _)

theorem sequential_finishWith (x : Exit Value Value) (he : Sequential e) :
    Sequential (finishWith x e) :=
  sequential_chainAs (sequential_result he) fun _ => .pure (.done _)

/-- **A bracket of sequential effects is sequential.** -/
theorem sequential_bracketExit {use : Value → Action (Effect ε)}
    {release : Value → Exit Value Value → Action (Effect ε)} (he : Sequential e)
    (huse : ∀ v, (use v).Builds Sequential) (hrelease : ∀ v x, (release v x).Builds Sequential) :
    Sequential (bracketExit e use release) := by
  refine sequential_mask fun restore => .pure (.chain he fun held => ?_)
  refine .andThen (builds_guarded (huse held)) fun used hused => .pure ?_
  refine sequential_chainAs (sequential_result (sequential_restore restore hused)) fun x => ?_
  exact .andThen (builds_guarded (hrelease held x)) fun _ hfinalizer =>
    .pure (sequential_finishWith x hfinalizer)

end Effect

end Fibers
