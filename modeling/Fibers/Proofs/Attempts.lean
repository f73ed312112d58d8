import Fibers.Effect.Retry
import Fibers.Proofs.Delays
import Fibers.Proofs.Routine

/-!
# How an effect is tried again

There are four ways to try an effect again: a number of times, as long as another effect says
so, as long as a test says so, and as a policy says, which puts delays between the attempts.
They are described by folds, loops and suspended effects.  What a fiber comes to that evaluates
such a description is the same for all of them, and this is told here by points: an attempt is
going to be made, it has ended, it is being decided whether another one follows, the fiber
sleeps, or it has finished trying.

Three things are left to others: the attempt itself, the effect that decides, and the sleep.
From every other point the fiber comes to the next one by a routine, whatever worlds it finds,
except that a test of a failure is run in the world in which the failure is looked at.

What waits for an attempt are the continuations that look at its exit.  They are left before
the next one begins, so attempts do not pile up.

## Main definitions

* `Retry`, `Retry.Rule`, `Retry.effect` — what is tried, where, and how often.
* `Retry.Point`, `Retry.standing` — how far a retry has come, and how the fiber stands then.
* `Retry.judge`, `Retry.decided`, `Retry.next?` — what follows on the end of an attempt, on a
  decision, and on every point that the fiber leaves by itself.

## Main results

* `Retry.length_inner_le` — **no attempt begins with more continuations than the first one.**
* `Retry.routine_round`, `Retry.routine_value`, `Retry.routine_judge`, `Retry.routine_decided`,
  `Retry.routine_woken` — the routines between the points.
-/

namespace Fibers

open Effect

/-! ### Counting in words -/

/-- A policy counts attempts in words, and the words do not overflow. -/
theorem toNat_ofNat_of_le {k : Nat} {limit : UInt32} (h : k ≤ limit.toNat) :
    (UInt32.ofNat k).toNat = k := by
  have hlimit := limit.toNat_lt
  rw [UInt32.toNat_ofNat']
  exact Nat.mod_eq_of_lt (by omega)

/-- A policy has no delay for the last attempt that it allows. -/
theorem Backoff.delay?_eq_none_iff_of_le {policy : Backoff} {k : Nat}
    (h : k ≤ policy.maxRetries.toNat) :
    policy.delay? (.ofNat k) = none ↔ k = policy.maxRetries.toNat := by
  rw [delay?_eq_none_iff, UInt32.le_iff_toNat_le, toNat_ofNat_of_le h]
  omega

/-! ### Retries -/

/-- The leftmost expected failure of the primary cause of an exit. -/
def Exit.firstFailure? (x : Exit Value Value) : Option Value := x.cause?.bind Cause.firstFailure

/-- When a failed attempt is followed by another one. -/
inductive Retry.Rule (ε : ErrorType) where
  /-- The given number of times at most. -/
  | times (n : Nat)
  /-- As long as an effect made from the failure says so. -/
  | asking (test : Value → Action (Effect ε))
  /-- As long as a test of the failure says so. -/
  | testing (test : Value → Action Bool)
  /-- As a policy says, as long as a test of the failure says so. -/
  | following (policy : Backoff) (test : Value → Action Bool)

/-- An effect that is tried again, and the state in which a fiber does so. -/
structure Retry where
  /-- The type of its failures. -/
  type : ErrorType
  /-- What the fiber still has to do afterwards. -/
  base : RunState
  /-- What is tried. -/
  attempt : Effect type
  /-- When it is tried again. -/
  rule : Retry.Rule type

namespace Retry

variable (r : Retry)

/-- The effect that tries again as the rule says. -/
def effect : Effect r.type :=
  match r.rule with
  | .times n => r.attempt.retryN n
  | .asking test => r.attempt.retryWhileM test
  | .testing test => r.attempt.retryWhile test
  | .following policy test => r.attempt.retryPolicy policy test

/-- What is evaluated for the attempt with a number, counted from zero, and all that follow it. -/
def round (k : Nat) : Effect r.type :=
  match r.rule with
  | .times n => r.attempt.retryN (n - k)
  | .asking test => r.attempt.retryWhileM test
  | .testing test => r.attempt.retryWhile test
  | .following policy test =>
    retryFrom policy test r.attempt (.ofNat k) (policy.maxRetries.toNat - k)

/-- How many attempts may follow the first one, if that is limited. -/
def limit? : Option Nat :=
  match r.rule with
  | .times n => some n
  | .asking _ | .testing _ => none
  | .following policy _ => some policy.maxRetries.toNat

/-- Whether the rule is carried out by a loop. -/
def inLoop : Bool :=
  match r.rule with
  | .asking _ | .testing _ => true
  | .times _ | .following _ _ => false

/-- What is built of the failure of the attempt with a number. -/
def handler (k : Nat) (h : Halt Value) : Action (Effect r.type) :=
  match r.rule with
  | .times _ => pure (if h.cause.isFailure then suspend (pure (r.round (k + 1))) else halt h)
  | .asking test => decideRetry test h
  | .testing test => decideRetry (fun failure => do
      let again ← test failure
      pure (give again)) h
  | .following policy test => do
    let again ← retryable test h.cause
    match policy.delay? (.ofNat k) with
    | some delay =>
      if again then pure ((sleep delay.toNat).zipRight (suspend (pure (r.round (k + 1)))))
      else pure (halt h)
    | none => pure (halt h)

/-- What is built of the value of an attempt; a loop is told that this was its last round. -/
def finish (v : Value) : Action (Effect r.type) := pure (succeed (if r.inLoop then .ok v else v))

/-- The attempt with a number, whose exit is looked at. -/
def watched (k : Nat) : Effect r.type := r.attempt.foldHalt (r.handler k) r.finish

/-- Where a fiber goes on when it has looked at the exit of an attempt. -/
def outer : RunState :=
  if r.inLoop then r.base.push (.chain (Instruction.nextRound fun _ => pure (r.watched 0)))
  else r.base

/-- Whether nothing looks at the exit of the attempt with a number. -/
def isLast (k : Nat) : Bool :=
  match r.rule with
  | .times n => n ≤ k
  | .asking _ | .testing _ | .following _ _ => false

/-- Where the attempt with a number is made. -/
def inner (k : Nat) : RunState :=
  if r.isLast k then r.base
  else r.outer.push (.fold (fun h => r.handler k (h.untag r.type)) r.finish (r.type == r.type))

/-- Where it is decided whether to try again after a failure. -/
def deciding (h : Halt Value) : RunState :=
  r.outer.push (.chain (expecting fun again : Bool =>
    (pure (if again then succeed (.err .unit) else halt h) : Action (Effect r.type))))

/-- Where a fiber sleeps before the attempt with a number. -/
def sleeping (k : Nat) : RunState :=
  r.base.push (.chain fun _ => pure (suspend (pure (r.round k)) : Effect r.type))

/-- The fiber has not finished trying. -/
abbrev Going : Standing → Prop := Inside (fun _ => True) r.base

/-! ### What waits for an attempt -/

section Heights

variable {r}

theorem inner_of_isLast {k : Nat} (h : r.isLast k = true) : r.inner k = r.base := if_pos h

theorem inner_of_not_isLast {k : Nat} (h : r.isLast k = false) : r.inner k =
    r.outer.push (.fold (fun h => r.handler k (h.untag r.type)) r.finish (r.type == r.type)) :=
  if_neg (Bool.eq_false_iff.mp h)

theorem going_eval {run : RunState} (h : RunState.Above (fun _ => True) r.base run)
    (i : Instruction) : r.Going (.active run (.eval i)) :=
  ⟨h, fun _ => rfl⟩

/-- Where there is something to leave first, the retry has not ended. -/
theorem going_chain {run : RunState} (h : RunState.Above (fun _ => True) r.base run)
    (next : Value → Action Instruction) (step : Step) :
    r.Going (.active (run.push (.chain next)) step) := by
  refine ⟨h.chain next, fun heq => ?_⟩
  have hle := h.suffix.length_le
  rw [← heq] at hle
  exact absurd hle (Nat.not_succ_le_self _)

theorem outer_above (r : Retry) : RunState.Above (fun _ => True) r.base r.outer := by
  rw [outer]
  split
  · exact .chain _ .base
  · exact .base

theorem inner_above (r : Retry) (k : Nat) :
    RunState.Above (fun _ => True) r.base (r.inner k) := by
  rw [inner]
  split
  · exact .base
  · exact r.outer_above.fold _ _ _

theorem length_inner {k : Nat} (hk : r.isLast k = false) :
    (r.inner k).stack.length = r.outer.stack.length + 1 := by
  rw [inner_of_not_isLast hk]
  rfl

theorem length_lt_inner {k : Nat} (hk : r.isLast k = false) :
    r.base.stack.length < (r.inner k).stack.length := by
  rw [length_inner hk]
  exact Nat.lt_succ_of_le r.outer_above.suffix.length_le

theorem going_inner {k : Nat} (hk : r.isLast k = false) (step : Step) :
    r.Going (.active (r.inner k) step) :=
  ⟨r.inner_above k, fun heq => absurd (heq ▸ length_lt_inner hk) (Nat.lt_irrefl _)⟩

/-- **No attempt begins with more continuations than the first one.** -/
theorem length_inner_le (r : Retry) (k : Nat) :
    (r.inner k).stack.length ≤ (r.inner 0).stack.length := by
  cases hk : r.isLast k with
  | true =>
    rw [inner_of_isLast hk]
    exact (r.inner_above 0).suffix.length_le
  | false =>
    have hfirst : r.isLast 0 = false := by
      obtain ⟨type, base, attempt, rule⟩ := r
      cases rule with
      | times n =>
        have hlt : ¬ n ≤ k := of_decide_eq_false hk
        exact decide_eq_false fun hle => hlt (hle.trans (Nat.zero_le k))
      | asking _ | testing _ | following _ _ => rfl
    rw [length_inner hk, length_inner hfirst]

end Heights

/-! ### How far a retry has come -/

/-- How far a retry has come.  The exits are those of the attempts that have been followed by
another one. -/
inductive Point (ε : ErrorType) where
  /-- The next attempt is going to be made. -/
  | round (exits : List (Exit Value Value))
  /-- The next attempt begins. -/
  | attempt (exits : List (Exit Value Value))
  /-- It has ended. -/
  | ended (exits : List (Exit Value Value)) (o : Outcome)
  /-- An effect is going to decide whether another one follows. -/
  | asks (exits : List (Exit Value Value)) (h : Halt Value) (decision : Effect ε)
  /-- It has decided. -/
  | answered (exits : List (Exit Value Value)) (h : Halt Value) (o : Outcome)
  /-- The fiber is going to sleep until the next one. -/
  | sleeps (exits : List (Exit Value Value)) (h : Halt Value) (millis : Nat)
  /-- It has woken up. -/
  | woken (exits : List (Exit Value Value)) (h : Halt Value) (millis : Nat)
  /-- After the last attempt, which has ended with `x`, the retry has ended. -/
  | result (exits : List (Exit Value Value)) (x : Exit Value Value) (o : Outcome)

/-- How the fiber stands then. -/
def standing : Point r.type → Standing
  | .round exits => .active r.base (.eval (r.round exits.length))
  | .attempt exits => .active (r.inner exits.length) (.eval r.attempt)
  | .ended exits o => .handed (r.inner exits.length) o
  | .asks _ h decision => .active (r.deciding h) (.eval decision)
  | .answered _ h o => .handed (r.deciding h) o
  | .sleeps exits _ millis =>
    .active (r.sleeping (exits.length + 1)) (.eval (.wait (.sleep millis)))
  | .woken exits _ _ => .handed (r.sleeping (exits.length + 1)) (.done .unit)
  | .result _ _ o => .handed r.base o

/-- The retry ends with the failure of the last attempt. -/
def stays (exits : List (Exit Value Value)) (h : Halt Value) : Point r.type :=
  .result exits (.halt h) ((Exit.halt h).tag r.type)

/-- What follows on the exit of an attempt that is looked at in a world. -/
def judge (exits : List (Exit Value Value)) (w : World) : Exit Value Value → Point r.type
  | .done v => .result exits (.done v) (.done v)
  | .halt h =>
    match h.cause.firstFailure with
    | none => r.stays exits h
    | some failure =>
      match r.rule with
      | .times _ => .round (exits ++ [.halt h])
      | .asking test =>
        match ((test failure).run w).1 with
        | .ok decision => .asks exits h decision
        | .error d => .result exits (.halt h) (.die d)
      | .testing test =>
        match ((test failure).run w).1 with
        | .ok true => .round (exits ++ [.halt h])
        | .ok false => r.stays exits h
        | .error d => .result exits (.halt h) (.die d)
      | .following policy test =>
        match ((test failure).run w).1, policy.delay? (.ofNat exits.length) with
        | .ok true, some delay => .sleeps exits h delay.toNat
        | .ok _, _ => r.stays exits h
        | .error d, _ => .result exits (.halt h) (.die d)

/-- What follows on a decision. -/
def decided (exits : List (Exit Value Value)) (h : Halt Value) : Outcome → Point r.type
  | .done (.bool true) => .round (exits ++ [.halt h])
  | .done (.bool false) => r.stays exits h
  | .done _ => .result exits (.halt h) (.die (.mismatch "value" "Bool"))
  | .halt g => .result exits (.halt h) (.halt g)

/-- The point to which the fiber comes next by itself, if it does; in the given world it takes
the first step. -/
def next? (w : World) : Point r.type → Option (Point r.type)
  | .round exits => some (.attempt exits)
  | .ended exits o =>
    some (if r.isLast exits.length then .result exits (o.untag r.type) o
      else r.judge exits w (o.untag r.type))
  | .answered exits h o => some (r.decided exits h o)
  | .woken exits h _ => some (.round (exits ++ [.halt h]))
  | .attempt _ | .asks _ _ _ | .sleeps _ _ _ | .result _ _ _ => none

/-! ### What the fiber does by itself -/

section Routines

variable {r} {fiber : FiberId}

/-- A round that is not carried out by a loop is the attempt itself, whose exit is looked at. -/
theorem round_eq_watched {k : Nat} (hloop : r.inLoop = false) (hk : r.isLast k = false)
    (hlimit : ∀ n ∈ r.limit?, k ≤ n) : r.round k = r.watched k := by
  obtain ⟨type, base, attempt, rule⟩ := r
  cases rule with
  | asking test | testing test => cases hloop
  | times n =>
    have hlt : ¬ n ≤ k := of_decide_eq_false hk
    obtain ⟨m, hm⟩ : ∃ m, n - k = m + 1 := ⟨n - k - 1, by omega⟩
    have hnext : n - (k + 1) = m := by omega
    simp only [round, hm, retryN]
    refine congrArg (attempt.foldHalt · _) (funext fun h => ?_)
    simp only [handler, round, hnext]
  | following policy test =>
    have hle : k ≤ policy.maxRetries.toNat := hlimit _ rfl
    cases hleft : policy.maxRetries.toNat - k with
    | zero =>
      -- no attempt is left, and there is no delay
      have hnone := (Backoff.delay?_eq_none_iff_of_le hle).mpr (by omega)
      simp only [round, hleft, retryFrom]
      refine congrArg (attempt.foldHalt · _) (funext fun h => ?_)
      simp only [handler, hnone]
    | succ left =>
      have hnext : policy.maxRetries.toNat - (k + 1) = left := by omega
      have hcount : UInt32.ofNat k + 1 = .ofNat (k + 1) := (UInt32.ofNat_add k 1).symm
      simp only [round, hleft, retryFrom]
      refine congrArg (attempt.foldHalt · _) (funext fun h => ?_)
      rw [hcount, ← hnext]
      rfl

/-- The next attempt is begun. -/
theorem routine_round {k : Nat} (hlimit : ∀ n ∈ r.limit?, k ≤ n) : ∃ steps, steps.length ≤ 2 ∧
    (steps = [] → r.isLast k = true) ∧
      Routine fiber r.Going (.active r.base (.eval (r.round k))) steps
        (.active (r.inner k) (.eval r.attempt)) := by
  cases hk : r.isLast k with
  | true =>
    rw [inner_of_isLast hk]
    obtain ⟨type, base, attempt, rule⟩ := r
    cases rule with
    | asking _ | testing _ | following _ _ => cases hk
    | times n =>
      simp only [round, Nat.sub_eq_zero_of_le (of_decide_eq_true hk)]
      exact ⟨[], by simp, by simp, .done⟩
  | false =>
    rw [inner_of_not_isLast hk]
    cases hloop : r.inLoop with
    | false =>
      rw [round_eq_watched hloop hk hlimit, outer, hloop]
      exact ⟨[_], by simp, by simp, .cons (going_eval .base _) (fun _ => rfl) .done⟩
    | true =>
      obtain ⟨type, base, attempt, rule⟩ := r
      cases rule with
      | times _ | following _ _ => cases hloop
      | asking test | testing test =>
        exact ⟨[_, _], by simp, by simp, .cons (going_eval .base _) (fun _ => rfl) <|
          .cons (going_eval (.chain _ .base) _) (fun _ => rfl) .done⟩

/-- A failure is the end of the retry. -/
theorem routine_halt (r : Retry) (g : Halt Failure) : ∃ steps, steps.length ≤ 1 ∧
    Routine fiber r.Going (.handed r.outer (.halt g)) steps (.handed r.base (.halt g)) := by
  obtain ⟨type, base, attempt, rule⟩ := r
  cases rule with
  | asking test | testing test =>
    exact ⟨[_], by simp, .cons (going_chain .base _ _) (fun _ => rfl) .done⟩
  | times _ | following _ _ => exact ⟨[], by simp, .done⟩

/-- What has been tried may end as it has. -/
theorem routine_stays (r : Retry) (exits : List (Exit Value Value)) (h : Halt Value) :
    ∃ steps, steps.length ≤ 2 ∧
      Routine fiber r.Going (.active r.outer (.eval (halt h : Effect r.type))) steps
        (r.standing (r.stays exits h)) := by
  obtain ⟨steps, hlength, hroutine⟩ := routine_halt r (h.tag r.type)
  exact ⟨_ :: steps, by simpa using hlength,
    .cons (going_eval r.outer_above _) (fun _ => rfl) hroutine⟩

/-- A value is the end of the retry. -/
theorem routine_value {k : Nat} (hk : r.isLast k = false) (v : Value) : ∃ steps,
    steps.length ≤ 4 ∧ steps ≠ [] ∧
      Routine fiber r.Going (.handed (r.inner k) (.done v)) steps (.handed r.base (.done v)) := by
  have hstart : r.Going (.handed (r.inner k) (.done v)) := going_inner hk _
  rw [inner_of_not_isLast hk] at hstart ⊢
  obtain ⟨type, base, attempt, rule⟩ := r
  cases rule with
  | times _ | following _ _ =>
    exact ⟨[_, _], by simp, by simp, .cons hstart (fun _ => rfl) <|
      .cons (going_eval .base _) (fun _ => rfl) .done⟩
  | asking test | testing test =>
    exact ⟨[_, _, _, _], by simp, by simp, .cons hstart (fun _ => rfl) <|
      .cons (going_eval (.chain _ .base) _) (fun _ => rfl) <|
      .cons (going_chain .base _ _) (fun _ => rfl) <|
      .cons (going_eval .base _) (fun _ => rfl) .done⟩

/-- A failure is looked at. -/
theorem after_halt {k : Nat} (hk : r.isLast k = false) (w : World) (g : Halt Failure) :
    w.after fiber ((Step.halt g).plan none fiber (r.inner k)) =
      .active r.outer (.ofBuilt ((r.handler k (g.untag r.type)).run w).1) := by
  simp only [inner_of_not_isLast hk, Step.plan, RunState.planHalt, RunState.push,
    RunState.stopsFor_none]
  rfl

/-- A panic is the end of the retry. -/
theorem routine_dies (r : Retry) (d : Defect) : ∃ steps, steps.length ≤ 1 ∧
    Routine fiber r.Going (.active r.outer (.die d)) steps (.handed r.base (.die d)) :=
  routine_halt r (.of (.die d))

section Judging

variable {exits : List (Exit Value Value)} {w : World} {h : Halt Value} {failure : Value}

/-- Where no failure was expected, there is nothing to decide. -/
theorem routine_judge_of_none (r : Retry) (hfailure : h.cause.firstFailure = none) :
    ∃ steps, steps.length ≤ 2 ∧
      Routine fiber r.Going (.active r.outer (.ofBuilt ((r.handler exits.length h).run w).1)) steps
        (r.standing (r.judge exits w (.halt h))) := by
  obtain ⟨steps, hlength, hstays⟩ := @routine_stays fiber r exits h
  refine ⟨steps, hlength, ?_⟩
  obtain ⟨type, base, attempt, rule⟩ := r
  cases rule with
  | times n =>
    simp only [judge, handler, hfailure, Cause.isFailure]
    exact hstays
  | asking test | testing test =>
    simp only [judge, handler, decideRetry, hfailure]
    exact hstays
  | following policy test =>
    simp only [judge, handler, retryable, hfailure]
    cases policy.delay? (.ofNat exits.length) <;> exact hstays

/-- An expected failure is judged as the rule says. -/
theorem routine_judge_of_some (r : Retry) (hfailure : h.cause.firstFailure = some failure) :
    ∃ steps, steps.length ≤ 5 ∧
      Routine fiber r.Going (.active r.outer (.ofBuilt ((r.handler exits.length h).run w).1)) steps
        (r.standing (r.judge exits w (.halt h))) := by
  obtain ⟨steps, hlength, hstays⟩ := @routine_stays fiber r exits h
  have hlength' : steps.length ≤ 5 := by omega
  have hdies : ∀ d, ∃ steps, steps.length ≤ 5 ∧
      Routine fiber r.Going (.active r.outer (.die d)) steps (.handed r.base (.die d)) := by
    intro d
    obtain ⟨steps, hlength, hroutine⟩ := @routine_dies fiber r d
    exact ⟨steps, by omega, hroutine⟩
  obtain ⟨type, base, attempt, rule⟩ := r
  cases rule with
  | times n =>
    simp only [judge, handler, hfailure, Cause.isFailure, standing, List.length_append]
    exact ⟨[_], by simp, .cons (going_eval .base _) (fun _ => rfl) .done⟩
  | asking test =>
    simp only [judge, handler, decideRetry, hfailure, Action.run_bind]
    obtain ⟨result, w'⟩ := (test failure).run w
    cases result with
    | error d => exact hdies d
    | ok decision =>
      exact ⟨[_], by simp, .cons (going_eval (.chain _ .base) _) (fun _ => rfl) .done⟩
  | testing test =>
    simp only [judge, handler, decideRetry, hfailure, Action.run_bind]
    obtain ⟨result, w'⟩ := (test failure).run w
    cases result with
    | error d => exact hdies d
    | ok again =>
      -- the effect that decides does so without delay
      cases again <;> exact ⟨[_, _, _, _, _], by simp,
        .cons (going_eval (.chain _ .base) _) (fun _ => rfl) <|
        .cons (going_eval (.chain _ (.chain _ .base)) _) (fun _ => rfl) <|
        .cons (going_chain (.chain _ .base) _ _) (fun _ => rfl) <|
        .cons (going_eval (.chain _ .base) _) (fun _ => rfl) <|
        .cons (going_chain .base _ _) (fun _ => rfl) .done⟩
  | following policy test =>
    simp only [judge, handler, retryable, hfailure, Action.run_bind]
    obtain ⟨result, w'⟩ := (test failure).run w
    cases policy.delay? (.ofNat exits.length) with
    | none =>
      rcases result with d | _ | _
      · exact hdies d
      · exact ⟨steps, hlength', hstays⟩
      · exact ⟨steps, hlength', hstays⟩
    | some delay =>
      rcases result with d | _ | _
      · exact hdies d
      · exact ⟨steps, hlength', hstays⟩
      · exact ⟨[_], by simp, .cons (going_eval .base _) (fun _ => rfl) .done⟩

/-- What is built of a failure is judged as the rule says. -/
theorem routine_judge (r : Retry) (exits : List (Exit Value Value)) (w : World) (h : Halt Value) :
    ∃ steps, steps.length ≤ 5 ∧
      Routine fiber r.Going (.active r.outer (.ofBuilt ((r.handler exits.length h).run w).1)) steps
        (r.standing (r.judge exits w (.halt h))) := by
  cases hfailure : h.cause.firstFailure with
  | some failure => exact routine_judge_of_some r hfailure
  | none =>
    obtain ⟨steps, hlength, hroutine⟩ := @routine_judge_of_none fiber exits w h r hfailure
    exact ⟨steps, by omega, hroutine⟩

end Judging

/-- A decision is carried out. -/
theorem routine_decided (r : Retry) (htest : ∃ test, r.rule = .asking test)
    (exits : List (Exit Value Value)) (h : Halt Value) (o : Outcome) : ∃ steps, steps.length ≤ 4 ∧
      steps ≠ [] ∧ Routine fiber r.Going (r.standing (.answered exits h o)) steps
        (r.standing (r.decided exits h o)) := by
  obtain ⟨type, base, attempt, rule⟩ := r
  cases rule with
  | times _ | testing _ | following _ _ =>
    obtain ⟨test, heq⟩ := htest
    cases heq
  | asking test =>
    cases o with
    | halt g =>
      exact ⟨[_, _], by simp, by simp, .cons (going_chain (.chain _ .base) _ _) (fun _ => rfl) <|
        .cons (going_chain .base _ _) (fun _ => rfl) .done⟩
    | done v =>
      -- a truth value decides, and anything else is a defect
      cases v with
      | bool again =>
        cases again <;> exact ⟨[_, _, _], by simp, by simp,
          .cons (going_chain (.chain _ .base) _ _) (fun _ => rfl) <|
          .cons (going_eval (.chain _ .base) _) (fun _ => rfl) <|
          .cons (going_chain .base _ _) (fun _ => rfl) .done⟩
      | _ =>
        exact ⟨[_, _, _], by simp, by simp,
          .cons (going_chain (.chain _ .base) _ _) (fun _ => rfl) <|
          .cons (going_eval (.chain _ .base) _) (fun _ => rfl) <|
          .cons (going_chain .base _ _) (fun _ => rfl) .done⟩

/-- A fiber that has slept begins with the next attempt. -/
theorem routine_woken (r : Retry) (exits : List (Exit Value Value)) (h : Halt Value)
    (millis : Nat) : ∃ steps, steps.length ≤ 2 ∧ steps ≠ [] ∧
      Routine fiber r.Going (r.standing (.woken exits h millis)) steps
        (r.standing (.round (exits ++ [.halt h]))) := by
  simp only [standing, List.length_append]
  exact ⟨[_, _], by simp, by simp, .cons (going_chain .base _ _) (fun _ => rfl) <|
    .cons (going_eval .base _) (fun _ => rfl) .done⟩

end Routines

/-- The first round is the whole retry. -/
theorem round_zero (r : Retry) : r.round 0 = r.effect := by
  obtain ⟨type, base, attempt, rule⟩ := r
  cases rule <;> rfl

end Retry

end Fibers
