import Fibers.Proofs.Attempts
import Fibers.Proofs.NormalForms
import Fibers.Proofs.Stories

/-!
# What trying again comes to

Of a fiber that tries an effect again it is noted with which exits the attempts have ended, what
has been decided in between, and how long the fiber has slept.  What has been noted tells how
far the retry has come: every attempt but the last one has ended so that another one may follow,
and before the next one there stands what the rule puts there.  The last attempt is the first
one that suffices; the retry ends as that attempt has, or as the effect that has decided against
another one.

A fiber that nobody asks to stop comes from every point to the next one, or it is still on the
way: an attempt, an effect that decides or a sleep has not ended, or a routine has not.  What
follows holds of any course, and is proved by induction on what is left of it; where a fiber
comes further without doing anything, `Retry.Point.rank` counts that down.

## Main definitions

* `Retry.Entry`, `Retry.log` — what is noted.
* `Retry.GoesOn`, `Retry.Suffices`, `Retry.Ends` — which attempts are followed by another one,
  which are not, and what comes of the last one.
* `Retry.Tells`, `Retry.Counts` — what has been noted fits how far the retry has come.
* `Retry.Leads`, `Retry.Path`, `Retry.Within` — what happens between the points.

## Main results

* `Retry.Tells.path` — what has been noted fits every point that is reached.
* `Retry.Tells.course` — every course leads from one point to the next.
* `Retry.Tells.settled` — when a fiber has finished trying, its course has led to a result.
* `Workshop.Run.retries` — **a fiber that is not asked to stop tries again as the rule says.**
-/

namespace Fibers

open Effect

namespace Retry

variable (r : Retry)

/-! ### What is noted of a retry -/

/-- Something that is noted of a retry. -/
inductive Entry where
  /-- An attempt has ended. -/
  | tried (x : Exit Value Value)
  /-- An effect has decided whether another one follows. -/
  | decided (x : Exit Value Value)
  /-- The fiber has slept. -/
  | slept (millis : Nat)

/-- The attempt with a number has ended so that another one may follow. -/
def GoesOn (k : Nat) (x : Exit Value Value) : Prop :=
  ∃ failure, x.firstFailure? = some failure ∧
    match r.rule with
    | .times n => k < n
    | .asking test => ∃ w decision, ((test failure).run w).1 = .ok decision
    | .testing test => ∃ w, ((test failure).run w).1 = .ok true
    | .following policy test =>
      k < policy.maxRetries.toNat ∧ ∃ w, ((test failure).run w).1 = .ok true

/-- The attempt with a number has ended so that no other one follows, whatever an effect says. -/
def Suffices (k : Nat) (x : Exit Value Value) : Prop :=
  x.firstFailure? = none ∨
    match r.rule with
    | .times n => k = n
    | .asking _ => False
    | .testing test =>
      ∃ failure w, x.firstFailure? = some failure ∧ ((test failure).run w).1 = .ok false
    | .following policy test =>
      k = policy.maxRetries.toNat ∨
        ∃ failure w, x.firstFailure? = some failure ∧ ((test failure).run w).1 = .ok false

/-- The test of a failure panics. -/
def Panics (x : Exit Value Value) (d : Defect) : Prop :=
  ∃ failure w, x.firstFailure? = some failure ∧
    match r.rule with
    | .times _ => False
    | .asking test => ((test failure).run w).1 = .error d
    | .testing test => ((test failure).run w).1 = .error d
    | .following _ test => ((test failure).run w).1 = .error d

/-- An effect made from the failure decides whether another attempt follows. -/
def Asks (x : Exit Value Value) : Prop :=
  ∃ test failure w decision, r.rule = .asking test ∧ x.firstFailure? = some failure ∧
    ((test failure).run w).1 = .ok decision

/-- What is noted of the attempt with a number that another one follows. -/
def noted (k : Nat) (x : Exit Value Value) : List Entry :=
  match r.rule with
  | .times _ | .testing _ => [.tried x]
  | .asking _ => [.tried x, .decided (.done (.bool true))]
  | .following policy _ => [.tried x, .slept ((policy.delay? (.ofNat k)).getD 0).toNat]

/-- What is noted of attempts that have been followed by another one. -/
def log (exits : List (Exit Value Value)) : List Entry :=
  exits.zipIdx.flatMap fun tried => r.noted tried.2 tried.1

/-- Attempts have ended so that another one may follow. -/
def WentOn (exits : List (Exit Value Value)) : Prop :=
  ∀ k x, exits[k]? = some x → r.GoesOn k x

/-- How the retry ends after the attempt with a number, which has ended with `x`: what is noted
after that, and the outcome. -/
inductive Ends (k : Nat) (x : Exit Value Value) : List Entry → Outcome → Prop where
  /-- It ends as the attempt has. -/
  | suffices {o : Outcome} : o.untag r.type = x → r.Suffices k x → Ends k x [] o
  /-- It ends with the panic of the test. -/
  | panics {d : Defect} : r.Panics x d → Ends k x [] (.die d)
  /-- It ends as the attempt has, for the effect that decides says so. -/
  | declines {o : Outcome} : r.Asks x → o.untag r.type = x →
      Ends k x [.decided (.done (.bool false))] o
  /-- It ends as the effect that decides, which has failed. -/
  | fails {g : Halt Failure} : r.Asks x → Ends k x [.decided (.halt (g.untag r.type))] (.halt g)
  /-- The effect that decides has ended with something that does not. -/
  | mismatches {v : Value} : r.Asks x → (∀ b, v ≠ .bool b) →
      Ends k x [.decided (.done v)] (.die (.mismatch "value" "Bool"))

/-- What has been noted fits how far the retry has come. -/
def Tells (noted : List Entry) : Point r.type → Prop
  | .round exits => r.WentOn exits ∧ noted = r.log exits
  | .attempt exits => r.WentOn exits ∧ noted = r.log exits
  | .ended exits o => r.WentOn exits ∧ noted = r.log exits ++ [.tried (o.untag r.type)]
  | .asks exits h _ =>
    r.WentOn exits ∧ noted = r.log exits ++ [.tried (.halt h)] ∧ r.Asks (.halt h) ∧
      ((Exit.halt h).tag r.type).untag r.type = .halt h
  | .answered exits h o =>
    r.WentOn exits ∧ noted = r.log exits ++ [.tried (.halt h), .decided (o.untag r.type)] ∧
      r.Asks (.halt h) ∧ ((Exit.halt h).tag r.type).untag r.type = .halt h
  | .sleeps exits h millis =>
    r.WentOn (exits ++ [.halt h]) ∧ noted = r.log exits ++ [.tried (.halt h)] ∧
      r.noted exits.length (.halt h) = [.tried (.halt h), .slept millis]
  | .woken exits h _ => r.WentOn (exits ++ [.halt h]) ∧ noted = r.log (exits ++ [.halt h])
  | .result exits x o =>
    r.WentOn exits ∧ ∃ more, noted = r.log exits ++ .tried x :: more ∧
      r.Ends exits.length x more o

/-- The number of the attempt that is made or comes next. -/
def Point.number {ε : ErrorType} : Point ε → Nat
  | .round exits | .attempt exits | .ended exits _ | .asks exits _ _ | .answered exits _ _
  | .result exits _ _ => exits.length
  | .sleeps exits _ _ | .woken exits _ _ => exits.length + 1

/-- A policy counts the attempts in words that do not overflow, and it has a delay before each
attempt that follows the first one. -/
def Counts (p : Point r.type) : Prop :=
  match r.rule with
  | .times n => p.number ≤ n
  | .asking _ | .testing _ => True
  | .following policy _ =>
    p.number ≤ policy.maxRetries.toNat ∧ (UInt32.ofNat p.number).toNat = p.number ∧
      ∀ k < p.number, (policy.delay? (.ofNat k)).isSome

/-! ### One thing after the other -/

/-- What happens between one point and the next, and what is noted of it. -/
inductive Leads (fiber : FiberId) :
    Point r.type → List Event → List Entry → Point r.type → Prop where
  /-- The fiber comes to the next point by itself. -/
  | passes {p q : Point r.type} {w : World} {steps : List (RunState × Step)} {es : List Event} :
      r.next? w p = some q → RoutineIn fiber r.Going w (r.standing p) steps (r.standing q) →
      PerformsIn w steps es → Leads fiber p es [] q
  /-- An attempt is made. -/
  | tries {exits : List (Exit Value Value)} {o : Outcome} {es : List Event} :
      Course fiber (Inside (fun _ => True) (r.inner exits.length)) (r.standing (.attempt exits)) es
        (r.standing (.ended exits o)) →
      Leads fiber (.attempt exits) es [.tried (o.untag r.type)] (.ended exits o)
  /-- It is decided whether another one follows. -/
  | decides {exits : List (Exit Value Value)} {h : Halt Value} {decision : Effect r.type}
      {o : Outcome} {es : List Event} :
      Course fiber (Inside (fun _ => True) (r.deciding h)) (r.standing (.asks exits h decision)) es
        (r.standing (.answered exits h o)) →
      Leads fiber (.asks exits h decision) es [.decided (o.untag r.type)] (.answered exits h o)
  /-- The fiber sleeps. -/
  | sleeps {exits : List (Exit Value Value)} {h : Halt Value} {millis : Nat} {w : World} :
      Leads fiber (.sleeps exits h millis)
        [.iterated w (r.sleeping (exits.length + 1)) (.eval (.wait (.sleep millis))),
          .resumed (.done .unit)] [.slept millis] (.woken exits h millis)

/-- What happens up to some point, and what is noted of it. -/
inductive Path (fiber : FiberId) :
    Point r.type → List Event → List Entry → Point r.type → Prop where
  /-- Nothing. -/
  | rest {p : Point r.type} : Path fiber p [] [] p
  /-- One thing, and then others. -/
  | go {p q p' : Point r.type} {es es' : List Event} {noted noted' : List Entry} :
      r.Leads fiber p es noted q → Path fiber q es' noted' p' →
      Path fiber p (es ++ es') (noted ++ noted') p'

/-- How a fiber stands that has not come to the next point. -/
inductive Within (fiber : FiberId) : Point r.type → List Event → Standing → Prop where
  /-- In whatever world it takes the first step, it comes to the next point after that. -/
  | ready {p : Point r.type} :
      (∀ w, ∃ q steps, r.next? w p = some q ∧ steps.length ≤ 6 ∧ steps ≠ [] ∧
        RoutineIn fiber r.Going w (r.standing p) steps (r.standing q)) →
      Within fiber p [] (r.standing p)
  /-- It is on the way to the next point. -/
  | passing {p q : Point r.type} {w : World} {made left : List (RunState × Step)}
      {es : List Event} {a : Standing} :
      r.next? w p = some q →
      RoutineIn fiber r.Going w (r.standing p) (made ++ left) (r.standing q) →
      (made ++ left).length ≤ 6 → PerformsIn w made es →
      Routine fiber r.Going a left (r.standing q) → left ≠ [] → Within fiber p es a
  /-- An attempt is being made. -/
  | trying {exits : List (Exit Value Value)} {es : List Event} {a : Standing} :
      Course fiber (Inside (fun _ => True) (r.inner exits.length)) (r.standing (.attempt exits)) es
        a → Inside (fun _ => True) (r.inner exits.length) a → Within fiber (.attempt exits) es a
  /-- It is being decided whether another one follows. -/
  | deciding {exits : List (Exit Value Value)} {h : Halt Value} {decision : Effect r.type}
      {es : List Event} {a : Standing} :
      Course fiber (Inside (fun _ => True) (r.deciding h)) (r.standing (.asks exits h decision)) es
        a → Inside (fun _ => True) (r.deciding h) a → Within fiber (.asks exits h decision) es a
  /-- The fiber is about to sleep. -/
  | tired {exits : List (Exit Value Value)} {h : Halt Value} {millis : Nat} :
      Within fiber (.sleeps exits h millis) [] (r.standing (.sleeps exits h millis))
  /-- It sleeps. -/
  | asleep {exits : List (Exit Value Value)} {h : Halt Value} {millis : Nat} {w : World} :
      Within fiber (.sleeps exits h millis)
        [.iterated w (r.sleeping (exits.length + 1)) (.eval (.wait (.sleep millis)))]
        (.waiting (r.sleeping (exits.length + 1)))
  /-- The retry has ended. -/
  | finished {exits : List (Exit Value Value)} {x : Exit Value Value} {o : Outcome} {es : List Event}
      {a : Standing} : Life fiber (.handed r.base o) es a → Within fiber (.result exits x o) es a

/-! ### What is noted fits -/

section Noting

variable {r} {exits : List (Exit Value Value)} {x : Exit Value Value} {h : Halt Value}
  {noted noted' : List Entry} {p q : Point r.type} {fiber : FiberId} {w : World}
  {es : List Event}

theorem log_append (r : Retry) (exits : List (Exit Value Value)) (x : Exit Value Value) :
    r.log (exits ++ [x]) = r.log exits ++ r.noted exits.length x := by
  simp [log, List.zipIdx_append]

theorem WentOn.append (h : r.WentOn exits) (hx : r.GoesOn exits.length x) :
    r.WentOn (exits ++ [x]) := by
  intro k y hy
  rw [List.getElem?_append] at hy
  split at hy
  · exact h k y hy
  · next hk =>
    obtain ⟨hlt, rfl⟩ := List.getElem?_eq_some_iff.mp hy
    obtain rfl : k = exits.length := by
      simp only [List.length_singleton] at hlt
      omega
    simpa using hx

/-- Not more attempts follow than the rule allows. -/
theorem WentOn.length_le (h : r.WentOn exits) : ∀ n ∈ r.limit?, exits.length ≤ n := by
  intro n hn
  rcases List.eq_nil_or_concat exits with rfl | ⟨before, x, rfl⟩
  · exact Nat.zero_le n
  · obtain ⟨failure, -, hrule⟩ := h before.length x (by simp)
    rw [limit?] at hn
    rw [List.length_concat]
    -- the last of them was allowed to be followed by another one
    cases hcase : r.rule with
    | times m =>
      simp only [hcase] at hn hrule
      obtain rfl := Option.some.inj hn
      exact hrule
    | asking test | testing test =>
      simp only [hcase] at hn
      cases hn
    | following policy test =>
      simp only [hcase] at hn hrule
      obtain rfl := Option.some.inj hn
      exact hrule.1

/-- The retry may end as an attempt has. -/
theorem tells_stays (h : r.WentOn exits) (hx : (x.tag r.type).untag r.type = x)
    (hsuffices : r.Suffices exits.length x) :
    r.Tells (r.log exits ++ [.tried x]) (.result exits x (x.tag r.type)) :=
  ⟨h, [], rfl, .suffices hx hsuffices⟩

/-- It may end with the panic of a test. -/
theorem tells_dies {d : Defect} (h : r.WentOn exits) (hpanics : r.Panics x d) :
    r.Tells (r.log exits ++ [.tried x]) (.result exits x (.die d)) :=
  ⟨h, [], rfl, .panics hpanics⟩

/-- Or another attempt follows at once. -/
theorem tells_again (h : r.WentOn exits) (hgoes : r.GoesOn exits.length x)
    (hnoted : r.noted exits.length x = [.tried x]) :
    r.Tells (r.log exits ++ [.tried x]) (.round (exits ++ [x])) :=
  ⟨h.append hgoes, by rw [log_append, hnoted]⟩

section Judging

variable {g : Halt Value} {failure : Value}

theorem tells_judge_testing {test : Value → Action Bool} (hrule : r.rule = .testing test)
    (h : r.WentOn exits) (hx : ((Exit.halt g).tag r.type).untag r.type = .halt g)
    (hfailure : g.cause.firstFailure = some failure) (w : World) :
    r.Tells (r.log exits ++ [.tried (.halt g)]) (r.judge exits w (.halt g)) := by
  simp only [judge, hfailure, hrule]
  cases htest : ((test failure).run w).1 with
  | error d =>
    refine tells_dies h ⟨failure, w, hfailure, ?_⟩
    simp only [hrule]
    exact htest
  | ok again =>
    cases again with
    | false =>
      refine tells_stays h hx (Or.inr ?_)
      simp only [hrule]
      exact ⟨failure, w, hfailure, htest⟩
    | true =>
      refine tells_again h ⟨failure, hfailure, ?_⟩ (by simp only [noted, hrule])
      simp only [hrule]
      exact ⟨w, htest⟩

theorem tells_judge_following {policy : Backoff} {test : Value → Action Bool}
    (hrule : r.rule = .following policy test) (h : r.WentOn exits)
    (hx : ((Exit.halt g).tag r.type).untag r.type = .halt g)
    (hfailure : g.cause.firstFailure = some failure) (w : World) :
    r.Tells (r.log exits ++ [.tried (.halt g)]) (r.judge exits w (.halt g)) := by
  have hle : exits.length ≤ policy.maxRetries.toNat :=
    h.length_le _ (by simp only [limit?, hrule]; rfl)
  have hnone := Backoff.delay?_eq_none_iff_of_le hle
  simp only [judge, hfailure, hrule]
  cases htest : ((test failure).run w).1 with
  | error d =>
    refine tells_dies h ⟨failure, w, hfailure, ?_⟩
    simp only [hrule]
    exact htest
  | ok again =>
    cases again with
    | false =>
      refine tells_stays h hx (Or.inr ?_)
      simp only [hrule]
      exact Or.inr ⟨failure, w, hfailure, htest⟩
    | true =>
      cases hdelay : policy.delay? (.ofNat exits.length) with
      | none =>
        refine tells_stays h hx (Or.inr ?_)
        simp only [hrule]
        exact Or.inl (hnone.mp hdelay)
      | some delay =>
        have hne : exits.length ≠ policy.maxRetries.toNat := by
          intro heq
          rw [hnone.mpr heq] at hdelay
          cases hdelay
        refine ⟨h.append ⟨failure, hfailure, ?_⟩, rfl, ?_⟩
        · simp only [hrule]
          exact ⟨by omega, w, htest⟩
        · simp only [Retry.noted, hrule, hdelay, Option.getD_some]

/-- What is noted of an attempt fits what follows on it. -/
theorem tells_judge (h : r.WentOn exits) (hlast : r.isLast exits.length = false) (w : World)
    (hx : (x.tag r.type).untag r.type = x) :
    r.Tells (r.log exits ++ [.tried x]) (r.judge exits w x) := by
  cases x with
  | done v => exact tells_stays h hx (Or.inl rfl)
  | halt g =>
    cases hfailure : g.cause.firstFailure with
    | none =>
      simp only [judge, hfailure]
      exact tells_stays h hx (Or.inl hfailure)
    | some failure =>
      cases hrule : r.rule with
      | testing test => exact tells_judge_testing hrule h hx hfailure w
      | following policy test => exact tells_judge_following hrule h hx hfailure w
      | times n =>
        simp only [judge, hfailure, hrule]
        refine tells_again h ⟨failure, hfailure, ?_⟩ (by simp only [noted, hrule])
        simp only [isLast, hrule, decide_eq_false_iff_not] at hlast
        simp only [hrule]
        omega
      | asking test =>
        simp only [judge, hfailure, hrule]
        cases htest : ((test failure).run w).1 with
        | ok decision => exact ⟨h, rfl, ⟨test, failure, w, decision, hrule, hfailure, htest⟩, hx⟩
        | error d =>
          refine tells_dies h ⟨failure, w, hfailure, ?_⟩
          simp only [hrule]
          exact htest

end Judging

/-- What is noted of a decision fits what follows on it. -/
theorem tells_decided {o : Outcome} (htells : r.Tells noted (.answered exits h o)) :
    r.Tells noted (r.decided exits h o) := by
  obtain ⟨hexits, rfl, hasks, hx⟩ := htells
  cases o with
  | halt g => exact ⟨hexits, _, rfl, .fails hasks⟩
  | done v =>
    have hmismatch : (∀ b, v ≠ .bool b) → r.Tells
        (r.log exits ++ [.tried (.halt h), .decided ((Exit.done v : Outcome).untag r.type)])
        (.result exits (.halt h) (.die (.mismatch "value" "Bool"))) := fun hv =>
      ⟨hexits, _, rfl, .mismatches hasks hv⟩
    cases v with
    | bool again =>
      cases again with
      | false => exact ⟨hexits, _, rfl, .declines hasks hx⟩
      | true =>
        obtain ⟨test, failure, w, decision, hrule, hfailure, htest⟩ := hasks
        refine ⟨hexits.append ⟨failure, hfailure, ?_⟩, ?_⟩
        · simp only [hrule]
          exact ⟨w, decision, htest⟩
        · simp only [log_append, Retry.noted, hrule]
          rfl
    | _ => exact hmismatch nofun

/-- **Attempts are counted without overflow.** -/
theorem Tells.counts (htells : r.Tells noted p) : r.Counts p := by
  have hlimit : ∀ n ∈ r.limit?, p.number ≤ n := by
    cases p with
    | sleeps exits h _ | woken exits h _ =>
      have hlength := WentOn.length_le htells.1
      rwa [List.length_append] at hlength
    | round _ | attempt _ | ended _ _ | asks _ _ _ | answered _ _ _ | result _ _ _ =>
      exact WentOn.length_le htells.1
  rw [limit?] at hlimit
  rw [Counts]
  cases hrule : r.rule with
  | times n =>
    simp only [hrule] at hlimit
    exact hlimit n rfl
  | asking _ | testing _ => exact trivial
  | following policy test =>
    simp only [hrule] at hlimit
    have hle := hlimit _ rfl
    refine ⟨hle, toNat_ofNat_of_le hle, fun k hk => ?_⟩
    rw [Option.isSome_iff_ne_none]
    intro hnone
    have heq := (Backoff.delay?_eq_none_iff_of_le (hk.le.trans hle)).mp hnone
    omega

/-- The attempt at whose exit nothing looks is the last one that the rule allows. -/
theorem WentOn.suffices_of_isLast (h : r.WentOn exits) (hlast : r.isLast exits.length = true) :
    r.Suffices exits.length x := by
  have hlimit := h.length_le
  rw [limit?] at hlimit
  rw [isLast] at hlast
  cases hrule : r.rule with
  | times n =>
    simp only [hrule, decide_eq_true_eq] at hlimit hlast
    refine Or.inr ?_
    simp only [hrule]
    exact Nat.le_antisymm (hlimit n rfl) hlast
  | asking _ | testing _ | following _ _ =>
    simp only [hrule] at hlast
    cases hlast

/-- Nothing is noted of what the fiber does by itself. -/
theorem Tells.passes (htells : r.Tells noted p) (hnext : r.next? w p = some q) :
    r.Tells noted q := by
  cases p with
  | attempt _ | asks _ _ _ | sleeps _ _ _ | result _ _ _ => cases hnext
  | round exits =>
    obtain rfl := Option.some.inj hnext
    exact htells
  | woken exits h millis =>
    obtain rfl := Option.some.inj hnext
    exact htells
  | answered exits h o =>
    obtain rfl := Option.some.inj hnext
    exact tells_decided htells
  | ended exits o =>
    obtain rfl := Option.some.inj hnext
    obtain ⟨hexits, rfl⟩ := htells
    cases hlast : r.isLast exits.length with
    | false => exact tells_judge hexits hlast w (Exit.untag_tag_untag r.type o)
    | true => exact ⟨hexits, [], rfl, .suffices rfl (hexits.suffices_of_isLast hlast)⟩

/-- **What is noted fits how far the retry has come**, from one point to the next. -/
theorem Tells.leads (htells : r.Tells noted p) (hleads : r.Leads fiber p es noted' q) :
    r.Tells (noted ++ noted') q := by
  cases hleads with
  | passes hnext _ _ =>
    rw [List.append_nil]
    exact htells.passes hnext
  | tries hcourse =>
    obtain ⟨hexits, rfl⟩ := htells
    exact ⟨hexits, rfl⟩
  | decides hcourse =>
    obtain ⟨hexits, rfl, hasks, hx⟩ := htells
    exact ⟨hexits, by rw [List.append_assoc]; rfl, hasks, hx⟩
  | sleeps =>
    obtain ⟨hexits, rfl, hnoted⟩ := htells
    refine ⟨hexits, ?_⟩
    rw [log_append, hnoted, List.append_assoc]
    rfl

/-- **What is noted fits how far the retry has come.** -/
theorem Tells.path (htells : r.Tells noted p) (hpath : r.Path fiber p es noted' q) :
    r.Tells (noted ++ noted') q := by
  induction hpath generalizing noted with
  | rest => rwa [List.append_nil]
  | go hleads _ ih =>
    rw [← List.append_assoc]
    exact ih (htells.leads hleads)

end Noting

/-! ### The life of a fiber that tries again -/

/-- How often the fiber may still come to another point without doing anything. -/
def Point.rank {ε : ErrorType} : Point ε → Nat
  | .round _ => 1
  | .ended _ _ => 1
  | .attempt _ | .asks _ _ _ | .answered _ _ _ | .sleeps _ _ _ | .woken _ _ _ | .result _ _ _ => 0

section Lives

variable {r} {noted : List Entry} {p q : Point r.type} {fiber : FiberId} {w : World}
  {I : Standing → Prop} {es : List Event} {a : Standing}

/-- **Whatever worlds it finds, the fiber comes to the next point** by a few steps of its own. -/
theorem Tells.comes (htells : r.Tells noted p) (hnext : r.next? w p = some q) : ∃ steps,
    steps.length ≤ 6 ∧ (steps = [] → q.rank < p.rank) ∧
      RoutineIn fiber r.Going w (r.standing p) steps (r.standing q) := by
  cases p with
  | attempt _ | asks _ _ _ | sleeps _ _ _ | result _ _ _ => cases hnext
  | round exits =>
    obtain rfl := Option.some.inj hnext
    obtain ⟨steps, hlength, -, hroutine⟩ := @routine_round r fiber _ htells.1.length_le
    exact ⟨steps, by omega, fun _ => Nat.zero_lt_one, hroutine.inWorld w⟩
  | woken exits h millis =>
    obtain rfl := Option.some.inj hnext
    obtain ⟨steps, hlength, hne, hroutine⟩ := @routine_woken fiber r exits h millis
    exact ⟨steps, by omega, fun hnil => absurd hnil hne, hroutine.inWorld w⟩
  | answered exits h o =>
    obtain rfl := Option.some.inj hnext
    obtain ⟨-, -, ⟨test, -, -, -, hrule, -⟩, -⟩ := htells
    obtain ⟨steps, hlength, hne, hroutine⟩ := @routine_decided fiber r ⟨test, hrule⟩ exits h o
    exact ⟨steps, by omega, fun hnil => absurd hnil hne, hroutine.inWorld w⟩
  | ended exits o =>
    obtain rfl := Option.some.inj hnext
    cases hlast : r.isLast exits.length with
    | true =>
      refine ⟨[], by simp, fun _ => Nat.zero_lt_one, ?_⟩
      simp only [standing, inner_of_isLast hlast, if_true]
      exact .done
    | false =>
      cases o with
      | done v =>
        obtain ⟨steps, hlength, hne, hroutine⟩ := @routine_value r fiber _ hlast v
        exact ⟨steps, by omega, fun hnil => absurd hnil hne, hroutine.inWorld w⟩
      | halt g =>
        -- the failure is looked at, and judged in the world in which it is
        obtain ⟨steps, hlength, hroutine⟩ :=
          @routine_judge fiber r exits w (g.untag r.type)
        rw [← @after_halt r fiber _ hlast w g] at hroutine
        exact ⟨_ :: steps, by simp; omega, by simp, .cons (going_inner hlast _) hroutine⟩

theorem standing_active (r : Retry) (p : Point r.type) :
    ∃ run step, r.standing p = .active run step := by
  cases p <;> exact ⟨_, _, rfl⟩

/-- A fiber that goes on by itself has come to the next point already, or it comes there by at
least one step. -/
theorem Tells.comes_or_idle (htells : r.Tells noted p) (hnext : ∀ w, ∃ q, r.next? w p = some q) :
    (∃ w q, r.next? w p = some q ∧ q.rank < p.rank ∧
        RoutineIn fiber r.Going w (r.standing p) [] (r.standing q)) ∨
      ∀ w, ∃ q steps, r.next? w p = some q ∧ steps.length ≤ 6 ∧ steps ≠ [] ∧
        RoutineIn fiber r.Going w (r.standing p) steps (r.standing q) := by
  refine or_iff_not_imp_left.mpr fun hidle w => ?_
  obtain ⟨q, hq⟩ := hnext w
  obtain ⟨steps, hlength, hrank, hroutine⟩ := htells.comes hq
  refine ⟨q, steps, hq, hlength, ?_, hroutine⟩
  rintro rfl
  exact hidle ⟨w, q, hq, hrank rfl, hroutine⟩

/-- **A fiber that goes on by itself comes to the next point**, or is on the way to it. -/
theorem Tells.pass (htells : r.Tells noted p) (hcourse : Course fiber I (r.standing p) es a)
    (hfree : Unhindered fiber es) (hnext : ∀ w, ∃ q, r.next? w p = some q) :
    r.Within fiber p es a ∨ ∃ es₁ es₂ noted' q, es = es₁ ++ es₂ ∧
      r.Leads fiber p es₁ noted' q ∧ Course fiber I (r.standing q) es₂ a ∧
        2 * es₂.length + q.rank < 2 * es.length + p.rank := by
  rcases @comes_or_idle _ _ _ fiber htells hnext with ⟨w, q, hq, hrank, hroutine⟩ | hcomes
  · -- it has come there already
    refine Or.inr ⟨[], es, [], q, rfl, .passes hq hroutine ⟨.nil, by simp⟩, ?_, by omega⟩
    generalize r.standing p = b at hroutine hcourse
    cases hroutine
    exact hcourse
  obtain ⟨run, step, hstanding⟩ := r.standing_active p
  generalize hb : r.standing p = b at hcourse
  cases hcourse with
  | rest =>
    subst hb
    exact Or.inl (.ready hcomes)
  | @go _ _ _ e es' _ hgoes hrest =>
    obtain rfl := hstanding.symm.trans hb
    obtain ⟨w, rfl, -, rfl⟩ := hgoes.of_free (hfree.free _ List.mem_cons_self)
    obtain ⟨q, steps, hq, hlength, hne, hroutine⟩ := hcomes w
    have hsteps := hroutine
    rw [hb] at hsteps
    generalize hd : r.standing q = d at hsteps
    cases hsteps with
    | done => exact absurd rfl hne
    | @cons _ _ _ steps _ hsteps =>
      subst hd
      have hfirst : ∀ {es : List Event}, ∀ e ∈ (Event.iterated w run step :: es).head?,
          e.world? = some w := by
        rintro es e he
        obtain rfl := Option.some.inj he
        rfl
      rcases hrest.split_routine hsteps hfree.tail with
        ⟨made, left, rfl, hmore, hmade, hleft⟩ | ⟨es₁, es₂, rfl, hmade, hcourse⟩
      · exact Or.inl (@Within.passing _ _ _ _ _ ((run, step) :: made) left _ _ hq hroutine hlength
          ⟨.cons ⟨w, rfl⟩ hmade, hfirst⟩ hleft hmore)
      · have hrank : q.rank ≤ 1 := by cases q <;> simp [Point.rank]
        refine Or.inr ⟨_ :: es₁, es₂, [], q, rfl,
          .passes hq hroutine ⟨.cons ⟨w, rfl⟩ hmade, hfirst⟩, hcourse, ?_⟩
        simp only [List.length_cons, List.length_append]
        omega

/-- An evaluation settles, unless the fiber stays inside of it. -/
theorem split_evaluation {base : RunState} {i : Instruction}
    (hcourse : Course fiber I (.active base (.eval i)) es a) :
    (Course fiber (Inside (fun _ => True) base) (.active base (.eval i)) es a ∧
        Inside (fun _ => True) base a) ∨
      ∃ es₁ es₂ o, es = es₁ ++ es₂ ∧ es₁ ≠ [] ∧
        Course fiber (Inside (fun _ => True) base) (.active base (.eval i)) es₁ (.handed base o) ∧
        Course fiber I (.handed base o) es₂ a := by
  rcases @Course.split base _ _ _ _ _ hcourse (inside_eval base i) with
    hstays | ⟨es₁, es₂, o, rfl, hcourse, -, hrest⟩
  · exact Or.inl hstays
  · refine Or.inr ⟨es₁, es₂, o, rfl, ?_, hcourse, hrest⟩
    rintro rfl
    generalize hend : Standing.handed base o = d at hcourse
    cases hcourse
    cases o <;> cases hend

/-- **A fiber comes to the next point, or it has not come there yet.** -/
theorem Tells.step (htells : r.Tells noted p) (hcourse : Course fiber I (r.standing p) es a)
    (hfree : Unhindered fiber es) :
    r.Within fiber p es a ∨ ∃ es₁ es₂ noted' q, es = es₁ ++ es₂ ∧
      r.Leads fiber p es₁ noted' q ∧ Course fiber I (r.standing q) es₂ a ∧
        2 * es₂.length + q.rank < 2 * es.length + p.rank := by
  have hless : ∀ {es₁ es₂ : List Event} {q : Point r.type}, es₁ ≠ [] → q.rank ≤ 1 →
      2 * es₂.length + q.rank < 2 * (es₁ ++ es₂).length + p.rank := by
    intro es₁ es₂ q hne hrank
    have hpos := List.length_pos_iff.mpr hne
    rw [List.length_append]
    omega
  cases p with
  | round exits => exact htells.pass hcourse hfree fun w => ⟨_, rfl⟩
  | ended exits o => exact htells.pass hcourse hfree fun w => ⟨_, rfl⟩
  | answered exits h o => exact htells.pass hcourse hfree fun w => ⟨_, rfl⟩
  | woken exits h millis => exact htells.pass hcourse hfree fun w => ⟨_, rfl⟩
  | result exits x o => exact Or.inl (.finished hcourse.life)
  | attempt exits =>
    rcases split_evaluation hcourse with
      ⟨hcourse, hinside⟩ | ⟨es₁, es₂, o, rfl, hne, hcourse, hrest⟩
    · exact Or.inl (.trying hcourse hinside)
    · exact Or.inr ⟨es₁, es₂, _, _, rfl, .tries hcourse, hrest, hless hne (Nat.le_refl 1)⟩
  | asks exits h decision =>
    rcases split_evaluation hcourse with
      ⟨hcourse, hinside⟩ | ⟨es₁, es₂, o, rfl, hne, hcourse, hrest⟩
    · exact Or.inl (.deciding hcourse hinside)
    · exact Or.inr ⟨es₁, es₂, _, _, rfl, .decides hcourse, hrest, hless hne (Nat.zero_le 1)⟩
  | sleeps exits h millis =>
    rcases hcourse.split_sleep hfree with
      ⟨rfl, rfl⟩ | ⟨w, ⟨rfl, rfl⟩ | ⟨es', rfl, hrest⟩⟩
    · exact Or.inl .tired
    · exact Or.inl .asleep
    · exact Or.inr ⟨[_, _], es', _, .woken exits h millis, rfl, .sleeps, hrest,
        @hless [_, _] es' (.woken exits h millis) (List.cons_ne_nil _ _) (Nat.zero_le 1)⟩

/-- **Every course of a fiber that tries again leads from one point to the next.** -/
theorem Tells.course (htells : r.Tells noted p) (hcourse : Course fiber I (r.standing p) es a)
    (hfree : Unhindered fiber es) : ∃ es₁ es₂ noted' q, es = es₁ ++ es₂ ∧
      r.Path fiber p es₁ noted' q ∧ r.Within fiber q es₂ a ∧
        Course fiber I (r.standing q) es₂ a := by
  -- on what is left, and on how often it may come further without doing anything
  induction hn : 2 * es.length + p.rank using Nat.strongRecOn generalizing noted p es with
  | _ n ih =>
    subst hn
    rcases htells.step hcourse hfree with
      hwithin | ⟨es₁, es₂, noted', q, rfl, hleads, hrest, hless⟩
    · exact ⟨[], es, [], p, rfl, .rest, hwithin, hcourse⟩
    · obtain ⟨es₃, es₄, noted'', q', rfl, hpath, hwithin⟩ :=
        ih _ hless (htells.leads hleads) hrest hfree.suffix rfl
      exact ⟨es₁ ++ es₃, es₄, _, q', (List.append_assoc ..).symm, .go hleads hpath, hwithin⟩

/-- **As long as the retry has not ended**, the fiber stands above where it began. -/
theorem Within.going (h : r.Within fiber p es a) :
    (∃ exits x o, p = .result exits x o) ∨ r.Going a := by
  cases h with
  | ready hcomes =>
    obtain ⟨q, steps, -, -, hne, hroutine⟩ := hcomes (.init 0)
    exact Or.inr (hroutine.admits hne)
  | passing _ _ _ _ hroutine hne => exact Or.inr (hroutine.admits hne)
  | @trying exits _ _ _ hinside =>
    refine Or.inr ?_
    cases hlast : r.isLast exits.length with
    | true => rwa [inner_of_isLast hlast] at hinside
    | false => exact hinside.weaken (r.inner_above _) (length_lt_inner hlast)
  | deciding _ hinside =>
    exact Or.inr (hinside.weaken (.chain _ r.outer_above)
      (Nat.lt_succ_of_le r.outer_above.suffix.length_le))
  | tired => exact Or.inr (going_eval (.chain _ .base) _)
  | asleep => exact Or.inr (.chain _ .base)
  | finished _ => exact Or.inl ⟨_, _, _, rfl⟩

/-- **When a fiber has finished trying**, what it has done has led to the result. -/
theorem Tells.settled {o : Outcome} (htells : r.Tells noted p)
    (hcourse : Course fiber r.Going (r.standing p) es (.handed r.base o))
    (hfree : Unhindered fiber es) : ∃ noted' exits x,
      r.Path fiber p es noted' (.result exits x o) := by
  obtain ⟨es₁, es₂, noted', q, rfl, hpath, hwithin, hrest⟩ := htells.course hcourse hfree
  rcases hwithin.going with ⟨exits, x, o', rfl⟩ | hgoing
  · -- from where it has ended it has gone no further
    obtain ⟨rfl, rfl⟩ := hrest.eq_of_handed
    exact ⟨noted', exits, x, by rwa [List.append_nil]⟩
  · have hout := hgoing.2 rfl
    rw [Step.isOutcome_ofOutcome] at hout
    cases hout

end Lives

theorem tells_start (r : Retry) : r.Tells [] (.round []) := ⟨by simp [WentOn], rfl⟩

end Retry

/-! ### Runs -/

namespace Workshop

variable {budget minted : Nat} {s : Workshop} {record : List (FiberId × Event)} {fiber : FiberId}

/-- **A fiber that is not asked to stop tries again as the rule says.**  What it does leads from one
point to the next, and what is noted of it fits how far it has come: the attempts but the last
one are those that another one follows, with the decisions and delays of the rule between them,
and the outcome is that of the last attempt or of the decision against another one.  Attempts
are counted without overflow, and they do not pile up. -/
theorem Run.retries (h : Run budget (init minted) record s)
    (hunasked : s.world.store.isInterrupted fiber = false) (r : Retry) {past es : List Event}
    {a : Standing} (hhistory : History s record fiber (past ++ es) a)
    (hlife : Life fiber (.active r.base (.eval r.effect)) es a) :
    (∃ es₁ es₂ noted p, es = es₁ ++ es₂ ∧ r.Path fiber (.round []) es₁ noted p ∧
      r.Within fiber p es₂ a ∧ r.Tells noted p ∧ r.Counts p ∧
        ((∃ exits x o, p = .result exits x o) ∨ r.Going a)) ∧
    (∀ es₁ es₂ o, es = es₁ ++ es₂ →
      Course fiber r.Going (.active r.base (.eval r.effect)) es₁ (.handed r.base o) →
        ∃ noted exits x, r.Path fiber (.round []) es₁ noted (.result exits x o) ∧
          r.Tells noted (.result exits x o) ∧ r.Counts (.result exits x o)) ∧
    (∀ k, RunState.Above (fun _ => True) r.base (r.inner k) ∧
      (r.inner k).stack.length ≤ (r.inner 0).stack.length) ∧
    ∀ (type : ErrorType) (e : Effect type),
      (∀ test : Value → Action Bool,
        e.retryWhile test = (e.retryWhileM fun v => do
          let again ← test v
          pure (give again)) ∧
        e.retryUntil test = e.retryWhile fun v => do
          let enough ← test v
          pure !enough) ∧
      ∀ test : Value → Bool,
        (e.retryWhile fun v => pure (test v)) = (e.retryWhileM fun v => pure (give (test v))) ∧
          (e.retryUntil fun v => pure (test v)) =
            e.retryWhileM fun v => pure (give (!test v)) := by
  have hstart : Standing.active r.base (.eval r.effect) = r.standing (.round []) := by
    rw [← r.round_zero]
    rfl
  have hfree := h.unhindered hunasked hhistory
  rw [hstart] at hlife ⊢
  refine ⟨?_, fun es₁ es₂ o hes hcourse => ?_, fun k => ⟨r.inner_above k, r.length_inner_le k⟩,
    fun type e => ⟨fun test => ⟨rfl, rfl⟩, fun test => ⟨rfl, rfl⟩⟩⟩
  · obtain ⟨es₁, es₂, noted, p, hes, hpath, hwithin, -⟩ := r.tells_start.course hlife hfree
    have htells := r.tells_start.path hpath
    exact ⟨es₁, es₂, noted, p, hes, hpath, hwithin, htells, htells.counts, hwithin.going⟩
  · subst hes
    obtain ⟨noted, exits, x, hpath⟩ := r.tells_start.settled hcourse hfree.initial
    have htells := r.tells_start.path hpath
    exact ⟨noted, exits, x, hpath, htells, htells.counts⟩

/-- An effect that fails whenever it is tried, and that is tried once more after a delay. -/
def onceMore : Retry :=
  ⟨⟨"E"⟩, .start .unit true, fail (.int 1), .following (.constant 1 5) fun _ => pure true⟩

/-- The machine on which it is tried, while time passes. -/
def trying (n : Nat) : Machine :=
  (Machine.startRoot (.init 16 0) onceMore.effect .unit (some ⟨"E"⟩)).2.moves (some ⟨1⟩) n

/-- It is tried to the end, and the clock tells that the fiber has slept. -/
theorem Run.retries_onceMore :
    Run 16 (init 0) ((trying 0).record (some ⟨1⟩) 20) (trying 20).workshop ∧
      (trying 20).world.store.isInterrupted ⟨1⟩ = false ∧ (trying 20).world.store.now = 5 ∧
      ∃ es o, History (trying 20).workshop ((trying 0).record (some ⟨1⟩) 20) ⟨1⟩
          ([.started .unit true onceMore.effect] ++ es) (.ended o) ∧
        Life ⟨1⟩ (.active onceMore.base (.eval onceMore.effect)) es (.ended o) ∧
        ∃ es₁ es₂ noted exits x o, es = es₁ ++ es₂ ∧
          onceMore.Path ⟨1⟩ (.round []) es₁ noted (.result exits x o) ∧
            onceMore.Tells noted (.result exits x o) ∧
              onceMore.Counts (.result exits x o) := by
  have hmoves : Run 16 (trying 0).workshop ((trying 0).record (some ⟨1⟩) 20)
      (trying 20).workshop := Machine.moves_run (some ⟨1⟩) 20 (trying 0)
  have hrun : Run 16 (init 0) ((trying 0).record (some ⟨1⟩) 20) (trying 20).workshop :=
    .idle (.start onceMore.effect .unit (some ⟨"E"⟩)) hmoves
  have hunasked : (trying 20).world.store.isInterrupted ⟨1⟩ = false := by decide +kernel
  have hfinished : (trying 20).world.store.isFinished ⟨1⟩ = true := by decide +kernel
  obtain ⟨es, a, hhistory⟩ := @Run.history_root 16 0 _ [] _ (World.init 0) [] onceMore.effect
    .unit (some ⟨"E"⟩) .rest hmoves
  obtain ⟨o, rfl⟩ := hhistory.stands.ended_of_isFinished hfinished
  have hlife : Life ⟨1⟩ (.active onceMore.base (.eval onceMore.effect)) es (.ended o) := by
    cases hhistory.life with
    | go _ hgoes hrest =>
      cases hgoes
      exact hrest
  obtain ⟨es₁, es₂, noted, p, hes, hpath, -, htells, hcounts, ⟨exits, x, o', rfl⟩ | hgoing⟩ :=
    (@Run.retries 16 0 _ _ ⟨1⟩ hrun hunasked onceMore [.started .unit true onceMore.effect] _ _
      hhistory hlife).1
  · exact ⟨hrun, hunasked, by decide +kernel, es, o, hhistory, hlife, es₁, es₂, noted, exits, x,
      o', hes, hpath, htells, hcounts⟩
  · exact hgoing.elim

end Workshop

end Fibers