import Mathlib.Data.List.Forall2
import Fibers.Proofs.Observers

/-!
# What an evaluation has done when it settles

An evaluation of an instruction has settled when the fiber is handed its outcome.  What it has done
to other fibers until then, and how it ends, follows from the instruction piece by piece: `Settles`
says what holds then, and there is a rule for each way in which an evaluation goes on.

A prospect is what is known of the rest of a life.  The waits of an evaluation are told what is so
(`Truthful`).  A cancellation cannot come in between in a state that is calm: because interruption
is not allowed there, because no cancellation is known to take effect in it (`Spares`), or because
nobody asks the fiber to stop.

## Main definitions

* `Dealing`, `dealings` — what a fiber does to others.
* `Prospect`, `Truthful`, `Spares` — what is known of the rest of a life.
* `Settles` — what holds when an evaluation settles.
* `Workshop.Evaluated` — a fiber has evaluated an instruction in the course of a run.

## Main results

* `Settles.step`, `Settles.seq` — an iteration, and one evaluation inside of another.
* `Settles.wait`, `Settles.region_wait` — waits.
* `Settles.mask`, `Settles.collectAll` — masked regions, and evaluations one after the other.
* `Workshop.Run.truthful` — what a fiber is told when it waits is so.
* `Workshop.Evaluated.settles` — **what holds in every run when an evaluation has settled.**
-/

namespace Fibers

/-! ### Dealings with other fibers -/

/-- What a fiber does to another one. -/
inductive Dealing where
  /-- It starts the fiber with an instruction. -/
  | forks (child : FiberId) (i : Instruction)
  /-- It asks the fiber to stop. -/
  | signals (target : FiberId)

/-- What an event does to another fiber. -/
def Event.dealing? : Event → Option Dealing
  | .iterated w _ (.eval (.fork child _)) => some (.forks w.store.nextFiber child)
  | .iterated _ _ (.eval (.signal target)) => some (.signals target)
  | _ => none

/-- What is done to other fibers. -/
def dealings (es : List Event) : List Dealing := es.filterMap Event.dealing?

@[simp] theorem dealings_nil : dealings [] = [] := rfl

@[simp] theorem dealings_append (es es' : List Event) :
    dealings (es ++ es') = dealings es ++ dealings es' := List.filterMap_append

/-! ### What a fiber has to do with others -/

/-- What a fiber has to do with others. -/
inductive Act where
  /-- It does something to another one. -/
  | deals (dealing : Dealing)
  /-- It begins to wait. -/
  | waits (registration : Registration)

namespace Act

/-- It starts a fiber with an instruction. -/
abbrev forks (child : FiberId) (i : Instruction) : Act := .deals (.forks child i)

/-- It asks a fiber to stop. -/
abbrev signals (target : FiberId) : Act := .deals (.signals target)

/-- It waits for a fiber with failures of the given type. -/
abbrev awaits (type : ErrorType) (fiber : FiberId) : Act := .waits (.awaitExit fiber type)

/-- What is done to another fiber. -/
def dealing? : Act → Option Dealing
  | .deals d => some d
  | .waits _ => none

/-- What is waited for. -/
def wait? : Act → Option Registration
  | .deals _ => none
  | .waits registration => some registration

end Act

/-- What an event has to do with others. -/
def Event.act? : Event → Option Act
  | .iterated w _ (.eval (.fork child _)) => some (.forks w.store.nextFiber child)
  | .iterated _ _ (.eval (.signal target)) => some (.signals target)
  | .iterated _ _ (.eval (.wait registration)) => some (.waits registration)
  | _ => none

/-- What a fiber does to others, and what it waits for, in order. -/
def acts (es : List Event) : List Act := es.filterMap Event.act?

/-- What is done to other fibers. -/
def dealt (as : List Act) : List Dealing := as.filterMap Act.dealing?

/-- What is waited for. -/
def waited (as : List Act) : List Registration := as.filterMap Act.wait?

@[simp] theorem acts_nil : acts [] = [] := rfl

@[simp] theorem acts_append (es es' : List Event) : acts (es ++ es') = acts es ++ acts es' :=
  List.filterMap_append

theorem acts_cons (e : Event) (es : List Event) : acts (e :: es) = e.act?.toList ++ acts es := by
  unfold acts
  cases h : e.act? with
  | none => rw [List.filterMap_cons_none h]; rfl
  | some d => rw [List.filterMap_cons_some h]; rfl

/-- What a fiber has to do with others is in its doings. -/
theorem acts_filter (es : List Event) : acts (es.filter Event.isDoing) = acts es := by
  induction es with
  | nil => rfl
  | cons e es ih =>
    cases hdoing : e.isDoing with
    | true => rw [List.filter_cons_of_pos hdoing, acts_cons, acts_cons, ih]
    | false =>
      rw [List.filter_cons_of_neg (by simp [hdoing]), ih, acts_cons]
      cases e with
      | stopped _ | iterated _ _ _ => cases hdoing
      | started _ _ _ | resumed _ | cancelled _ => rfl

/-- Who does nothing has nothing to do with others. -/
theorem acts_of_idle {es : List Event} (h : es.filter Event.isDoing = []) : acts es = [] := by
  rw [← acts_filter, h, acts_nil]

@[simp] theorem dealt_nil : dealt [] = [] := rfl

@[simp] theorem dealt_deals (d : Dealing) (as : List Act) :
    dealt (.deals d :: as) = d :: dealt as := rfl

@[simp] theorem dealt_waits (registration : Registration) (as : List Act) :
    dealt (.waits registration :: as) = dealt as := rfl

@[simp] theorem dealt_append (as as' : List Act) : dealt (as ++ as') = dealt as ++ dealt as' :=
  List.filterMap_append

@[simp] theorem dealt_map_deals (ds : List Dealing) : dealt (ds.map .deals) = ds := by
  induction ds with
  | nil => rfl
  | cons d ds ih => rw [List.map_cons, dealt_deals, ih]

@[simp] theorem waited_nil : waited [] = [] := rfl

@[simp] theorem waited_deals (d : Dealing) (as : List Act) :
    waited (.deals d :: as) = waited as := rfl

@[simp] theorem waited_waits (registration : Registration) (as : List Act) :
    waited (.waits registration :: as) = registration :: waited as := rfl

@[simp] theorem waited_append (as as' : List Act) :
    waited (as ++ as') = waited as ++ waited as' := List.filterMap_append

theorem Event.dealing?_eq (e : Event) : e.act?.bind Act.dealing? = e.dealing? := by
  cases e with
  | iterated w run step =>
    cases step with
    | eval i => cases i <;> rfl
    | value _ | halt _ | attempt _ => rfl
  | started _ _ _ | stopped _ | resumed _ | cancelled _ => rfl

@[simp] theorem dealt_acts (es : List Event) : dealt (acts es) = dealings es := by
  unfold dealt acts dealings
  rw [List.filterMap_filterMap]
  exact congrArg (List.filterMap · es) (funext Event.dealing?_eq)

/-! ### What is known of a life -/

/-- What is known of the rest of a life. -/
structure Prospect where
  /-- The data in the end. -/
  final : Store
  /-- What else is known of how a wait ends. -/
  tells : Registration → Outcome → Prop
  /-- Whether the fiber is asked to stop. -/
  asked : Prop
  /-- Where no cancellation takes effect. -/
  spared : RunState → Prop

/-- A wait may end with an outcome. -/
def Prospect.Answers (p : Prospect) (registration : Registration) (o : Outcome) : Prop :=
  registration.Answered p.final o ∧ p.tells registration o

/-- A wait for a fiber may end with an exit. -/
def Prospect.Exits (p : Prospect) (type : ErrorType) (f : FiberId) (x : Exit Value Value) : Prop :=
  p.Answers (.awaitExit f type) (.done (.exit x))

theorem Prospect.Exits.isFinished {p : Prospect} {type : ErrorType} {f : FiberId}
    {x : Exit Value Value} (h : p.Exits type f x) : p.final.isFinished f = true := h.1.1

/-- Nothing is known but the data in the end, and where no cancellation takes effect. -/
def Prospect.plain (final : Store) (spared : RunState → Prop) : Prospect where
  final := final
  tells _ _ := True
  asked := True
  spared := spared

/-- How a fiber goes on after a wait: with what is so, or with a cancellation. -/
def Replies (p : Prospect) (run : RunState) (registration : Registration) (run' : RunState)
    (step : Step) : Prop :=
  run' = run ∧ ((∃ o, step = .ofOutcome o ∧ p.Answers registration o) ∨
    p.asked ∧ run.interruptible = true ∧ ∃ source, step = .interrupt source)

/-- The waits of a life are told what is so in the end, and it is not stopped unasked. -/
structure Truthful (p : Prospect) (es : List Event) (c : Standing) : Prop where
  /-- A fiber that does something after a wait goes on from it. -/
  goesOn : ∀ {before w run registration after w' run' step more},
    es = before ++ .iterated w run (.eval (.wait registration)) :: after →
      after.filter Event.isDoing = .iterated w' run' step :: more →
        Replies p run registration run' step
  /-- A fiber that has not done anything since is parked, or about to go on. -/
  stands : ∀ {before w run registration after run' step},
    es = before ++ .iterated w run (.eval (.wait registration)) :: after →
      after.filter Event.isDoing = [] → c = .active run' step →
        Replies p run registration run' step
  /-- A fiber that stops has been asked to. -/
  stopped : ∀ {w}, .stopped w ∈ es → p.asked

/-- Whether an event can put a cancellation in the place of what a fiber is doing. -/
def Event.canCut : Event → Bool
  | .stopped _ => true
  | .cancelled _ => true
  | .resumed _ => true
  | .iterated _ _ (.eval (.wait _)) => true
  | _ => false

/-- A fiber is left to unwind with a cancellation, by an event that stops it or ends its wait. -/
structure Cut (fiber : FiberId) (a : Standing) (e : Event) (run : RunState) : Prop where
  canCut : e.canCut = true
  goes : ∃ source, Goes fiber a e (.active run (.interrupt source))

/-- No cancellation takes effect in a state that is spared. -/
def Spares (fiber : FiberId) (spared : RunState → Prop) (a : Standing) (es : List Event) : Prop :=
  ∀ before e after b run, es = before ++ e :: after → Life fiber a before b →
    Cut fiber b e run → ¬ spared run

/-- No cancellation takes effect in a state. -/
def Calm (p : Prospect) (run : RunState) : Prop :=
  run.interruptible = false ∨ p.spared run ∨ ¬ p.asked

/-- A cancellation that may take effect in a state leaves what is wanted. -/
def Bears (p : Prospect) (run : RunState) (Q : Outcome → List Act → Prop) : Prop :=
  Calm p run ∨ ∀ source, Q (.halt (.of (.interrupt source))) []

theorem bears_of_asked {p : Prospect} {run : RunState} {Q : Outcome → List Act → Prop}
    (h : p.asked → ∀ source, Q (.halt (.of (.interrupt source))) []) : Bears p run Q := by
  by_cases hasked : p.asked
  · exact Or.inr (h hasked)
  · exact Or.inl (Or.inr (Or.inr hasked))

section Life

variable {fiber : FiberId} {p : Prospect} {spared : RunState → Prop} {I : Standing → Prop}
  {a b c : Standing} {e : Event} {es es' : List Event} {run run' : RunState} {step : Step}
  {registration : Registration}

theorem Truthful.suffix (h : Truthful p (es ++ es') c) : Truthful p es' c where
  goesOn heq := h.goesOn (by rw [heq, List.append_assoc])
  stands heq := h.stands (by rw [heq, List.append_assoc])
  stopped hmem := h.stopped (List.mem_append_right _ hmem)

theorem Truthful.tail (h : Truthful p (e :: es) c) : Truthful p es c := by
  rw [← List.singleton_append] at h
  exact h.suffix

/-- A fiber goes on after a wait with what is so, unless it drops what it has been told. -/
theorem Truthful.replies {w : World}
    (h : Truthful p (.iterated w run (.eval (.wait registration)) :: (es ++ es')) c)
    (hidle : es.filter Event.isDoing = []) (hlife : Life fiber (.active run' step) es' c) :
    (∃ w' more d, es' = .stopped w' :: more ∧ Goes fiber (.active run' step) (.stopped w') d) ∨
      Replies p run registration run' step := by
  cases hlife with
  | rest =>
    refine Or.inr (h.stands (List.nil_append _).symm ?_ rfl)
    rw [List.append_nil, hidle]
  | @go _ _ _ _ more _ hgoes _ =>
    have hgoes' := hgoes
    cases hgoes with
    | stopped _ _ => exact Or.inl ⟨_, _, _, rfl, hgoes'⟩
    | @iterated w' _ _ _ =>
      have hnext : (es ++ .iterated w' run' step :: more).filter Event.isDoing =
          .iterated w' run' step :: more.filter Event.isDoing := by
        rw [List.filter_append, hidle, List.nil_append, List.filter_cons_of_pos rfl]
      exact Or.inr (h.goesOn (List.nil_append _).symm hnext)

theorem Spares.suffix (h : Spares fiber spared a (es ++ es')) (hes : Life fiber a es b) :
    Spares fiber spared b es' :=
  fun before e after _ _ heq hlife =>
    h (es ++ before) e after _ _ (by rw [heq, List.append_assoc]) (hes.append hlife)

theorem Spares.tail (h : Spares fiber spared a (e :: es)) (hgoes : Goes fiber a e b) :
    Spares fiber spared b es := by
  rw [← List.singleton_append] at h
  exact h.suffix (.one trivial hgoes)

theorem Spares.of_prefix (h : Spares fiber spared a es') (hes : es <+: es') :
    Spares fiber spared a es := by
  obtain ⟨more, rfl⟩ := hes
  exact fun before e after _ _ heq hlife =>
    h before e (after ++ more) _ _ (by rw [heq, List.append_assoc, List.cons_append]) hlife

/-- In a calm state a fiber that is about to do something iterates. -/
theorem Spares.of_active (h : Spares fiber p.spared (.active run step) (e :: es))
    (hcalm : Calm p run) (htruthful : Truthful p (e :: es') c)
    (hgoes : Goes fiber (.active run step) e b) :
    ∃ w : World, e = .iterated w run step ∧
      b = w.after fiber (step.plan (w.pending fiber) fiber run) := by
  cases hgoes with
  | @iterated w _ _ _ => exact ⟨w, rfl, rfl⟩
  | stopped hgives hmust =>
    rcases hcalm with hfalse | hspared | hunasked
    · simp [World.mustStop, hfalse] at hmust
    · exact absurd hspared (h [] _ _ _ _ rfl .rest ⟨rfl, _, .stopped hgives hmust⟩)
    · exact absurd (htruthful.stopped List.mem_cons_self) hunasked

/-- An event has one outcome. -/
theorem Goes.eq (h : Goes fiber a e b) (h' : Goes fiber a e c) : b = c := by
  cases h <;> cases h' <;> rfl

theorem Course.eq (h : Course fiber I a es b) (h' : Life fiber a es c) : b = c := by
  induction h with
  | rest =>
    cases h'
    rfl
  | go _ hgoes _ ih =>
    cases h' with
    | go _ hgoes' hrest => exact ih (hgoes.eq hgoes' ▸ hrest)

/-- A fiber that has been handed an outcome does something next, and does not begin to wait. -/
theorem Goes.of_handed {base : RunState} {o : Outcome} (h : Goes fiber (.handed base o) e b) :
    e.isDoing = true ∧ e.wait? = none := by
  generalize hstart : Standing.handed base o = start at h
  cases h with
  | started _ _ _ | resumed _ | cancelled _ _ => cases hstart
  | stopped _ _ => exact ⟨rfl, rfl⟩
  | iterated _ =>
    obtain ⟨-, rfl⟩ := Standing.active.inj hstart
    cases o <;> exact ⟨rfl, rfl⟩

/-- A cancellation that takes the place of an outcome takes effect where that is handed to. -/
theorem Cut.eq_of_handed {base : RunState} {o : Outcome} (h : Cut fiber (.handed base o) e run) :
    run = base := by
  obtain ⟨hcan, source, hgoes⟩ := h
  generalize hb : Standing.active run (.interrupt source) = b at hgoes
  cases hgoes with
  | stopped _ _ => exact (Standing.active.inj hb).1
  | iterated _ => cases o <;> cases hcan

/-- What is spared while an evaluation lasts is spared when something more happens, if the state in
which it settles is not. -/
theorem Spares.append_one {base : RunState} {o : Outcome} (h : Spares fiber spared a es)
    (hes : Life fiber a es (.handed base o)) (hbase : ¬ spared base) (more : List Event) :
    Spares fiber spared a (es ++ more.take 1) := by
  intro before e after b run heq hlife hcut
  have hnext : before = es → ¬ spared run := by
    rintro rfl
    rw [← hes.eq hlife] at hcut
    exact hcut.eq_of_handed ▸ hbase
  rcases List.append_eq_append_iff.mp heq with ⟨rest, rfl, hrest⟩ | ⟨rest, rfl, hrest⟩
  · refine hnext ?_
    have hlength := congrArg List.length hrest
    simp only [List.length_take, List.length_append, List.length_cons] at hlength
    rw [List.eq_nil_of_length_eq_zero (show rest.length = 0 by omega), List.append_nil]
  · cases rest with
    | nil => exact hnext (List.append_nil _).symm
    | cons e' rest =>
      obtain ⟨rfl, -⟩ := List.cons.inj hrest
      exact h before e rest b run rfl hlife hcut

/-- A fiber that has begun to wait, and later is handed an outcome, has been stopped before it
began, or goes on with what it has left; if it goes on with a cancellation, something has put that
in the place of the wait. -/
theorem Course.of_wait {base : RunState} {o : Outcome}
    (h : Course fiber I (.active run (.eval (.wait registration))) es (.handed base o)) :
    (∃ w es' source, es = .stopped w :: es' ∧
        Goes fiber (.active run (.eval (.wait registration))) (.stopped w)
          (.active run (.interrupt source)) ∧
        Course fiber I (.active run (.interrupt source)) es' (.handed base o)) ∨
      ∃ w idle es' step, es = .iterated w run (.eval (.wait registration)) :: (idle ++ es') ∧
        idle.filter Event.isDoing = [] ∧
        Life fiber (.active run (.eval (.wait registration)))
          (.iterated w run (.eval (.wait registration)) :: idle) (.active run step) ∧
        Course fiber I (.active run step) es' (.handed base o) ∧
        ∀ source, step = .interrupt source → ∃ before e b,
          .iterated w run (.eval (.wait registration)) :: idle = before ++ [e] ∧
            Life fiber (.active run (.eval (.wait registration))) before b ∧
            Cut fiber b e run := by
  generalize hend : Standing.handed base o = d at h
  cases h with
  | rest => cases o <;> cases hend
  | go _ hgoes hrest =>
    subst hend
    have hgoes' := hgoes
    cases hgoes with
    | stopped _ _ => exact Or.inl ⟨_, _, _, rfl, hgoes', hrest⟩
    | @iterated w _ _ hdivert =>
      refine Or.inr ?_
      have hafter : (∃ step, w.after fiber (Step.plan (w.pending fiber) fiber run
          (.eval (.wait registration))) = .active run step) ∨
          w.after fiber (Step.plan (w.pending fiber) fiber run (.eval (.wait registration))) =
            .waiting run := World.after_of_rest rfl
      rcases hafter with ⟨step, hafter⟩ | hafter <;> rw [hafter] at hrest hgoes'
      · -- it goes on at once
        refine ⟨w, [], _, step, rfl, rfl, .one trivial hgoes', hrest, ?_⟩
        rintro source rfl
        exact ⟨[], _, _, rfl, .rest, ⟨rfl, source, hgoes'⟩⟩
      · generalize hend : Standing.handed base o = d at hrest
        cases hrest with
        | rest => cases hend
        | go _ hwake hrest =>
          subst hend
          have hfirst := @Course.one fiber (fun _ => True) _ _ _ trivial hgoes'
          cases hwake with
          | resumed o' =>
            have hwake := @Goes.resumed fiber run o'
            refine ⟨w, [.resumed o'], _, .ofOutcome o', rfl, rfl,
              .go trivial hgoes' (.one trivial hwake), hrest, fun source hsource => ?_⟩
            exact ⟨[_], _, _, rfl, hfirst, ⟨rfl, source, hsource ▸ hwake⟩⟩
          | cancelled source hallowed =>
            have hwake := @Goes.cancelled fiber run source hallowed
            exact ⟨w, [.cancelled source], _, .interrupt source, rfl, rfl,
              .go trivial hgoes' (.one trivial hwake), hrest, fun _ _ =>
              ⟨[_], _, _, rfl, hfirst, ⟨rfl, source, hwake⟩⟩⟩

/-- An evaluation that has settled has settled with one outcome. -/
theorem Course.eq_of_handed {p : Bool → Prop} {base : RunState} {o o' : Outcome}
    (h : Course fiber (Inside p base) (.handed base o) es (.handed base o')) :
    es = [] ∧ o' = o := by
  obtain ⟨rfl, heq⟩ := h.of_handed
  obtain ⟨-, hstep⟩ := Standing.active.inj heq
  refine ⟨rfl, ?_⟩
  cases o <;> cases o' <;> cases hstep <;> rfl

end Life

/-- Where interruption is not allowed, a handler gets every failure. -/
theorem RunState.planHalt_push_fold {run : RunState} (h : run.interruptible = false)
    {onHalt : Halt Failure → Action Instruction} {onDone : Value → Action Instruction}
    {sameError : Bool} (pending : Option FiberId) (failure : Halt Failure) :
    (run.push (.fold onHalt onDone sameError)).planHalt pending failure =
      .build run (onHalt failure) := by
  rw [interruptible] at h
  simp only [planHalt, push, stopsFor, interruptible, h, Bool.false_eq_true, if_false]

/-! ### Rules -/

/-- What holds of the outcome of an evaluation, and of what it has done to other fibers, when it
settles. -/
def Settles (fiber : FiberId) (p : Prospect) (run : RunState)
    (a : Standing) (Q : Outcome → List Act → Prop) : Prop :=
  ∀ es o after c, Course fiber (Inside (fun _ => True) run) a es (.handed run o) →
    Life fiber (.handed run o) after c → Truthful p (es ++ after) c →
      Spares fiber p.spared a (es ++ after.take 1) → Q o (acts es)

namespace Settles

variable {fiber : FiberId} {p : Prospect} {a : Standing}
  {run mid : RunState} {Q : Outcome → List Act → Prop}

theorem mono {Q' : Outcome → List Act → Prop} (h : Settles fiber p run a Q)
    (hQ : ∀ o as, Q o as → Q' o as) : Settles fiber p run a Q' :=
  fun _ _ _ _ hcourse hlife htruthful hspares =>
    hQ _ _ (h _ _ _ _ hcourse hlife htruthful hspares)

/-- An evaluation that has settled does nothing more. -/
theorem handed {o : Outcome} (h : Q o []) : Settles fiber p run (.handed run o) Q := by
  intro es o' after c hcourse _ _ _
  obtain ⟨rfl, rfl⟩ := hcourse.eq_of_handed
  exact h

/-- **An iteration**, unless a cancellation takes its place. -/
theorem step {run' : RunState} {step : Step} (hne : run' = run → step.isOutcome = false)
    (hstop : step.givesWay = true → Calm p run' ∨ ∀ source,
      Settles fiber p run (.active run' (.interrupt source)) Q)
    (h : ∀ w : World, Settles fiber p run
      (w.after fiber (step.plan (w.pending fiber) fiber run'))
      fun o as => Q o ((Event.iterated w run' step).act?.toList ++ as)) :
    Settles fiber p run (.active run' step) Q := by
  intro es o after c hcourse hlife htruthful hspares
  generalize hend : Standing.handed run o = d at hcourse
  cases hcourse with
  | rest =>
    -- it has not settled yet
    obtain ⟨rfl, rfl⟩ := Standing.active.inj hend
    rw [Step.isOutcome_ofOutcome] at hne
    cases hne rfl
  | go _ hgoes hrest =>
    subst hend
    have hgoes' := hgoes
    rw [acts_cons]
    cases hgoes with
    | stopped hgives _ =>
      rcases hstop hgives with hcalm | hstop
      · obtain ⟨w, heq, -⟩ := hspares.of_active hcalm htruthful hgoes'
        cases heq
      · exact hstop _ _ _ _ _ hrest hlife htruthful.tail (hspares.tail hgoes')
    | @iterated w _ _ _ => exact h w _ _ _ _ hrest hlife htruthful.tail (hspares.tail hgoes')

/-- **One evaluation inside of another.** -/
theorem seq {P : Outcome → List Act → Prop} (hlt : run.stack.length < mid.stack.length)
    (ha : Inside (fun _ => True) mid a)
    (h₁ : Settles fiber p mid a P)
    (h₂ : ∀ o as, P o as → Settles fiber p run (.handed mid o)
      fun o' as' => Q o' (as ++ as')) :
    Settles fiber p run a Q := by
  intro es o after c hcourse hlife htruthful hspares
  rcases hcourse.split ha with ⟨-, hinside⟩ | ⟨es₁, es₂, o₁, rfl, hfirst, hfirst', hsecond⟩
  · -- what is above is higher than what the outcome is handed to
    rcases hinside.1.eq_or_length_lt with heq | hlt'
    · rw [heq] at hlt
      omega
    · omega
  · rw [List.append_assoc] at htruthful hspares
    rw [acts_append]
    have hinitial : es₁ ++ (es₂ ++ after).take 1 <+: es₁ ++ (es₂ ++ after.take 1) := by
      rw [List.prefix_append_right_inj]
      cases es₂ with
      | nil => exact List.prefix_refl _
      | cons e es₂ => exact ⟨es₂ ++ after.take 1, by simp⟩
    exact h₂ o₁ _ (h₁ _ _ _ _ hfirst (hsecond.life.append hlife) htruthful
      (hspares.of_prefix hinitial)) _ _ _ _ hsecond hlife htruthful.suffix
      (hspares.suffix hfirst'.life)

/-! ### Single instructions -/

/-- A cancellation that takes effect where the evaluation has begun ends it. -/
theorem interrupted {source : FiberId} (h : Q (.halt (.of (.interrupt source))) []) :
    Settles fiber p run (.active run (.interrupt source)) Q :=
  @handed _ _ _ _ (.halt (.of (.interrupt source))) h

/-- An evaluation begins with an instruction. -/
theorem eval {i : Instruction} (hbears : Bears p run Q)
    (h : ∀ w : World, Settles fiber p run (w.after fiber (run.planEval fiber i))
      fun o as => Q o ((Event.iterated w run (.eval i)).act?.toList ++ as)) :
    Settles fiber p run (.active run (.eval i)) Q :=
  step (fun _ => rfl) (fun _ => hbears.imp_right fun hQ source => interrupted (hQ source)) h

theorem done {o : Outcome} (hcalm : Calm p run) (h : Q o []) :
    Settles fiber p run (.active run (.eval (.done o))) Q :=
  eval (Or.inl hcalm) fun _ => handed h

theorem signal {target : FiberId} (hcalm : Calm p run)
    (h : Q (.done .unit) [.signals target]) :
    Settles fiber p run (.active run (.eval (.signal target))) Q :=
  eval (Or.inl hcalm) fun _ =>
    @handed _ _ _ (fun o as => Q o ([Act.signals target] ++ as)) (.done .unit) h

theorem fork {child : Instruction} {daemon : Bool} (hcalm : Calm p run)
    (h : ∀ id, Q (.done (.fiber id)) [.forks id child]) :
    Settles fiber p run (.active run (.eval (.fork child daemon))) Q :=
  eval (Or.inl hcalm) fun w =>
    @handed _ _ _ (fun o as => Q o ([Act.forks w.store.nextFiber child] ++ as))
      (.done (.fiber _)) (h w.store.nextFiber)

/-- What an action builds is evaluated. -/
theorem suspend {code : Action Instruction} (hbears : Bears p run Q)
    (h : ∀ w : World, Settles fiber p run (.active run (.ofBuilt (code.run w).1)) Q) :
    Settles fiber p run (.active run (.eval (.suspend code))) Q :=
  eval hbears h

/-! ### Continuations -/

/-- What follows on an evaluation goes on with its value, or with its failure. -/
theorem chain {first : Instruction} {next : Value → Action Instruction}
    {P : Outcome → List Act → Prop} (hcalm : Calm p run)
    (hpush : Calm p (run.push (.chain next)))
    (h₁ : Settles fiber p (run.push (.chain next))
      (.active (run.push (.chain next)) (.eval first)) P)
    (hdone : ∀ v as, P (.done v) as → ∀ w : World, Settles fiber p run
      (.active run (.ofBuilt ((next v).run w).1)) fun o as' => Q o (as ++ as'))
    (hhalt : ∀ h as, P (.halt h) as → Q (.halt h) as) :
    Settles fiber p run (.active run (.eval (.chain first next))) Q := by
  have hne : run.push (.chain next) ≠ run := fun heq =>
    absurd (congrArg (fun r => r.stack.length) heq) (Nat.succ_ne_self _)
  refine eval (Or.inl hcalm) fun w => ?_
  refine seq (Nat.lt_succ_self _) ⟨.base, fun _ => rfl⟩ h₁ fun o as hQ => ?_
  cases o with
  | done v =>
    exact step (fun heq => absurd heq hne) (fun _ => Or.inl hpush) (hdone v as hQ)
  | halt failure =>
    refine step (fun heq => absurd heq hne) (fun _ => Or.inl hpush) fun w => ?_
    refine @handed _ _ _ (fun o' as' => Q o' (as ++ as')) (.halt failure) ?_
    rw [List.append_nil]
    exact hhalt failure as hQ

/-- What follows on an evaluation that ends with a value, and of which it is known what it does to
others. -/
theorem chain_value {first : Instruction} {next : Value → Action Instruction} {d : List Act}
    {R : Value → Prop} (hcalm : Calm p run) (hpush : Calm p (run.push (.chain next)))
    (h₁ : Settles fiber p (run.push (.chain next))
      (.active (run.push (.chain next)) (.eval first)) fun o as => ∃ v, o = .done v ∧ as = d ∧ R v)
    (h₂ : ∀ v, R v → ∀ w : World, Settles fiber p run
      (.active run (.ofBuilt ((next v).run w).1)) fun o as => Q o (d ++ as)) :
    Settles fiber p run (.active run (.eval (.chain first next))) Q := by
  refine chain hcalm hpush h₁ ?_ ?_
  · rintro v as ⟨v', heq, rfl, hR⟩
    obtain rfl := Exit.done.inj heq
    exact h₂ v hR
  · rintro failure as ⟨v, heq, -⟩
    cases heq

/-- A handler goes on with a value or with a failure, where interruption is not allowed. -/
theorem fold {first : Instruction} {onHalt : Halt Failure → Action Instruction}
    {onDone : Value → Action Instruction} {sameError : Bool}
    {P : Outcome → List Act → Prop} (hrun : run.interruptible = false)
    (h₁ : Settles fiber p (run.push (.fold onHalt onDone sameError))
      (.active (run.push (.fold onHalt onDone sameError)) (.eval first)) P)
    (hdone : ∀ v as, P (.done v) as → ∀ w : World, Settles fiber p run
      (.active run (.ofBuilt ((onDone v).run w).1)) fun o as' => Q o (as ++ as'))
    (hhalt : ∀ h as, P (.halt h) as → ∀ w : World, Settles fiber p run
      (.active run (.ofBuilt ((onHalt h).run w).1)) fun o as' => Q o (as ++ as')) :
    Settles fiber p run
      (.active run (.eval (.fold first onHalt onDone sameError))) Q := by
  have hne : run.push (.fold onHalt onDone sameError) ≠ run := fun heq =>
    absurd (congrArg (fun r => r.stack.length) heq) (Nat.succ_ne_self _)
  have hpush : Calm p (run.push (.fold onHalt onDone sameError)) := Or.inl hrun
  refine eval (Or.inl (Or.inl hrun)) fun w => ?_
  refine seq (Nat.lt_succ_self _) ⟨.base, fun _ => rfl⟩ h₁
    fun o as hQ => ?_
  cases o with
  | done v =>
    exact step (fun heq => absurd heq hne) (fun _ => Or.inl hpush) (hdone v as hQ)
  | halt failure =>
    refine step (fun heq => absurd heq hne) (fun _ => Or.inl hpush) fun w => ?_
    change Settles _ _ _ (w.after fiber ((run.push (.fold onHalt onDone sameError)).planHalt
      (w.pending fiber) failure)) _
    rw [RunState.planHalt_push_fold hrun]
    exact hhalt failure as hQ w

/-! ### Regions and waits -/

theorem enterStatus_ne (allowed : Bool) : run.enterStatus allowed ≠ run := fun heq =>
  absurd (congrArg (fun r => r.stack.length) heq) (Nat.succ_ne_self _)

/-- A failure leaves a region. -/
theorem leave_halt {allowed : Bool} {failure : Halt Failure} (h : Q (.halt failure) []) :
    Settles fiber p run (.active (run.enterStatus allowed) (.halt failure)) Q :=
  step (fun heq => absurd heq (enterStatus_ne allowed)) nofun fun _ =>
    @handed _ _ _ _ (.halt failure) h

/-- An outcome leaves a region, unless a cancellation takes its place. -/
theorem leave {allowed : Bool} {o : Outcome} (hbears : Bears p (run.enterStatus allowed) Q)
    (h : Q o []) : Settles fiber p run (.handed (run.enterStatus allowed) o) Q := by
  cases o with
  | halt failure => exact leave_halt h
  | done v =>
    refine step (fun heq => absurd heq (enterStatus_ne allowed)) (fun _ => ?_) fun _ =>
      @handed _ _ _ _ (.done v) h
    exact hbears.imp_right fun hQ source => leave_halt (hQ source)

/-- A region. -/
theorem region {allowed : Bool} {i : Instruction} (hbears : Bears p run Q)
    (hinner : Calm p (run.enterStatus allowed))
    (h : Settles fiber p (run.enterStatus allowed)
      (.active (run.enterStatus allowed) (.eval i)) Q) :
    Settles fiber p run (.active run (.eval (.setInterruptible allowed i))) Q := by
  refine eval hbears fun w => ?_
  refine seq (Nat.lt_succ_self _) ⟨.base, fun _ => rfl⟩ h
    fun o as hQ => leave (Or.inl hinner) ?_
  rwa [List.append_nil]

/-- **A wait in a calm state** ends with what is so. -/
theorem wait {registration : Registration} (hcalm : Calm p run)
    (h : ∀ o, p.Answers registration o → Q o [.waits registration]) :
    Settles fiber p run (.active run (.eval (.wait registration))) Q := by
  intro es o after c hcourse hlife htruthful hspares
  rcases hcourse.of_wait with ⟨w, es', source, rfl, hgoes, -⟩ |
    ⟨w, idle, es', step, rfl, hidle, hfirst, hrest, hcut⟩
  · obtain ⟨w', heq, -⟩ := hspares.of_active hcalm htruthful hgoes
    cases heq
  rw [List.cons_append, List.append_assoc] at htruthful hspares
  rcases htruthful.replies hidle (hrest.life.append hlife) with
    ⟨w', more, d, heq, hgoes⟩ | ⟨-, ⟨o', rfl, hanswered⟩ | ⟨hasked, hallowed, source, rfl⟩⟩
  · -- what it has been told cannot give way to a cancellation
    have htruthful' := htruthful.tail.suffix
    rw [heq] at htruthful'
    obtain ⟨more', heq'⟩ : ∃ more', es' ++ after.take 1 = .stopped w' :: more' := by
      cases es' with
      | nil =>
        rw [List.nil_append] at heq
        exact ⟨[], by rw [heq]; rfl⟩
      | cons e es' =>
        obtain ⟨rfl, -⟩ := List.cons.inj heq
        exact ⟨_, rfl⟩
    rw [← List.cons_append] at hspares
    have hspares' := hspares.suffix hfirst
    rw [heq'] at hspares'
    obtain ⟨w'', heq'', -⟩ := hspares'.of_active hcalm htruthful' hgoes
    cases heq''
  · obtain ⟨rfl, rfl⟩ := hrest.eq_of_handed
    have hone : acts (.iterated w run (.eval (.wait registration)) :: (idle ++ [])) =
        [.waits registration] := by
      rw [acts_cons, List.append_nil, acts_of_idle hidle]
      rfl
    rw [hone]
    exact h o hanswered
  · obtain ⟨before, e, b, heq, hlife', hcut⟩ := hcut source rfl
    rw [← List.cons_append, heq, List.append_assoc] at hspares
    have hspared := hspares before e _ b run rfl hlife' hcut
    rcases hcalm with hfalse | hcalm | hunasked
    · rw [hfalse] at hallowed
      cases hallowed
    · exact absurd hcalm hspared
    · exact absurd hasked hunasked

/-- **A wait in a region of its own** ends with what is so, or with a cancellation. -/
theorem region_wait {allowed : Bool} {registration : Registration} (hcalm : Calm p run)
    (h : ∀ o, p.Answers registration o → Q o [.waits registration])
    (hcut : p.asked → ∀ source as, as = [] ∨ as = [.waits registration] →
      Q (.halt (.of (.interrupt source))) as) :
    Settles fiber p run
      (.active run (.eval (.setInterruptible allowed (.wait registration)))) Q := by
  by_cases hasked : p.asked
  case neg =>
    have hquiet : ∀ r, Calm p r := fun _ => Or.inr (Or.inr hasked)
    exact region (Or.inl hcalm) (hquiet _) (wait (hquiet _) h)
  replace hcut := hcut hasked
  refine eval (Or.inl hcalm) fun _ es o after c hcourse hlife htruthful hspares => ?_
  change Q o (acts es)
  rcases Course.of_wait hcourse with ⟨w, es', source, rfl, hgoes, hrest⟩ |
    ⟨w, idle, es', step, rfl, hidle, hfirst, hrest, -⟩
  · have htruthful' : Truthful p (es' ++ after) c := htruthful.tail
    change Q o (acts es')
    exact leave_halt (hcut source _ (Or.inl rfl)) _ _ _ _ hrest hlife htruthful'
      (hspares.tail hgoes)
  rw [List.cons_append, List.append_assoc] at htruthful hspares
  rw [← List.cons_append] at hspares
  have hidle' : acts (.iterated w (run.enterStatus allowed) (.eval (.wait registration)) ::
      (idle ++ es')) = .waits registration :: acts es' := by
    rw [acts_cons, acts_append, acts_of_idle hidle]
    rfl
  rw [hidle']
  have htruthful' : Truthful p (es' ++ after) c := htruthful.tail.suffix
  have hspares' := hspares.suffix hfirst
  -- what follows on the wait
  suffices hafter : ∀ Q' : Outcome → List Act → Prop, (∀ o, p.Answers registration o → Q' o []) →
      (∀ source, Q' (.halt (.of (.interrupt source))) []) → Q' o (acts es') from
    hafter (fun o as => Q o (.waits registration :: as)) h fun source => hcut source _ (Or.inr rfl)
  intro Q' h hcut
  rcases htruthful.replies hidle (hrest.life.append hlife) with
    ⟨w', more, d, heq, -⟩ | ⟨-, ⟨o', rfl, hanswered⟩ | ⟨-, -, source, rfl⟩⟩
  · -- it drops what it has been told before it leaves the region
    generalize hend : Standing.handed run o = d at hrest
    cases hrest with
    | rest => exact absurd (Standing.active.inj hend).1.symm (enterStatus_ne allowed)
    | @go _ _ _ _ es'' _ hgoes hrest =>
      subst hend
      obtain ⟨rfl, -⟩ := List.cons.inj heq
      have hgoes' := hgoes
      change Q' o (acts es'')
      cases hgoes with
      | stopped _ _ =>
        exact leave_halt (hcut _) _ _ _ _ hrest hlife htruthful'.tail (hspares'.tail hgoes')
  · exact leave (Or.inr hcut) (h o' hanswered) _ _ _ _ hrest hlife htruthful' hspares'
  · exact leave_halt (hcut source) _ _ _ _ hrest hlife htruthful' hspares'

/-- **A masked region**: the body is evaluated where interruption is not allowed. -/
theorem mask {ε : ErrorType} {body : Restore → Effect ε} (hbears : Bears p run Q)
    (h : Settles fiber p (run.enterStatus false)
      (.active (run.enterStatus false) (.eval (body ⟨run.interruptible⟩))) Q) :
    Settles fiber p run
      (.active run (.eval (Effect.mask fun restore => pure (body restore)))) Q :=
  eval hbears fun _ => region hbears (Or.inl rfl) h

/-! ### One after the other -/

section Collecting

variable {ε : ErrorType}

/-- Evaluations one after the other, after some values. -/
theorem collectAfter {α : Type} {xs : List α} {g : α → Effect ε}
    {P : α → Value → List Act → Prop} (hrun : run.interruptible = false)
    (hxs : ∀ x ∈ xs, ∀ r : RunState, r.interruptible = false →
      Settles fiber p r (.active r (.eval (g x))) fun o as =>
        ∃ v, o = .done v ∧ P x v as) (values : List Value) :
    Settles fiber p run (.active run (.eval (Effect.collectAfter values (xs.map g))))
      fun o as => ∃ rs : List (Value × List Act),
        o = .done (.list (values ++ rs.map Prod.fst)) ∧ as = rs.flatMap Prod.snd ∧
          List.Forall₂ (fun x r => P x r.1 r.2) xs rs := by
  induction xs generalizing values with
  | nil =>
    have hvalues : values = values ++ ([] : List (Value × List Act)).map Prod.fst :=
      (List.append_nil values).symm
    exact done (Or.inl hrun)
      ⟨[], congrArg (fun vs => Exit.done (Value.list vs)) hvalues, rfl, .nil⟩
  | cons x xs ih =>
    obtain ⟨hx, hxs⟩ := List.forall_mem_cons.mp hxs
    refine chain (Or.inl hrun) (Or.inl hrun) (hx _ hrun) ?_ ?_
    · rintro v as ⟨v', heq, hP⟩ w
      obtain rfl := Exit.done.inj heq
      refine (ih hxs (values ++ [v])).mono fun o as' => ?_
      rintro ⟨rs, rfl, rfl, hrs⟩
      exact ⟨(v, as) :: rs, by simp, rfl, .cons hP hrs⟩
    · rintro failure as ⟨v, heq, -⟩
      cases heq

/-- **Evaluations one after the other**, all of which end with a value. -/
theorem collectAll {α : Type} {xs : List α} {g : α → Effect ε}
    {P : α → Value → List Act → Prop} (hrun : run.interruptible = false)
    (hxs : ∀ x ∈ xs, ∀ r : RunState, r.interruptible = false →
      Settles fiber p r (.active r (.eval (g x))) fun o as =>
        ∃ v, o = .done v ∧ P x v as) :
    Settles fiber p run (.active run (.eval (Effect.collectAll (xs.map g))))
      fun o as => ∃ rs : List (Value × List Act),
        o = .done (.list (rs.map Prod.fst)) ∧ as = rs.flatMap Prod.snd ∧
          List.Forall₂ (fun x r => P x r.1 r.2) xs rs :=
  suspend (Or.inl (Or.inl hrun)) fun _ => collectAfter hrun hxs []

/-- Evaluations one after the other of which it is known what each of them does to others. -/
theorem collectAll_map {α : Type} {xs : List α} {g : α → Effect ε} {d : α → List Act}
    {R : α → Value → Prop} (hrun : run.interruptible = false)
    (hxs : ∀ x ∈ xs, ∀ r : RunState, r.interruptible = false →
      Settles fiber p r (.active r (.eval (g x))) fun o as =>
        ∃ v, o = .done v ∧ as = d x ∧ R x v)
    (h : ∀ vs, List.Forall₂ R xs vs → Q (.done (.list vs)) (xs.flatMap d)) :
    Settles fiber p run (.active run (.eval (Effect.collectAll (xs.map g)))) Q := by
  refine (collectAll hrun hxs).mono ?_
  rintro o as ⟨rs, rfl, rfl, hrs⟩
  have hall : rs.flatMap Prod.snd = xs.flatMap d ∧ List.Forall₂ R xs (rs.map Prod.fst) := by
    clear h hxs
    induction hrs with
    | nil => exact ⟨rfl, .nil⟩
    | cons hr _ ih =>
      rw [List.flatMap_cons, List.flatMap_cons, ih.1, hr.1]
      exact ⟨rfl, .cons hr.2 ih.2⟩
  exact hall.1 ▸ h _ hall.2

/-- Evaluations one after the other, up to the first that fails: the list of their values if none
does. -/
theorem collectAll_until {α : Type} {xs : List α} {g : α → Effect ε} {d : α → Act}
    {R : α → Outcome → Prop} (hrun : run.interruptible = false)
    (hxs : ∀ x ∈ xs, ∀ r : RunState, r.interruptible = false →
      Settles fiber p r (.active r (.eval (g x))) fun o as => as = [d x] ∧ R x o) :
    Settles fiber p run (.active run (.eval (Effect.collectAll (xs.map g)))) fun o as =>
      ∃ tried, tried <+: xs ∧ as = tried.map d ∧
        ((∃ vs, o = .done (.list vs) ∧ List.Forall₂ (fun x v => R x (.done v)) xs vs) ∨
          ∃ h, o = .halt h ∧ ∃ x ∈ xs, R x (.halt h)) := by
  refine suspend (Or.inl (Or.inl hrun)) fun _ => ?_
  change Settles fiber p run (.active run (.eval (Effect.collectAfter [] (xs.map g)))) _
  suffices hafter : ∀ values, Settles fiber p run
      (.active run (.eval (Effect.collectAfter values (xs.map g)))) fun o as =>
        ∃ tried, tried <+: xs ∧ as = tried.map d ∧
          ((∃ vs, o = .done (.list (values ++ vs)) ∧ List.Forall₂ (fun x v => R x (.done v)) xs vs) ∨
            ∃ h, o = .halt h ∧ ∃ x ∈ xs, R x (.halt h)) from hafter []
  intro values
  induction xs generalizing values with
  | nil =>
    have hvalues : values = values ++ [] := (List.append_nil values).symm
    exact done (Or.inl hrun) ⟨[], List.prefix_refl _, rfl,
      Or.inl ⟨[], congrArg (fun vs => Exit.done (Value.list vs)) hvalues, .nil⟩⟩
  | cons x xs ih =>
    obtain ⟨hx, hxs⟩ := List.forall_mem_cons.mp hxs
    refine chain (Or.inl hrun) (Or.inl hrun) (hx _ hrun) ?_ ?_
    · rintro v as ⟨rfl, hv⟩ w
      refine (ih hxs (values ++ [v])).mono fun o as => ?_
      rintro ⟨tried, hinitial, rfl, hends⟩
      refine ⟨x :: tried, List.cons_prefix_cons.mpr ⟨rfl, hinitial⟩, rfl, ?_⟩
      rcases hends with ⟨vs, rfl, hvs⟩ | ⟨h, rfl, y, hy, hR⟩
      · exact Or.inl ⟨v :: vs, by rw [List.append_assoc]; rfl, .cons hv hvs⟩
      · exact Or.inr ⟨h, rfl, y, List.mem_cons_of_mem _ hy, hR⟩
    · rintro h as ⟨rfl, hhalt⟩
      exact ⟨[x], List.cons_prefix_cons.mpr ⟨rfl, List.nil_prefix⟩, rfl,
        Or.inr ⟨h, rfl, x, List.mem_cons_self, hhalt⟩⟩

end Collecting

end Settles

/-! ### Runs -/

namespace Workshop

variable {budget minted : Nat} {s : Workshop} {record : List (FiberId × Event)}

/-- A fiber has evaluated an instruction in the course of a record: what happened to it then, and
with which outcome the evaluation has settled. -/
inductive Evaluated (s : Workshop) (record : List (FiberId × Event)) (fiber : FiberId)
    (base : RunState) (i : Instruction) (during : List Event) (o : Outcome) : Prop where
  | intro {before after : List Event} {a : Standing} :
      Life fiber .unborn before (.active base (.eval i)) →
      Course fiber (Inside (fun _ => True) base) (.active base (.eval i)) during (.handed base o) →
      Life fiber (.handed base o) after a →
      History s record fiber (before ++ (during ++ after)) a →
      Evaluated s record fiber base i during o

/-- How a wait has ended: the fiber goes on from it with an outcome, or is about to. -/
inductive Hears (s : Workshop) (record : List (FiberId × Event)) (fiber : FiberId) (n : Nat)
    (run : RunState) (o : Outcome) : Prop where
  | goesOn {w : World} :
      (eventsOf fiber record)[n + 1]? = some (.iterated w run (.ofOutcome o)) →
        Hears s record fiber n run o
  | ready : n + 1 = (eventsOf fiber record).length → s.Stands fiber (.active run (.ofOutcome o)) →
      Hears s record fiber n run o

/-- What is known of a life is so in a run. -/
structure Foresees (s : Workshop) (record : List (FiberId × Event)) (fiber : FiberId)
    (p : Prospect) : Prop where
  final : p.final = s.world.store
  tells : ∀ {n w run registration o},
    (eventsOf fiber record)[n]? = some (.iterated w run (.eval (.wait registration))) →
      Hears s record fiber n run o → p.tells registration o
  asked : s.world.store.isInterrupted fiber = true → p.asked

theorem foresees_plain (s : Workshop) (record : List (FiberId × Event)) (fiber : FiberId)
    (spared : RunState → Prop) : Foresees s record fiber (.plain s.world.store spared) :=
  ⟨rfl, fun _ _ => trivial, fun _ => trivial⟩

/-- Whoever goes on from a wait with a cancellation has been asked to stop by then. -/
theorem Books.interrupted_of_lost {l : Ledger} (h : Books l record s) {fiber : FiberId} {e : Event}
    {wait : Wait} (he : (fiber, e) ∈ record) (hwait : e.wait? = some wait) {w : World}
    (hlater : Ledger.Later [] w s.world) (hlost : l.Lost w wait.place) :
    w.store.isInterrupted fiber = true := by
  obtain ⟨p, hp, hasked⟩ := hlost.asked
  obtain ⟨state, hp'⟩ := hlater.preserves.place hp
  obtain ⟨p', hp'', rfl, -⟩ := h.placed he hwait
  obtain rfl := Option.some.inj (hp'.symm.trans hp'')
  exact hasked

/-- Who stops has been asked to by then. -/
theorem History.interrupted_of_stopped {fiber : FiberId} {es : List Event} {a : Standing}
    (h : History s record fiber es a) {w : World} (hmem : .stopped w ∈ es) :
    w.store.isInterrupted fiber = true := by
  obtain ⟨b, c, -, hgoes⟩ := h.life.of_mem hmem
  cases hgoes with
  | stopped _ hmust => exact (Bool.and_eq_true_iff.mp hmust).2

/-- Who stops has been asked to. -/
theorem History.asked_of_stopped {fiber : FiberId} {es : List Event} {a : Standing}
    (hhistory : History s record fiber es a) (h : Run budget (init minted) record s) {w : World}
    (hmem : .stopped w ∈ es) : s.world.store.isInterrupted fiber = true := by
  by_contra hfree
  have hnever := hhistory.never_interrupted h (Bool.eq_false_iff.mpr hfree) _ hmem w rfl
  rw [hhistory.interrupted_of_stopped hmem] at hnever
  cases hnever

/-- What a fiber is told in a part of its life is so, if what is known of the waits that begin in that
part is.  A wait with which the part ends is the last one of all. -/
theorem Run.truthful_part (h : Run budget (init minted) record s) {fiber : FiberId} {p : Prospect}
    {before es rest : List Event} {a b : Standing} (hfinal : p.final = s.world.store)
    (hasked : s.world.store.isInterrupted fiber = true → p.asked)
    (hhistory : History s record fiber (before ++ (es ++ rest)) a)
    (htells : ∀ {first w run registration after n o},
      es = first ++ .iterated w run (.eval (.wait registration)) :: after →
        n = ((before ++ first).filter Event.isDoing).length →
        (eventsOf fiber record)[n]? = some (.iterated w run (.eval (.wait registration))) →
          Hears s record fiber n run o → p.tells registration o)
    (hends : ∀ {first w run registration after},
      es = first ++ .iterated w run (.eval (.wait registration)) :: after →
        after.filter Event.isDoing = [] → rest = [] ∧ b = a) : Truthful p es b := by
  obtain ⟨l, -, hbooks⟩ := h.books fiber
  -- where the wait is in the record
  have hdoings : ∀ {first w run registration after},
      es = first ++ .iterated w run (.eval (.wait registration)) :: after →
        eventsOf fiber record = (before ++ first).filter Event.isDoing ++
          .iterated w run (.eval (.wait registration)) ::
            (after.filter Event.isDoing ++ rest.filter Event.isDoing) := by
    rintro first w run registration after rfl
    rw [← hhistory.doings, List.append_assoc, ← List.append_assoc before, List.cons_append,
      List.filter_append, List.filter_cons_of_pos rfl, List.filter_append (after)]
  have hreplies : ∀ {v : World} {first w run registration after n run' step},
      es = first ++ .iterated w run (.eval (.wait registration)) :: after →
      n = ((before ++ first).filter Event.isDoing).length →
      (eventsOf fiber record)[n]? = some (.iterated w run (.eval (.wait registration))) →
      Ledger.Later [] v s.world →
      l.GoesOn v ⟨⟨w.suspensions.next⟩, registration, run⟩ run' step →
      (∀ o, step = .ofOutcome o → run' = run → Hears s record fiber n run o) →
        Replies p run registration run' step := by
    intro v first w run registration after n run' step heq hn hwait hlater hgo hhears
    cases hgo with
    | @told o htold =>
      have hanswered := htold.answered.mono hlater.remembers.finished
      rw [← hfinal] at hanswered
      exact ⟨rfl, Or.inl ⟨o, rfl, hanswered, htells heq hn hwait (hhears o rfl rfl)⟩⟩
    | interrupted source hallowed hlost =>
      have hmem := mem_eventsOf.mp (List.mem_of_getElem? hwait)
      have hinterrupted := hlater.remembers.interrupted _
        (hbooks.interrupted_of_lost hmem rfl hlater hlost)
      exact ⟨rfl, Or.inr ⟨hasked hinterrupted, hallowed, source, rfl⟩⟩
  refine ⟨fun {first w run registration after w' run' step more} heq hafter => ?_,
    fun {first w run registration after run' step} heq hafter hb => ?_,
    fun hmem => hasked (hhistory.asked_of_stopped h
      (List.mem_append_right _ (List.mem_append_left _ hmem)))⟩
  · have hevents := hdoings heq
    rw [hafter] at hevents
    generalize hpast : (before ++ first).filter Event.isDoing = past at hevents
    have hwait : (eventsOf fiber record)[past.length]? =
        some (.iterated w run (.eval (.wait registration))) := by simp [hevents]
    have hnext : (eventsOf fiber record)[past.length + 1]? = some (.iterated w' run' step) := by
      simp [hevents]
    have hmem := mem_eventsOf.mp (List.mem_of_getElem? hnext)
    cases hbooks.after_wait hwait rfl hnext with
    | iterated hgo =>
      exact hreplies heq (congrArg List.length hpast).symm hwait (hbooks.earlier hmem rfl) hgo
        fun o ho hrun => .goesOn (hnext.trans (by rw [ho, hrun]))
  · obtain ⟨rfl, rfl⟩ := hends heq hafter
    have hevents := hdoings heq
    rw [hafter] at hevents
    generalize hpast : (before ++ first).filter Event.isDoing = past at hevents
    have hwait : (eventsOf fiber record)[past.length]? =
        some (.iterated w run (.eval (.wait registration))) := by simp [hevents]
    have hlength : past.length + 1 = (eventsOf fiber record).length := by simp [hevents]
    have hlast := hbooks.last_of_length hwait rfl hlength
    refine hreplies heq (congrArg List.length hpast).symm hwait (.of_suspensions rfl (.refl _))
      ((hbooks.standing hlast hhistory.stands).1 _ _ hb) fun o ho hrun => .ready hlength ?_
    rw [← ho, ← hrun, ← hb]
    exact hhistory.stands

/-- **In every run what a fiber is told when it waits is so.** -/
theorem Run.truthful (h : Run budget (init minted) record s) {fiber : FiberId} {p : Prospect}
    (hp : Foresees s record fiber p) {before es : List Event} {a : Standing}
    (hhistory : History s record fiber (before ++ es) a) : Truthful p es a := by
  rw [← List.append_nil es] at hhistory
  exact h.truthful_part hp.final hp.asked hhistory (fun _ _ hwait hhears => hp.tells hwait hhears)
    fun _ _ => ⟨rfl, rfl⟩

/-- **What holds in every run when an evaluation has settled**, if what is known of the life of the
fiber is so. -/
theorem Evaluated.foreseen {fiber : FiberId} {base : RunState} {i : Instruction}
    {during : List Event} {o : Outcome} (h : Evaluated s record fiber base i during o)
    (hrun : Run budget (init minted) record s) {p : Prospect} (hp : Foresees s record fiber p)
    {Q : Outcome → List Act → Prop}
    (hspares : Spares fiber p.spared (.active base (.eval i)) during) (hbase : ¬ p.spared base)
    (hsettles : Settles fiber p base (.active base (.eval i)) Q) : Q o (acts during) := by
  obtain ⟨hbefore, hduring, hafter, hhistory⟩ := h
  exact hsettles _ _ _ _ hduring hafter (hrun.truthful hp hhistory)
    (hspares.append_one hduring.life hbase _)

/-- What holds when an evaluation has settled, if what is known of the waits that have begun in its
course is so. -/
theorem Evaluated.foreseen_during {fiber : FiberId} {base : RunState} {i : Instruction}
    {during : List Event} {o : Outcome} (h : Evaluated s record fiber base i during o)
    (hrun : Run budget (init minted) record s) :
    ∃ past later, eventsOf fiber record = past ++ (during.filter Event.isDoing ++ later) ∧
      ∀ {p : Prospect} {Q : Outcome → List Act → Prop}, p.final = s.world.store →
        (s.world.store.isInterrupted fiber = true → p.asked) →
        (∀ {n w run registration o}, past.length ≤ n →
          n < past.length + (during.filter Event.isDoing).length →
          (eventsOf fiber record)[n]? = some (.iterated w run (.eval (.wait registration))) →
            Hears s record fiber n run o → p.tells registration o) →
        Spares fiber p.spared (.active base (.eval i)) during → ¬ p.spared base →
          Settles fiber p base (.active base (.eval i)) Q → Q o (acts during) := by
  obtain @⟨before, after, a, -, hduring, hafter, hhistory⟩ := h
  refine ⟨before.filter Event.isDoing, after.filter Event.isDoing, ?_,
    fun {p Q} hfinal hasked htells hspares hbase hsettles => ?_⟩
  · rw [← hhistory.doings, List.filter_append, List.filter_append]
  have hwithin : ∀ {first w run registration last n o'},
      during = first ++ .iterated w run (.eval (.wait registration)) :: last →
      n = ((before ++ first).filter Event.isDoing).length →
      (eventsOf fiber record)[n]? = some (.iterated w run (.eval (.wait registration))) →
        Hears s record fiber n run o' → p.tells registration o' := by
    rintro first w run registration last n o' rfl rfl hwait hhears
    refine htells ?_ ?_ hwait hhears
    · simp
    · simp [Event.isDoing]
  cases hafter with
  | rest =>
    have htruthful : Truthful p during (.handed base o) :=
      hrun.truthful_part hfinal hasked hhistory hwithin fun _ _ => ⟨rfl, rfl⟩
    rw [← List.append_nil during] at htruthful
    exact hsettles _ _ _ _ hduring .rest htruthful (hspares.append_one hduring.life hbase [])
  | @go _ b _ e rest _ hgoes hrest =>
    -- what follows on the evaluation begins with no wait
    obtain ⟨hdoing, hnowait⟩ := hgoes.of_handed
    have hinside : ∀ {first w run registration last},
        during ++ [e] = first ++ .iterated w run (.eval (.wait registration)) :: last →
          ∃ last', during = first ++ .iterated w run (.eval (.wait registration)) :: last' ∧
            last = last' ++ [e] := by
      intro first w run registration last heq
      rcases List.eq_nil_or_concat last with rfl | ⟨last', e', rfl⟩
      · obtain ⟨-, hlast⟩ := List.append_inj' heq rfl
        rw [List.singleton_inj.mp hlast] at hnowait
        cases hnowait
      · rw [List.concat_eq_append, ← List.cons_append, ← List.append_assoc] at heq
        obtain ⟨hfirst, hlast⟩ := List.append_inj' heq rfl
        exact ⟨last', hfirst, by rw [List.concat_eq_append, List.singleton_inj.mp hlast]⟩
    rw [← List.singleton_append, ← List.append_assoc during] at hhistory
    refine hsettles _ _ _ _ hduring (.one trivial hgoes) (hrun.truthful_part hfinal hasked hhistory
      (fun heq hn hwait hhears => ?_) fun heq hnone => ?_)
      (hspares.append_one hduring.life hbase (e :: rest))
    · obtain ⟨last', hduring', -⟩ := hinside heq
      exact hwithin hduring' hn hwait hhears
    · obtain ⟨last', -, rfl⟩ := hinside heq
      rw [List.filter_append, List.filter_cons_of_pos hdoing] at hnone
      simp at hnone

/-- **What holds in every run when an evaluation has settled.** -/
theorem Evaluated.settles {fiber : FiberId} {base : RunState} {i : Instruction}
    {during : List Event} {o : Outcome} (h : Evaluated s record fiber base i during o)
    (hrun : Run budget (init minted) record s) {spared : RunState → Prop}
    {Q : Outcome → List Act → Prop}
    (hspares : Spares fiber spared (.active base (.eval i)) during) (hbase : ¬ spared base)
    (hsettles : Settles fiber (.plain s.world.store spared) base (.active base (.eval i)) Q) :
    Q o (acts during) :=
  h.foreseen hrun (foresees_plain s record fiber spared) hspares hbase hsettles

/-- A fiber that has finished stands at its end. -/
theorem Stands.ended_of_isFinished {fiber : FiberId} {a : Standing} (h : s.Stands fiber a)
    (hdone : s.world.store.isFinished fiber = true) : ∃ o, a = .ended o := by
  have hphase := h.phase
  obtain ⟨r, hr, hfinished⟩ := (Option.any_eq_true ..).mp hdone
  rw [World.phase, hr, Option.map_some, hfinished] at hphase
  cases a with
  | ended o => exact ⟨o, rfl⟩
  | unborn | active _ _ | waiting _ => cases hphase

/-- What has finished has ended, with everything that it had left to do. -/
theorem Run.ended_of_isFinished (h : Run budget (init minted) record s) {fiber : FiberId}
    (hdone : s.world.store.isFinished fiber = true) :
    ∃ es o, History s record fiber es (.ended o) := by
  obtain ⟨es, a, hhistory⟩ := h.history fiber
  obtain ⟨o, rfl⟩ := hhistory.stands.ended_of_isFinished hdone
  exact ⟨es, o, hhistory⟩

theorem History.isFinished {fiber : FiberId} {es : List Event} {o : Outcome}
    (h : History s record fiber es (.ended o)) : s.world.store.isFinished fiber = true := by
  obtain ⟨r, hr, hfinished⟩ := Option.map_eq_some_iff.mp h.stands.phase
  rw [Store.isFinished, hr, Option.any_some, hfinished]

end Workshop

/-! ### The first instruction of a fiber -/

theorem plan_of_root {fiber : FiberId} {base : RunState} (hroot : base.stack = []) (o : Outcome)
    (pending : Option FiberId) : (Step.ofOutcome o).plan pending fiber base = .finish o := by
  cases o <;> simp [Step.ofOutcome, Step.plan, RunState.planValue, RunState.planHalt, hroot]

/-- A fiber that has nothing left to do but to end has nothing to do with others. -/
theorem acts_of_root {fiber : FiberId} {base : RunState} (hroot : base.stack = [])
    {es : List Event} {o : Outcome} {a : Standing} (h : Life fiber (.handed base o) es a) :
    acts es = [] := by
  induction es generalizing o with
  | nil => rfl
  | cons e es ih =>
    generalize hstart : Standing.handed base o = b at h
    cases h with
    | go _ hgoes hrest =>
      rw [acts_cons]
      cases hgoes with
      | started | resumed | cancelled => cases hstart
      | stopped _ _ =>
        obtain ⟨rfl, -⟩ := Standing.active.inj hstart
        exact @ih (.halt (.of (.interrupt _))) hrest
      | iterated _ =>
        obtain ⟨rfl, rfl⟩ := Standing.active.inj hstart
        rw [plan_of_root hroot] at hrest
        change Life fiber (.ended o) es a at hrest
        cases hrest with
        | rest => cases o <;> rfl
        | go _ hgoes _ => cases hgoes

/-- A fiber that has nothing left to do but to end ends with what it has been handed, unless it is
stopped. -/
theorem outcome_of_root {fiber : FiberId} {base : RunState} (hroot : base.stack = [])
    {es : List Event} {o o' : Outcome} (h : Life fiber (.handed base o') es (.ended o)) :
    o' = o ∨ ∃ w, .stopped w ∈ es := by
  generalize hstart : Standing.handed base o' = b at h
  generalize hend : Standing.ended o = c at h
  cases h with
  | rest => cases hstart.trans hend.symm
  | go _ hgoes hrest =>
    subst hend
    cases hgoes with
    | started | resumed | cancelled => cases hstart
    | stopped _ _ => exact Or.inr ⟨_, List.mem_cons_self⟩
    | iterated _ =>
      obtain ⟨rfl, rfl⟩ := Standing.active.inj hstart
      rw [plan_of_root hroot] at hrest
      change Life fiber (.ended o') _ (.ended o) at hrest
      cases hrest with
      | rest => exact Or.inl rfl
      | go _ hgoes _ => cases hgoes

/-- A fiber that unwinds with a cancellation, and ends later, goes on with that. -/
theorem Course.of_interrupt {fiber : FiberId} {run : RunState} {source : FiberId} {es : List Event}
    {o : Outcome} (h : Life fiber (.active run (.interrupt source)) es (.ended o)) :
    ∃ w, .iterated w run (.interrupt source) ∈ es := by
  cases h with
  | go _ hgoes _ =>
    cases hgoes with
    | stopped hgives _ => cases hgives
    | @iterated w _ _ _ => exact ⟨w, List.mem_cons_self⟩

/-- A fiber that begins with an instruction, and ends, has evaluated it, with the outcome with which
it ends unless it is stopped; its record tells what it had to do with others then, and where it went
on with a cancellation. -/
theorem Workshop.History.evaluated {s : Workshop} {record : List (FiberId × Event)}
    {fiber : FiberId} {es : List Event} {o : Outcome} (h : History s record fiber es (.ended o))
    {w : World} {base : RunState} {i : Instruction}
    (hfirst : (eventsOf fiber record).head? = some (.iterated w base (.eval i)))
    (hroot : base.stack = []) :
    ∃ during o', Evaluated s record fiber base i during o' ∧
      (o' = o ∨ ∃ w, .stopped w ∈ eventsOf fiber record) ∧
      acts during = acts (eventsOf fiber record) ∧
      ∀ spared : RunState → Prop, (∀ w run source,
        .iterated w run (.interrupt source) ∈ eventsOf fiber record → ¬ spared run) →
          Spares fiber spared (.active base (.eval i)) during := by
  have hdoings := h.doings
  have hlife := h.life
  cases hlife with
  | @go _ b _ e rest _ hgoes hrest =>
    cases hgoes with
    | started environment allowed i' =>
      have hbegins : Standing.active (.start environment allowed) (.eval i') =
          .active base (.eval i) := by
        cases hrest with
        | go _ hgoes _ =>
          rw [← hdoings] at hfirst
          cases hgoes with
          | stopped _ _ => cases hfirst
          | iterated _ =>
            obtain ⟨-, hrun, hstep⟩ := Event.iterated.inj (Option.some.inj hfirst)
            rw [hrun, hstep]
      have hstart := @Course.one fiber (fun _ => True) _ _ _ trivial
        (Goes.started environment allowed i')
      rw [hbegins] at hrest hstart
      rcases @Course.split base _ _ _ _ _ hrest ⟨.base, fun _ => rfl⟩ with
        ⟨-, hinside⟩ | ⟨during, after, o', rfl, hduring, -, hafter⟩
      · exact hinside.elim
      refine ⟨during, o', .intro hstart hduring hafter h, ?_, ?_, ?_⟩
      · refine (outcome_of_root hroot hafter).imp_right fun ⟨w, hw⟩ => ⟨w, ?_⟩
        rw [← hdoings, List.mem_filter]
        exact ⟨.tail _ (List.mem_append_right _ hw), rfl⟩
      · rw [← hdoings, acts_filter, acts_cons, acts_append, acts_of_root hroot hafter,
          List.append_nil]
        rfl
      · rintro spared hspared before e after' b run rfl hbefore ⟨-, source, hgoes⟩
        rw [List.append_assoc] at hrest
        obtain ⟨b', hbefore', hnext⟩ := Course.of_append hrest
        obtain rfl := hbefore'.eq hbefore
        cases hnext with
        | go _ hgoes' hnext =>
          rw [hgoes'.eq hgoes] at hnext
          obtain ⟨w', hmem⟩ := Course.of_interrupt hnext
          refine hspared w' run source ?_
          rw [← hdoings, List.mem_filter, List.append_assoc]
          exact ⟨.tail _ (List.mem_append_right _ (.tail _ hmem)), rfl⟩

end Fibers
