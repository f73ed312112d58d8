import Fibers.Proofs.EndOrder
import Fibers.Proofs.FailuresKept

/-!
# Races are decided in the order of the ends

A race calls the handler of the child that ends first, and a nursery fails as the child does that
fails first.  The fiber that runs them starts its children one after the other and asks them only
then, so when it begins to wait some of them may have ended.  If one has, the fiber goes on with the
first one of these in the order in which it asks them, and nobody remembers which of them was first.
So the order of the ends is respected but for one case: the child that has ended first is passed
over if one that is asked earlier has ended later, and still before the fiber begins to wait.

A race is followed step by step up to the call of its handler, for every fiber that is not asked to
stop; of a nursery what it settles with is known already.

## Main definitions

* `Leads` — what the lives of a fiber come to, step by step.
* `Workshop.Undecided`, `Workshop.Calls` — a race before one of its handlers is called, and then.
* `Workshop.RacesInTurn`, `Workshop.FailsInTurn` — a race and a nursery that respect the order.

## Main results

* `Leads.raceFold` — which handler a race calls.
* `Workshop.Run.undecided_of_pauses` — a race goes on once one of its children has ended.
* `Settles.NurseryEnds.failsAs` — which child a nursery fails as.
* `Workshop.Run.race_in_turn`, `Workshop.Run.nursery_in_turn` — both respect the order.
* `Workshop.Run.respects_order` — **in every run races are decided in the order of the ends**,
  unless somebody is passed over.
* `Workshop.Run.not_every_order_respected` — somebody can be passed over.
-/

namespace Fibers

open Effect

/-! ### Until a handler is called -/

/-- A fiber has not gone on with the exit of another one. -/
def Unheard (es : List Event) : Prop := ∀ w run x, .iterated w run (.value (.exit x)) ∉ es

/-- A fiber is on its way: it has something to do next, or it is parked in a wait that has to do
with what it has done before. -/
inductive Pauses (waits : List Act → Registration → Prop) (es : List Event) : Standing → Prop where
  | moves {run : RunState} {step : Step} : Pauses waits es (.active run step)
  | parked (before : List Event) {w : World} {run : RunState} {registration : Registration} :
      es = before ++ [.iterated w run (.eval (.wait registration))] →
        waits (acts before) registration → Pauses waits es (.waiting run)

/-- What every life of a fiber comes to in which it is told what is known: it passes a standing as
is wanted, or it is on its way to it and has not gone on with the exit of another fiber yet. -/
def Leads (fiber : FiberId) (p : Prospect) (a : Standing) (waits : List Act → Registration → Prop)
    (T : List Act → Standing → Prop) : Prop :=
  ∀ es c, Life fiber a es c → Truthful p es c →
    (Unheard es ∧ Pauses waits es c) ∨
      ∃ es₁ es₂ b, es = es₁ ++ es₂ ∧ Life fiber a es₁ b ∧ T (acts es₁) b

/-- After a wait a fiber is parked, or does nothing until it goes on with what it has been left. -/
theorem Course.after_wait {fiber : FiberId} {w : World} {run : RunState}
    {registration : Registration} {es : List Event} {c : Standing}
    (h : Life fiber (w.after fiber (.wait run registration)) es c) :
    (es = [] ∧ c = .waiting run) ∨
      ∃ idle more step, es = idle ++ more ∧ idle.filter Event.isDoing = [] ∧
        Life fiber (w.after fiber (.wait run registration)) idle (.active run step) ∧
          Life fiber (.active run step) more c := by
  have hafter := @World.after_of_rest w fiber (.wait run registration) run rfl
  generalize w.after fiber (.wait run registration) = a at h hafter
  rcases hafter with ⟨step, rfl⟩ | rfl
  · exact Or.inr ⟨[], es, step, rfl, rfl, .rest, h⟩
  · cases h with
    | rest => exact Or.inl ⟨rfl, rfl⟩
    | @go _ _ _ e more _ hgoes hrest =>
      have hgoes' := hgoes
      cases hgoes with
      | resumed outcome => exact Or.inr ⟨[_], more, _, rfl, rfl, .one trivial hgoes', hrest⟩
      | cancelled source _ => exact Or.inr ⟨[_], more, _, rfl, rfl, .one trivial hgoes', hrest⟩

section Unheard

variable {e : Event} {es idle more : List Event}

theorem unheard_nil : Unheard [] := fun _ _ _ => List.not_mem_nil

theorem Unheard.cons (h : Unheard es) (he : ∀ w run x, e ≠ .iterated w run (.value (.exit x))) :
    Unheard (e :: es) := fun w run x hmem =>
  (List.mem_cons.mp hmem).elim (fun heq => he w run x heq.symm) (h w run x)

/-- While it does nothing a fiber does not go on. -/
theorem Unheard.append_idle (h : Unheard more) (hidle : idle.filter Event.isDoing = []) :
    Unheard (idle ++ more) := by
  intro w run x hmem
  rcases List.mem_append.mp hmem with hmem | hmem
  · have hdoes : Event.iterated w run (.value (.exit x)) ∈ idle.filter Event.isDoing :=
      List.mem_filter.mpr ⟨hmem, rfl⟩
    rw [hidle] at hdoes
    cases hdoes
  · exact h w run x hmem

/-- Who is on its way has been on its way before. -/
theorem Pauses.after {waits : List Act → Registration → Prop} {c : Standing} (before : List Event)
    (h : Pauses (fun as registration => waits (acts before ++ as) registration) es c) :
    Pauses waits (before ++ es) c := by
  cases h with
  | moves => exact .moves
  | parked before' heq hwaits =>
    rw [← acts_append] at hwaits
    exact .parked (before ++ before') (by rw [heq, List.append_assoc]) hwaits

end Unheard

namespace Leads

variable {fiber : FiberId} {p : Prospect} {run : RunState} {registration : Registration}
  {waits : List Act → Registration → Prop} {T : List Act → Standing → Prop}

/-- An iteration of a fiber that is not asked to stop. -/
theorem step {step : Step} (hasked : ¬ p.asked) (hexit : ∀ x, step ≠ .value (.exit x))
    (h : ∀ w : World, Leads fiber p (w.after fiber (step.plan (w.pending fiber) fiber run))
      (fun as => waits ((Event.iterated w run step).act?.toList ++ as))
      fun as b => T ((Event.iterated w run step).act?.toList ++ as) b) :
    Leads fiber p (.active run step) waits T := by
  intro es c hlife htruthful
  cases hlife with
  | rest => exact Or.inl ⟨unheard_nil, .moves⟩
  | go _ hgoes hrest =>
    have hgoes' := hgoes
    cases hgoes with
    | stopped _ _ => exact absurd (htruthful.stopped List.mem_cons_self) hasked
    | @iterated w _ _ _ =>
      have hacts : acts [.iterated w run step] = (Event.iterated w run step).act?.toList := by
        rw [acts_cons, acts_nil, List.append_nil]
      rcases h w _ _ hrest htruthful.tail with
        ⟨hunheard, hpauses⟩ | ⟨es₁, es₂, b, rfl, hlife, hT⟩
      · refine Or.inl ⟨hunheard.cons fun w' run' x heq => hexit x (Event.iterated.inj heq).2.2, ?_⟩
        rw [← hacts] at hpauses
        exact hpauses.after [_]
      · refine Or.inr ⟨_ :: es₁, es₂, b, rfl, .go trivial hgoes' hlife, ?_⟩
        rwa [acts_cons]

/-- The last iteration before what is wanted. -/
theorem last {step : Step} (hasked : ¬ p.asked)
    (h : ∀ w : World, T (Event.iterated w run step).act?.toList
      (w.after fiber (step.plan (w.pending fiber) fiber run))) :
    Leads fiber p (.active run step) waits T := by
  intro es c hlife htruthful
  cases hlife with
  | rest => exact Or.inl ⟨unheard_nil, .moves⟩
  | @go _ _ _ e es _ hgoes hrest =>
    have hgoes' := hgoes
    cases hgoes with
    | stopped _ _ => exact absurd (htruthful.stopped List.mem_cons_self) hasked
    | @iterated w _ _ _ =>
      refine Or.inr ⟨[_], es, _, rfl, .one trivial hgoes', ?_⟩
      rw [acts_cons, acts_nil, List.append_nil]
      exact h w

/-- **A wait** of a fiber that is not asked to stop ends with what is so. -/
theorem wait (hasked : ¬ p.asked) (hwaits : waits [] registration)
    (h : ∀ o, p.Answers registration o → Leads fiber p (.active run (.ofOutcome o))
      (fun as => waits (.waits registration :: as)) fun as b => T (.waits registration :: as) b) :
    Leads fiber p (.active run (.eval (.wait registration))) waits T := by
  intro es c hlife htruthful
  cases hlife with
  | rest => exact Or.inl ⟨unheard_nil, .moves⟩
  | @go _ _ _ e es _ hgoes hrest =>
    have hgoes' := hgoes
    cases hgoes with
    | stopped _ _ => exact absurd (htruthful.stopped List.mem_cons_self) hasked
    | @iterated w _ _ _ =>
      have hwait : ∀ w' run' x, Event.iterated w run (.eval (.wait registration)) ≠
          .iterated w' run' (.value (.exit x)) := fun _ _ _ => nofun
      rcases Course.after_wait hrest with
        ⟨rfl, rfl⟩ | ⟨idle, more, step, rfl, hidle, hfirst, hmore⟩
      · exact Or.inl ⟨unheard_nil.cons hwait, .parked [] rfl hwaits⟩
      rcases htruthful.replies hidle hmore with
        ⟨w', more', d, rfl, -⟩ | ⟨-, ⟨o, rfl, hanswers⟩ | ⟨hstop, -⟩⟩
      · exact absurd (htruthful.stopped (List.mem_cons_of_mem _
          (List.mem_append_right _ List.mem_cons_self))) hasked
      · have hacts : acts (.iterated w run (.eval (.wait registration)) :: idle) =
            [.waits registration] := by
          rw [acts_cons, acts_of_idle hidle]
          rfl
        rcases h o hanswers _ _ hmore htruthful.tail.suffix with
          ⟨hunheard, hpauses⟩ | ⟨es₁, es₂, b, rfl, hlife, hT⟩
        · refine Or.inl ⟨(hunheard.append_idle hidle).cons hwait, ?_⟩
          change Pauses (fun as => waits ([.waits registration] ++ as)) more c at hpauses
          rw [← hacts] at hpauses
          exact hpauses.after (_ :: idle)
        · refine Or.inr ⟨_ :: (idle ++ es₁), es₂, b, by simp, .go trivial hgoes'
            (hfirst.append hlife), ?_⟩
          rw [acts_cons, acts_append, acts_of_idle hidle]
          exact hT
      · exact absurd hstop hasked

end Leads

/-! ### The race -/

section Race

variable {ε ε₁ ε₂ : ErrorType} (left : Effect ε) (right : Effect ε₁)
  (onLeft : Exit Value Value → Fiber ε₁ → Action (Effect ε₂))
  (onRight : Exit Value Value → Fiber ε → Action (Effect ε₂))

/-- A fiber has called the handler of one side of a race: it has started both children, has waited
for the first one to finish and then for the exit of the one that is said to be first, and what the
handler of that one builds of the exit and of the other child is evaluated next. -/
structure Calls (fiber : FiberId) (base : RunState) (l r : FiberId) (leftFirst : Bool)
    (calling : List Event) : Prop where
  acts : acts calling = (startAll ⟨base.interruptible⟩ [l, r] [left, right]).map .deals ++
    [.waits (.firstDone l r), if leftFirst then .awaits ε l else .awaits ε₁ r]
  handles : ∃ x w, Life fiber (.active base (.eval (raceFold left right onLeft onRight))) calling
    (.active (base.enterStatus false) (.ofBuilt (((if leftFirst then onLeft x ⟨r⟩ else
      onRight x ⟨l⟩) >>= fun handled =>
        (pure (Restore.apply ⟨base.interruptible⟩ handled) : Action (Effect ε₂))).run w).1))

/-- What a fiber waits for until it calls a handler of a race: that the first one of its children
finishes, and then for the exit of the one that is said to be first. -/
inductive RaceWaits (p : Prospect) (restore : Restore) (as : List Act) : Registration → Prop where
  | first {l r : FiberId} : as = (startAll restore [l, r] [left, right]).map .deals →
      RaceWaits p restore as (.firstDone l r)
  | exit {l r : FiberId} (leftFirst : Bool) : p.Answers (.firstDone l r) (.done (.bool leftFirst)) →
      as = (startAll restore [l, r] [left, right]).map .deals ++ [.waits (.firstDone l r)] →
        RaceWaits p restore as (if leftFirst then .awaitExit l ε else .awaitExit r ε₁)

theorem Leads.raceFold {fiber : FiberId} {p : Prospect} {run : RunState} (hasked : ¬ p.asked) :
    Leads fiber p (.active run (.eval (raceFold left right onLeft onRight)))
      (RaceWaits left right p ⟨run.interruptible⟩) fun as b =>
        ∃ l r leftFirst x w, p.Answers (.firstDone l r) (.done (.bool leftFirst)) ∧
          as = (startAll ⟨run.interruptible⟩ [l, r] [left, right]).map .deals ++
            [.waits (.firstDone l r), if leftFirst then .awaits ε l else .awaits ε₁ r] ∧
          b = .active (run.enterStatus false) (.ofBuilt (((if leftFirst then onLeft x ⟨r⟩ else
            onRight x ⟨l⟩) >>= fun handled =>
              (pure (Restore.apply ⟨run.interruptible⟩ handled) :
                Action (Effect ε₂))).run w).1) := by
  -- the masked region, the children, and the region of the wait
  refine step hasked nofun fun _ => ?_
  refine step hasked nofun fun _ => ?_
  refine step hasked nofun fun _ => ?_
  refine step hasked nofun fun w => ?_
  refine step hasked nofun fun _ => ?_
  refine step hasked nofun fun _ => ?_
  refine step hasked nofun fun w' => ?_
  refine step hasked nofun fun _ => ?_
  refine step hasked nofun fun _ => ?_
  refine step hasked nofun fun _ => ?_
  refine wait hasked (.first rfl) fun o hanswers => ?_
  obtain ⟨leftFirst, rfl, -⟩ := hanswers.1
  -- the side that is said to be first
  refine step hasked nofun fun _ => ?_
  refine step hasked nofun fun _ => ?_
  cases leftFirst with
  | true =>
    refine step hasked nofun fun _ => ?_
    refine wait hasked (.exit true hanswers rfl) fun o hexit => ?_
    obtain ⟨-, x, rfl⟩ := hexit.1
    exact last hasked fun w'' =>
      ⟨w.store.nextFiber, w'.store.nextFiber, true, x, w'', hanswers, rfl, rfl⟩
  | false =>
    refine step hasked nofun fun _ => ?_
    refine wait hasked (.exit false hanswers rfl) fun o hexit => ?_
    obtain ⟨-, x, rfl⟩ := hexit.1
    exact last hasked fun w'' =>
      ⟨w.store.nextFiber, w'.store.nextFiber, false, x, w'', hanswers, rfl, rfl⟩

end Race

/-! ### The nursery -/

theorem Halt.cause_keepSibling (h : Halt Value) (y : Exit Value Value) :
    (h.keepSibling y).cause = h.cause := by
  cases y with
  | done v => rfl
  | halt g =>
    simp only [keepSibling]
    split
    · rfl
    · simp only [append, withRemaining]
      split <;> rfl

/-- What is put beside a failure leaves its primary cause. -/
theorem Halt.cause_foldl_keepSibling (ys : List (Exit Value Value)) (h : Halt Value) :
    (ys.foldl keepSibling h).cause = h.cause := by
  induction ys generalizing h with
  | nil => rfl
  | cons y ys ih => exact (ih _).trans (h.cause_keepSibling y)

/-- The primary cause of a failure is that of an exit. -/
def FailsAs (ε : ErrorType) (o : Outcome) (x : Exit Value Value) : Prop :=
  ∃ failure : Halt Value, o = .halt (failure.tag ε) ∧ failure.cause = (failureOf x).cause

/-- **A nursery fails as the child does of which it has been told**, and has been told of none if
it has not stopped any. -/
theorem Settles.NurseryEnds.failsAs {p : Prospect} {ε : ErrorType} {children : List FiberId}
    {o : Outcome} {later : List Act} (h : NurseryEnds p ε children o later) :
    p.Answers (.firstFailure children) (.done .none) ∨
      ∃ (i : Nat) (c : FiberId) (x : Exit Value Value), children[i]? = some c ∧
        p.Answers (.firstFailure children) (.done (.some (.int i))) ∧ p.Exits ε c x ∧
          FailsAs ε o x := by
  cases h with
  | succeeded htold _ _ => exact Or.inl htold
  | @failed i culprit x xs htold hculprit hx _ =>
    exact Or.inr ⟨i, culprit, x, hculprit, htold, hx, _, rfl, Halt.cause_foldl_keepSibling xs _⟩

namespace Workshop

variable {budget minted : Nat} {s : Workshop} {record : List (FiberId × Event)} {fiber : FiberId}
  {base : RunState} {during : List Event}

/-! ### Runs -/

/-- What is told of the first one of several is in the order of their ends, unless that one has
been passed over. -/
def InTurn (s : Workshop) (record : List (FiberId × Event)) (fiber : FiberId)
    (registration : Registration) (o : Outcome) : Prop :=
  ∀ {i k : Nat} {c : FiberId} {daemon : Bool}, o = .done (registration.verdict k) →
    k < registration.candidates.length → Trusts s record fiber registration →
      IsFirst record registration.Ends registration.candidates i c →
        Unpassed record fiber registration i → Forked record daemon fiber c → k = i

/-- What is known of a fiber that is not asked to stop, and waits for the first one of several. -/
def elected (s : Workshop) (record : List (FiberId × Event)) (fiber : FiberId) : Prospect :=
  { confided s record fiber with
    tells := fun registration o =>
      Confided s record fiber registration o ∧ InTurn s record fiber registration o }

theorem Run.foresees_elected (h : Run budget (init minted) record s)
    (hfree : s.world.store.isInterrupted fiber = false) :
    Foresees s record fiber (elected s record fiber) where
  final := rfl
  tells hwait hhears := ⟨h.confided_of_hears hwait hhears,
    fun ho hk htrusts hfirst hunpassed hforked =>
      h.elects htrusts hfirst hunpassed hforked hk hwait (ho ▸ hhears)⟩
  asked hasked := by
    rw [hfree] at hasked
    cases hasked

/-- A fiber has begun to evaluate an instruction in the course of a record, and what has happened
to it since. -/
inductive Begun (s : Workshop) (record : List (FiberId × Event)) (fiber : FiberId) (base : RunState)
    (i : Instruction) (during : List Event) : Prop where
  | intro {before : List Event} {a : Standing} :
      Life fiber .unborn before (.active base (.eval i)) →
      Life fiber (.active base (.eval i)) during a → History s record fiber (before ++ during) a →
        Begun s record fiber base i during

/-- Whoever starts another fiber among what it has to do with others starts it by an event. -/
theorem starts_of_act {e : Event} {c : FiberId} {i : Instruction}
    (h : e.act? = some (.forks c i)) : ∃ daemon, e.starts? = some (c, daemon) := by
  unfold Event.act? at h
  split at h
  · next w run child daemon =>
    obtain ⟨rfl, -⟩ := Dealing.forks.inj (Act.deals.inj (Option.some.inj h))
    exact ⟨daemon, rfl⟩
  · cases h
  · cases h
  · cases h

/-- Whom a fiber starts in the course of its life is started in the record. -/
theorem History.forked_of_acts {es : List Event} {a : Standing} (h : History s record fiber es a)
    {c : FiberId} {i : Instruction} (hmem : .forks c i ∈ acts es) :
    ∃ daemon, Forked record daemon fiber c := by
  obtain ⟨e, he, hact⟩ := List.mem_filterMap.mp hmem
  obtain ⟨daemon, hstarts⟩ := starts_of_act hact
  obtain ⟨w, run, child, rfl, -⟩ := Event.of_starts hstarts
  exact ⟨daemon, _, (h.mem_iff rfl).mp he, hstarts⟩

/-- Effects that are started on children are started on each. -/
theorem exists_forks {restore : Restore} {children : List FiberId} {effects : List Instruction}
    (hlength : children.length = effects.length) {c : FiberId} (hc : c ∈ children) :
    ∃ i, .forks c i ∈ (startAll restore children effects).map Act.deals := by
  obtain ⟨n, hn, rfl⟩ := List.getElem_of_mem hc
  refine ⟨_, List.mem_map_of_mem (List.mem_map_of_mem (List.mem_iff_getElem.mpr
    ⟨n, by rw [List.length_zip, ← hlength, Nat.min_self]; exact hn, List.getElem_zip⟩))⟩

/-- Children on which effects are started at some time of a life are started in the record. -/
theorem History.forked_of_startAll {before after : List Event} {a : Standing} {restore : Restore}
    {children : List FiberId} {effects : List Instruction} {later : List Act} {c : FiberId}
    (h : History s record fiber (before ++ (during ++ after)) a)
    (hacts : acts during = (startAll restore children effects).map .deals ++ later)
    (hlength : children.length = effects.length) (hc : c ∈ children) :
    ∃ daemon, Forked record daemon fiber c := by
  obtain ⟨i, hi⟩ := exists_forks hlength hc
  refine h.forked_of_acts (i := i) ?_
  rw [acts_append, acts_append, hacts]
  exact List.mem_append_right _ (List.mem_append_left _ (List.mem_append_left _ hi))

/-- What a fiber has done last stands at the end of its record. -/
theorem History.last_doing {es : List Event} {a : Standing} {w : World} {run : RunState}
    {step : Step} (h : History s record fiber (es ++ [.iterated w run step]) a) :
    ∃ n, (eventsOf fiber record)[n]? = some (.iterated w run step) ∧
      n + 1 = (eventsOf fiber record).length := by
  have hdoings := h.doings
  rw [List.filter_append] at hdoings
  refine ⟨(es.filter Event.isDoing).length, ?_, ?_⟩
  · rw [← hdoings, List.getElem?_append_right (Nat.le_refl _), Nat.sub_self]
    rfl
  · rw [← hdoings, List.length_append]
    rfl

section Race

variable {ε ε₁ ε₂ : ErrorType} {left : Effect ε} {right : Effect ε₁}

/-- No handler of a race has been called yet: the fiber has something to do next, or it is parked
until the first one of its children finishes, and none has. -/
structure Undecided (s : Workshop) (record : List (FiberId × Event)) (fiber : FiberId)
    (base : RunState) (left right : Instruction) (during : List Event) : Prop where
  unheard : Unheard during
  goesOn : (∃ run step, s.Stands fiber (.active run step)) ∨
    ∃ l r, acts during = (startAll ⟨base.interruptible⟩ [l, r] [left, right]).map .deals ++
      [.waits (.firstDone l r)] ∧ ¬ HasEnded record (Registration.firstDone l r).Ends l ∧
        ¬ HasEnded record (Registration.firstDone l r).Ends r

/-- **A fiber does not stay on its way to a handler of a race** once one of its children has ended:
it has something to do next. -/
theorem Run.undecided_of_pauses (h : Run budget (init minted) record s) {before : List Event}
    {a : Standing} (hhistory : History s record fiber (before ++ during) a)
    (hunheard : Unheard during)
    (hpauses : Pauses (RaceWaits left right (elected s record fiber) ⟨base.interruptible⟩)
      during a) : Undecided s record fiber base left right during := by
  refine ⟨hunheard, ?_⟩
  cases hpauses with
  | moves => exact Or.inl ⟨_, _, hhistory.stands⟩
  | @parked earlier w run registration heq hwaits =>
    subst heq
    have hstands := hhistory.stands
    have hlast := hhistory
    rw [← List.append_assoc] at hlast
    obtain ⟨n, hwait, hlength⟩ := hlast.last_doing
    cases hwaits with
    | @first l r hacts =>
      have htrusts : Trusts s record fiber (.firstDone l r) := fun _ => nofun
      have hparked : ∀ c ∈ [l, r], ¬ HasEnded record (Registration.firstDone l r).Ends c := by
        intro c hc hended
        obtain ⟨daemon, hforked⟩ := hhistory.forked_of_startAll
          (hacts.trans (List.append_nil _).symm) rfl hc
        exact h.not_parked htrusts hc hforked hended hwait hlength hstands
      refine Or.inr ⟨l, r, ?_, hparked l (by simp), hparked r (by simp)⟩
      rw [acts_append, hacts]
      rfl
    | @exit l r leftFirst htold hacts =>
      obtain ⟨b, heq, hfinished⟩ := htold.1
      obtain rfl := Value.bool.inj (Exit.done.inj heq)
      cases leftFirst with
      | true =>
        obtain ⟨daemon, hforked⟩ := hhistory.forked_of_startAll hacts rfl List.mem_cons_self
        exact absurd hstands (h.not_parked_for_exit hforked hfinished hwait hlength)
      | false =>
        obtain ⟨daemon, hforked⟩ := hhistory.forked_of_startAll hacts rfl
          (List.mem_cons_of_mem _ List.mem_cons_self)
        exact absurd hstands (h.not_parked_for_exit hforked hfinished hwait hlength)

/-- A race is decided in the order of the ends: the handler is called of the child that has ended
first, unless that one has been passed over. -/
def RacesInTurn (s : Workshop) (record : List (FiberId × Event)) (fiber : FiberId) (base : RunState)
    (left : Effect ε) (right : Effect ε₁)
    (onLeft : Exit Value Value → Fiber ε₁ → Action (Effect ε₂))
    (onRight : Exit Value Value → Fiber ε → Action (Effect ε₂)) (during : List Event) : Prop :=
  Undecided s record fiber base left right during ∨ ∃ l r leftFirst calling,
    calling <+: during ∧ Calls left right onLeft onRight fiber base l r leftFirst calling ∧
    (Precedes record (Registration.firstDone l r).Ends l r → leftFirst = true) ∧
    (Precedes record (Registration.firstDone l r).Ends r l →
      Unpassed record fiber (.firstDone l r) 1 → leftFirst = false)

/-- **A race calls the handler of the child that has ended first**, unless that one has been passed
over. -/
theorem Run.race_in_turn (h : Run budget (init minted) record s)
    (hfree : s.world.store.isInterrupted fiber = false)
    {onLeft : Exit Value Value → Fiber ε₁ → Action (Effect ε₂)}
    {onRight : Exit Value Value → Fiber ε → Action (Effect ε₂)}
    (hbegun : Begun s record fiber base (raceFold left right onLeft onRight) during) :
    RacesInTurn s record fiber base left right onLeft onRight during := by
  obtain @⟨before, a, -, hduring, hhistory⟩ := hbegun
  have hasked : ¬ (elected s record fiber).asked := id
  rcases Leads.raceFold left right onLeft onRight hasked _ _ hduring
    (h.truthful (h.foresees_elected hfree) hhistory) with ⟨hunheard, hpauses⟩ |
      ⟨calling, later, b, rfl, hcalling, l, r, leftFirst, x, w, htold, hacts, rfl⟩
  · exact Or.inl (h.undecided_of_pauses hhistory hunheard hpauses)
  have hinTurn : ∀ {i c}, IsFirst record (Registration.firstDone l r).Ends [l, r] i c → c ∈ [l, r] →
      Unpassed record fiber (.firstDone l r) i → (if leftFirst then 0 else 1) = i := by
    intro i c hfirst hc hunpassed
    obtain ⟨daemon, hforked⟩ := hhistory.forked_of_startAll hacts rfl hc
    refine htold.2.2 ?_ ?_ (fun _ => nofun) hfirst hunpassed hforked <;> cases leftFirst
    · rfl
    · rfl
    · exact Nat.lt_succ_self 1
    · exact Nat.zero_lt_succ 1
  refine Or.inr ⟨l, r, leftFirst, calling, List.prefix_append _ _, ⟨hacts, x, w, hcalling⟩,
    fun hprecedes => ?_, fun hprecedes hunpassed => ?_⟩
  · have hfirst := hinTurn (isFirst_left hprecedes) (by simp) (unpassed_zero _ _ _)
    cases leftFirst with
    | true => rfl
    | false => cases hfirst
  · have hfirst := hinTurn (isFirst_right hprecedes) (by simp) hunpassed
    cases leftFirst with
    | true => cases hfirst
    | false => rfl

end Race

/-- A nursery fails in the order of the ends: with the primary cause of the child that has failed
first, unless that one has been passed over, if nobody else waits for the children. -/
def FailsInTurn {ε : ErrorType} (s : Workshop) (record : List (FiberId × Event)) (fiber : FiberId)
    (base : RunState) (es : List (Effect ε)) (during : List Event) (o : Outcome) : Prop :=
  ∃ children later,
    acts during = (startAll ⟨base.interruptible⟩ children es).map .deals ++ later ∧
    children.length = es.length ∧
    ((∀ c ∈ children, Confides s record fiber c (.firstFailure children) ε) →
      ∀ i c failure, IsFirst record (Registration.firstFailure children).Ends children i c →
        Unpassed record fiber (.firstFailure children) i → Ended record c (.halt failure) →
          FailsAs ε o (.halt (failure.untag ε)))

/-- **A nursery fails as the child does that has failed first**, unless that one has been passed
over. -/
theorem Run.nursery_in_turn (h : Run budget (init minted) record s)
    (hfree : s.world.store.isInterrupted fiber = false) {ε : ErrorType} {es : List (Effect ε)}
    {o : Outcome} (hdone : Evaluated s record fiber base (collectAllPar es) during o) :
    FailsInTurn s record fiber base es during o := by
  have hasked : ¬ (elected s record fiber).asked := id
  have hspares : Spares fiber (fun _ => False) (.active base (.eval (collectAllPar es))) during :=
    fun _ _ _ _ _ _ _ _ => id
  rcases hdone.foreseen h (h.foresees_elected hfree) hspares id (Settles.nursery es) with
    ⟨hnone, ⟨rfl, -⟩ | ⟨hcut, -⟩⟩ | ⟨children, later, hacts, hlength, -, hcut | hends⟩
  · refine ⟨[], [], hnone, rfl, fun _ i c failure hfirst => ?_⟩
    cases hfirst.position
  · exact absurd hcut hasked
  · exact absurd hcut hasked
  refine ⟨children, later, hacts, hlength, fun hconfides i c failure hfirst hunpassed hfails => ?_⟩
  have hc : c ∈ children := List.mem_of_getElem? hfirst.position
  rcases hends.failsAs with htold | ⟨k, culprit, x, hculprit, htold, hx, hcause⟩
  · obtain ⟨v, hv⟩ := htold.2.1.verdict rfl rfl hc (hconfides c hc)
    cases h.ended_eq hv hfails
  · obtain ⟨daemon, hforked⟩ : ∃ daemon, Forked record daemon fiber c := by
      obtain @⟨before, after, a, -, -, -, hhistory⟩ := hdone
      exact hhistory.forked_of_startAll hacts hlength hc
    have htrusts : Trusts s record fiber (.firstFailure children) := by
      intro children' heq c hc
      obtain rfl := Registration.firstFailure.inj heq
      exact ⟨ε, hconfides c hc⟩
    have hk := (List.getElem?_eq_some_iff.mp hculprit).1
    obtain rfl := htold.2.2 (k := k) rfl hk htrusts hfirst hunpassed hforked
    obtain rfl := Option.some.inj (hculprit.symm.trans hfirst.position)
    obtain ⟨o', ho', rfl⟩ := hx.2.1.exit rfl rfl (hconfides _ hc)
    obtain rfl := h.ended_eq ho' hfails
    exact hcause

/-- **In every run races are decided in the order of the ends**, if the fiber that runs them is
not asked to stop and nobody is passed over: as soon as one of its children has ended a race goes
on, and calls the handler of the child that has ended first, and a nursery fails with the primary
cause of the child that has failed first.  Of those whom a fiber asks when it begins to wait, the
first one is never passed over, and nobody is if none has ended before. -/
theorem Run.respects_order (h : Run budget (init minted) record s)
    (hfree : s.world.store.isInterrupted fiber = false) :
    (∀ {ε ε₁ ε₂ : ErrorType} (left : Effect ε) (right : Effect ε₁)
      (onLeft : Exit Value Value → Fiber ε₁ → Action (Effect ε₂))
      (onRight : Exit Value Value → Fiber ε → Action (Effect ε₂)) (base : RunState)
      (during : List Event),
      Begun s record fiber base (raceFold left right onLeft onRight) during →
        RacesInTurn s record fiber base left right onLeft onRight during) ∧
    ∀ {ε : ErrorType} (es : List (Effect ε)) (base : RunState) (during : List Event) (o : Outcome),
      Evaluated s record fiber base (collectAllPar es) during o →
        FailsInTurn s record fiber base es during o :=
  ⟨fun _ _ _ _ _ _ hbegun => h.race_in_turn hfree hbegun,
    fun _ _ _ _ hdone => h.nursery_in_turn hfree hdone⟩

/-! ### A child that takes its time -/

/-- The machine after a fiber has been started that runs an effect and makes way at every turn, and
some moves. -/
def hurried (i : Instruction) (n : Nat) : Machine :=
  (Machine.startRoot (.init 1 0) i .unit none).2.moves none n

/-- The workshop then. -/
def afterHurried (i : Instruction) (n : Nat) : Workshop := (hurried i n).workshop

/-- What has been done until then. -/
def recordHurried (i : Instruction) (n : Nat) : List (FiberId × Event) :=
  (hurried i 0).record none n

theorem run_hurried (i : Instruction) (n : Nat) :
    Run 1 (init 0) (recordHurried i n) (afterHurried i n) :=
  .idle (.start i .unit none) (Machine.moves_run none n (hurried i 0))

/-- A child that fails after some turns. -/
def failsLate : Nat → Effect ⟨"E"⟩
  | 0 => fail (.text "a")
  | n + 1 => .suspend (pure (failsLate n))

/-- A child that fails at once. -/
def failsSoon : Effect ⟨"E"⟩ := fail (.text "b")

theorem hasEnded_iff {check : Outcome → Bool} (hcheck : ∀ o, ends o ↔ check o = true) :
    HasEnded record ends c ↔ record.any (endsSo c check) = true := by
  constructor
  · rintro ⟨o, ⟨w, run, step, hmem, hplan⟩, ho⟩
    refine List.any_eq_true.mpr ⟨_, hmem, ?_⟩
    simp [endsSo, hplan, (hcheck o).mp ho]
  · intro h
    obtain ⟨o, hended, ho⟩ := ended_of_endsSo c check h
    exact ⟨o, hended, (hcheck o).mpr ho⟩

theorem precedes_of_take {check : Outcome → Bool} (hcheck : ∀ o, ends o ↔ check o = true) (n : Nat)
    (hended : (record.take n).any (endsSo c check) = true)
    (hnot : (record.take n).any (endsSo c' check) = false) : Precedes record ends c c' := by
  refine ⟨record.take n, List.take_prefix n record, (hasEnded_iff hcheck).mpr hended, fun h => ?_⟩
  rw [(hasEnded_iff hcheck).mp h] at hnot
  cases hnot

/-- Whether somebody begins to wait for the first one of several. -/
def beginsWait : FiberId × Event → Bool
  | (_, .iterated _ _ (.eval (.wait registration))) => !registration.candidates.isEmpty
  | _ => false

/-- The first one of two has not been passed over by those who wait when it has not ended yet. -/
theorem unpassed_of_take {check : Outcome → Bool} (hcandidates : registration.candidates = [c, c'])
    (hcheck : ∀ o, registration.Ends o ↔ check o = true) (n : Nat)
    (hlast : (record.drop n).any beginsWait = false)
    (hnone : (record.take n).any (endsSo c check) = false) :
    Unpassed record fiber registration 1 := by
  rintro before w run after rfl j hj d hd hended
  obtain rfl : j = 0 := Nat.lt_one_iff.mp hj
  rw [hcandidates] at hd
  obtain rfl := Option.some.inj hd
  rcases Nat.lt_or_ge before.length n with hlt | hge
  · rw [List.take_append, List.take_of_length_le (Nat.le_of_lt hlt),
      (hasEnded_iff hcheck).mp (hended.append _)] at hnone
    cases hnone
  · -- it is the wait that has not begun then
    rw [List.drop_append_of_le_length hge] at hlast
    have hbegins := List.any_eq_false.mp hlast _ (List.mem_append_right _ List.mem_cons_self)
    rw [beginsWait, hcandidates] at hbegins
    exact absurd rfl hbegins

theorem ends_firstFailure (children : List FiberId) (o : Outcome) :
    (Registration.firstFailure children).Ends o ↔ isFailure o = true := by
  cases o with
  | done v =>
    refine ⟨fun ⟨_, heq⟩ => ?_, fun h => ?_⟩
    · cases heq
    · cases h
  | halt h => exact ⟨fun _ => rfl, fun _ => ⟨h, rfl⟩⟩

theorem ends_firstDone (l r : FiberId) (o : Outcome) :
    (Registration.firstDone l r).Ends o ↔ (fun _ => true : Outcome → Bool) o = true :=
  ⟨fun _ => rfl, fun _ => trivial⟩

/-- Whether an outcome is the failure with an error. -/
def failsWith (text : String) : Outcome → Bool
  | .done _ => false
  | .halt h => match h.cause with
    | .fail ⟨type, .text text'⟩ => type = ⟨"E"⟩ && text' = text
    | _ => false

theorem cause_of_failsWith {text : String} {o : Outcome} (h : failsWith text o = true) :
    ∃ failure, o = .halt failure ∧ failure.cause = .fail ⟨⟨"E"⟩, .text text⟩ := by
  unfold failsWith at h
  split at h
  · cases h
  · next failure =>
    split at h
    · next type text' hcause =>
      obtain ⟨htype, htext⟩ := (Bool.and_eq_true ..).mp h
      rw [of_decide_eq_true htype, of_decide_eq_true htext] at hcause
      exact ⟨failure, rfl, hcause⟩
    · cases h

theorem cause_untag {text : String} {failure : Halt Failure}
    (h : failure.cause = .fail ⟨⟨"E"⟩, .text text⟩) :
    (failure.untag ⟨"E"⟩).cause = .fail (.text text) := by
  simp [Halt.untag, Halt.flatMap, h, Cause.flatMap]

/-- Nobody else waits for a child, and it is not told of otherwise. -/
theorem confides_of_awaitsOnly {first : Registration} {type : ErrorType}
    (hown : waitsFor c (eventsOf fiber record) = [first, .awaitExit c type])
    (honly : awaitsOnly fiber c record = true)
    (hsilent : s.world.store.reports.isEmpty = true)
    (hamong : ∀ type', first ≠ .awaitExit c type') : Confides s record fiber c first type where
  own := hown ▸ List.prefix_refl _
  nobody f hne := nobody_of_awaitsOnly honly hne
  unreported x := by
    rw [List.isEmpty_iff.mp hsilent]
    exact List.not_mem_nil
  among := hamong

/-- A fiber that has ended has evaluated what it has begun to evaluate. -/
theorem Evaluated.begun {i : Instruction} {o : Outcome}
    (h : Evaluated s record fiber base i during o) (hroot : base.stack = []) :
    ∃ after, acts after = [] ∧ Begun s record fiber base i (during ++ after) := by
  obtain @⟨before, after, a, hbefore, hduring, hafter, hhistory⟩ := h
  exact ⟨after, acts_of_root hroot hafter, .intro hbefore (hduring.life.append hafter) hhistory⟩

/-- A fiber that has ended has called a handler of its race. -/
theorem Run.not_undecided (h : Run budget (init minted) record s) {left right : Instruction}
    (hfinished : s.world.store.isFinished fiber = true) (hmore : 3 < (acts during).length) :
    ¬ Undecided s record fiber base left right during := by
  rintro ⟨-, ⟨run, step, hstands⟩ | ⟨l, r, hacts, -⟩⟩
  · obtain ⟨es, o, hhistory⟩ := h.ended_of_isFinished hfinished
    cases hhistory.stands.tokens.symm.trans hstands.tokens
  · rw [hacts] at hmore
    exact absurd hmore (Nat.lt_irrefl 3)

/-- A race whose left child takes its time. -/
def lateRace (n : Nat) : Effect ⟨"E"⟩ :=
  raceFold (failsLate n) failsSoon (fun _ _ => pure unit) fun _ _ => pure unit

/-- A nursery whose first child takes its time. -/
def lateNursery (n : Nat) : Effect ⟨"E"⟩ := collectAllPar [failsLate n, failsSoon]

namespace LateNursery

variable {n : Nat}

theorem confides (hn : n = 4 ∨ n = 6) (hc : c ∈ [(⟨2⟩ : FiberId), ⟨3⟩]) :
    Confides (afterHurried (lateNursery n) 200) (recordHurried (lateNursery n) 200) ⟨1⟩ c
      (.firstFailure [⟨2⟩, ⟨3⟩]) ⟨"E"⟩ := by
  rcases hn with rfl | rfl <;> rcases List.mem_pair.mp hc with rfl | rfl <;>
    exact confides_of_awaitsOnly rfl (by decide +kernel) (by decide +kernel) fun _ => nofun

theorem free (hn : n = 4 ∨ n = 6) :
    (afterHurried (lateNursery n) 200).world.store.isInterrupted ⟨1⟩ = false := by
  rcases hn with rfl | rfl <;> decide +kernel

/-- The nursery has been evaluated on its two children. -/
theorem evaluated (hn : n = 4 ∨ n = 6) {check : Outcome → Bool}
    (hends : (recordHurried (lateNursery n) 200).any (endsSo ⟨1⟩ check) = true) :
    ∃ during o, Evaluated (afterHurried (lateNursery n) 200) (recordHurried (lateNursery n) 200) ⟨1⟩
        (.start .unit true) (lateNursery n) during o ∧ check o = true ∧
      ∀ {children later}, acts during =
        (startAll ⟨true⟩ children [failsLate n, failsSoon]).map .deals ++ later →
          children.length = 2 → children = [⟨2⟩, ⟨3⟩] := by
  have hfirst : ∃ w, (eventsOf ⟨1⟩ (recordHurried (lateNursery n) 200)).head? =
      some (.iterated w (.start .unit true) (.eval (lateNursery n))) := by
    rcases hn with rfl | rfl <;> exact ⟨_, rfl⟩
  have hfinished : (afterHurried (lateNursery n) 200).world.store.isFinished ⟨1⟩ = true := by
    rcases hn with rfl | rfl <;> decide +kernel
  obtain ⟨during, o, hdone, hcheck, hacts⟩ :=
    (run_hurried (lateNursery n) 200).evaluated_of_isFinished check hfirst rfl hfinished (free hn)
      hends
  refine ⟨during, o, hdone, hcheck, fun hstart hlength => ?_⟩
  obtain ⟨i, j, more, heq⟩ : ∃ i j more, acts (eventsOf ⟨1⟩ (recordHurried (lateNursery n) 200)) =
    .forks ⟨2⟩ i :: .forks ⟨3⟩ j :: .waits (.firstFailure [⟨2⟩, ⟨3⟩]) :: more := by
      rcases hn with rfl | rfl <;> exact ⟨_, _, _, rfl⟩
  rw [hacts, heq] at hstart
  exact (eq_of_startAll hstart hlength).1

/-- The second child has failed with its error. -/
theorem second_failed (hn : n = 4 ∨ n = 6) : ∃ failure,
    Ended (recordHurried (lateNursery n) 200) ⟨3⟩ (.halt failure) ∧
      (failure.untag ⟨"E"⟩).cause = .fail (.text "b") := by
  obtain ⟨o, hended, hb⟩ := ended_of_endsSo ⟨3⟩ (failsWith "b")
    (by rcases hn with rfl | rfl <;> decide +kernel :
      (recordHurried (lateNursery n) 200).any _ = true)
  obtain ⟨failure, rfl, hcause⟩ := cause_of_failsWith hb
  exact ⟨failure, hended, cause_untag hcause⟩

/-- The second child has failed first, at some time up to which the first one has not. -/
theorem second_first (m : Nat)
    (hended : ((recordHurried (lateNursery n) 200).take m).any (endsSo ⟨3⟩ isFailure) = true)
    (hnot : ((recordHurried (lateNursery n) 200).take m).any (endsSo ⟨2⟩ isFailure) = false) :
    IsFirst (recordHurried (lateNursery n) 200) (Registration.firstFailure [⟨2⟩, ⟨3⟩]).Ends
      [⟨2⟩, ⟨3⟩] 1 ⟨3⟩ :=
  isFirst_right (precedes_of_take (ends_firstFailure _) m hended hnot)

end LateNursery

/-- A race has begun, and a handler is called of its two children. -/
theorem begun_lateRace : ∃ during, Begun (afterHurried (lateRace 6) 200)
      (recordHurried (lateRace 6) 200) ⟨1⟩ (.start .unit true) (lateRace 6) during ∧
    ¬ Undecided (afterHurried (lateRace 6) 200) (recordHurried (lateRace 6) 200) ⟨1⟩
      (.start .unit true) (failsLate 6) failsSoon during ∧
    ∀ {l r later}, acts during =
      (startAll ⟨true⟩ [l, r] [failsLate 6, failsSoon]).map .deals ++ later →
        l = ⟨2⟩ ∧ r = ⟨3⟩ := by
  have hfinished : (afterHurried (lateRace 6) 200).world.store.isFinished ⟨1⟩ = true := by
    decide +kernel
  obtain ⟨during, o, hdone, -, hacts⟩ := (run_hurried (lateRace 6) 200).evaluated_of_isFinished
    (fun _ => true) ⟨_, rfl⟩ rfl hfinished (by decide +kernel) (by decide +kernel)
  obtain ⟨after, hafter, hbegun⟩ := hdone.begun rfl
  obtain ⟨i, j, more, heq⟩ : ∃ i j more, acts (eventsOf ⟨1⟩ (recordHurried (lateRace 6) 200)) =
    .forks ⟨2⟩ i :: .forks ⟨3⟩ j :: .waits (.firstDone ⟨2⟩ ⟨3⟩) :: .awaits ⟨"E"⟩ ⟨3⟩ :: more :=
      ⟨_, _, _, rfl⟩
  rw [← List.append_nil (acts _), ← hafter, ← hacts, ← acts_append] at heq
  refine ⟨_, hbegun, (run_hurried (lateRace 6) 200).not_undecided hfinished ?_, fun hstart => ?_⟩
  · rw [heq]
    exact Nat.le_add_left 4 _
  · rw [heq] at hstart
    obtain ⟨hl, hr⟩ := List.cons.inj (eq_of_startAll hstart rfl).1
    exact ⟨hl, (List.cons.inj hr).1⟩

/-- The right child of a race has ended first, and its handler is called; the second child of a
nursery has failed first, and the nursery fails with that. -/
theorem Run.respects_order_failsLate :
    (∃ during calling, Begun (afterHurried (lateRace 6) 200) (recordHurried (lateRace 6) 200) ⟨1⟩
        (.start .unit true) (lateRace 6) during ∧ calling <+: during ∧
      Calls (failsLate 6) failsSoon (fun _ _ => pure (unit : Effect ⟨"E"⟩)) (fun _ _ => pure unit)
        ⟨1⟩ (.start .unit true) ⟨2⟩ ⟨3⟩ false calling) ∧
    ∃ during o, Evaluated (afterHurried (lateNursery 6) 200) (recordHurried (lateNursery 6) 200) ⟨1⟩
        (.start .unit true) (lateNursery 6) during o ∧
      FailsAs ⟨"E"⟩ o (.halt (.of (.fail (.text "b")))) := by
  constructor
  · have hfree : (afterHurried (lateRace 6) 200).world.store.isInterrupted ⟨1⟩ = false := by
      decide +kernel
    obtain ⟨during, hbegun, hdecided, hwho⟩ := begun_lateRace
    rcases (Run.respects_order (run_hurried (lateRace 6) 200) hfree).1 _ _ _ _ _ _ hbegun with
      hundecided | ⟨l, r, leftFirst, calling, ⟨rest, rfl⟩, hcalls, -, hright⟩
    · exact absurd hundecided hdecided
    obtain ⟨rfl, rfl⟩ := hwho (by rw [acts_append, hcalls.acts, List.append_assoc]; rfl)
    obtain rfl := hright
      (precedes_of_take (ends_firstDone _ _) 22 (by decide +kernel) (by decide +kernel))
      (unpassed_of_take rfl (ends_firstDone _ _) 22 (by decide +kernel) (by decide +kernel))
    exact ⟨_, calling, hbegun, ⟨rest, rfl⟩, hcalls⟩
  · obtain ⟨during, o, hdone, -, hwho⟩ := @LateNursery.evaluated 6 (Or.inr rfl) (fun _ => true)
      (by decide +kernel)
    obtain ⟨children, later, hstart, hlength, hfails⟩ := (Run.respects_order
      (run_hurried (lateNursery 6) 200) (LateNursery.free (Or.inr rfl))).2 _ _ _ _ hdone
    obtain rfl := hwho hstart hlength
    obtain ⟨failure, hended, hcause⟩ := @LateNursery.second_failed 6 (Or.inr rfl)
    obtain ⟨failure', rfl, hsame⟩ := hfails (fun c hc => LateNursery.confides (Or.inr rfl) hc) 1 ⟨3⟩
      failure (LateNursery.second_first 28 (by decide +kernel) (by decide +kernel))
      (unpassed_of_take rfl (ends_firstFailure _) 28 (by decide +kernel) (by decide +kernel)) hended
    exact ⟨during, _, hdone, failure', rfl, hsame.trans hcause⟩

/-! ### A child that is passed over -/

/-- **Not every nursery fails as the child does that has failed first**: if both have failed when
the fiber begins to wait, it is told of the one that it asks first. -/
theorem Run.not_every_order_respected :
    ¬ ∀ (budget minted : Nat) (s : Workshop) (record : List (FiberId × Event)) (fiber : FiberId)
        (base : RunState) (es : List (Effect ⟨"E"⟩)) (during : List Event) (o : Outcome),
      0 < budget → Run budget (init minted) record s →
      s.world.store.isInterrupted fiber = false →
      Evaluated s record fiber base (collectAllPar es) during o →
        ∃ children later,
          acts during = (startAll ⟨base.interruptible⟩ children es).map .deals ++ later ∧
          children.length = es.length ∧
          ((∀ c ∈ children, Confides s record fiber c (.firstFailure children) ⟨"E"⟩) →
            ∀ i c failure, IsFirst record (Registration.firstFailure children).Ends children i c →
              Ended record c (.halt failure) → FailsAs ⟨"E"⟩ o (.halt (failure.untag ⟨"E"⟩))) := by
  intro hall
  obtain ⟨during, o, hdone, ha, hwho⟩ := @LateNursery.evaluated 4 (Or.inl rfl) (failsWith "a")
    (by decide +kernel)
  obtain ⟨children, later, hstart, hlength, hfails⟩ := hall 1 0 _ _ ⟨1⟩ _ _ _ _ Nat.one_pos
    (run_hurried (lateNursery 4) 200) (LateNursery.free (Or.inl rfl)) hdone
  obtain rfl := hwho hstart hlength
  obtain ⟨failure, hended, hcause⟩ := @LateNursery.second_failed 4 (Or.inl rfl)
  obtain ⟨failure', rfl, hsame⟩ := hfails (fun c hc => LateNursery.confides (Or.inl rfl) hc) 1 ⟨3⟩
    failure (LateNursery.second_first 23 (by decide +kernel) (by decide +kernel)) hended
  -- it fails with the error of the other child
  obtain ⟨failure'', heq, hcause'⟩ := cause_of_failsWith ha
  obtain rfl := Exit.halt.inj heq
  have hother : (failure'.tag ⟨"E"⟩).cause = .fail ⟨⟨"E"⟩, .text "b"⟩ := by
    simp [Halt.tag, Halt.map, Halt.flatMap, hsame.trans hcause, Cause.flatMap]
  have htext := (Failure.mk.inj (Cause.fail.inj (hcause'.symm.trans hother))).2
  exact absurd (Value.text.inj htext) (by decide)

end Workshop

end Fibers
