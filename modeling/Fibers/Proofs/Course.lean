import Fibers.Proofs.Above

/-!
# The course of a fiber

What happens to one fiber, seen apart from all others: it starts, iterates, waits until
somebody wakes it up, and ends.  The worlds in which it iterates are whatever the others
have made of them, so what holds of every course holds under every schedule.

An iteration that finds a pending cancellation counts as two events, `Event.stopped` for
dropping what the fiber was about to do and `Event.iterated` for the iteration itself.

## Main definitions

* `Standing`, `Event`, `Goes` — how a fiber stands, what happens to it, and what comes of it.
* `Course` — events in a row, departing from standings of a given kind.
* `Chores` — what a fiber goes through in any world.
* `Inside` — the standings of a fiber while it is above a state.
* `Event.IsCut` — the effects of an interruption.

## Main results

* `Course.split_chores` — a course goes through the chores that come first.
* `Course.split` — a course inside of an evaluation stays there or settles first.
* `Course.not_isCut` — above an uninterruptible state, where no interruptible region is
  entered, no interruption has an effect.
-/

namespace Fibers

/-! ### Standings and events -/

/-- How a fiber stands. -/
inductive Standing where
  /-- It has not been created. -/
  | unborn
  /-- It is running or ready to run. -/
  | active (run : RunState) (step : Step)
  /-- It is parked. -/
  | waiting (run : RunState)
  /-- It has finished. -/
  | ended (outcome : Outcome)

/-- What happens to a fiber. -/
inductive Event where
  /-- It is started. -/
  | started (environment : Value) (allowed : Bool) (i : Instruction)
  /-- It drops what it was about to do, for a pending cancellation. -/
  | stopped (w : World)
  /-- It iterates in a world, on a step that has not given way. -/
  | iterated (w : World) (run : RunState) (step : Step)
  /-- Its wait is completed. -/
  | resumed (outcome : Outcome)
  /-- Its wait is interrupted. -/
  | cancelled (source : FiberId)

/-- Whether an event is something the fiber itself does. -/
def Event.isDoing : Event → Bool
  | .stopped _ => true
  | .iterated _ _ _ => true
  | .started _ _ _ => false
  | .resumed _ => false
  | .cancelled _ => false

/-- The world in which a fiber does something. -/
def Event.world? : Event → Option World
  | .stopped w => some w
  | .iterated w _ _ => some w
  | .started _ _ _ => none
  | .resumed _ => none
  | .cancelled _ => none

namespace Standing

/-- A fiber that is handed an outcome. -/
def handed (run : RunState) (outcome : Outcome) : Standing := .active run (.ofOutcome outcome)

end Standing

namespace World

/-- How a fiber stands after a plan of its own. -/
def after (w : World) (fiber : FiberId) (plan : Plan) : Standing :=
  match (w.carryOut fiber plan).1, plan with
  | some (run, step), _ => .active run step
  | none, .finish outcome => .ended outcome
  | none, .makeWay run => .active run (.value .unit)
  | none, .wait run _ => .waiting run
  | none, _ => .unborn

/-- Releasing a lease does nothing, or builds the release in a world with other leases. -/
theorem carryOut_releaseLease (w : World) (fiber : FiberId) (run : RunState) (lease : LeaseId)
    (exit : Exit Value Value) :
    w.carryOut fiber (.releaseLease run lease exit) = (some (run, .value .unit), w) ∨
      ∃ release leases,
        let built := buildRelease release exit { w with store := { w.store with leases } }
        w.carryOut fiber (.releaseLease run lease exit) =
          (some (run, .ofBuilt built.1), built.2) := by
  simp only [carryOut, evaluate, startRelease]
  split
  · exact Or.inl rfl
  · split
    · exact Or.inl rfl
    · exact Or.inr ⟨_, _, rfl⟩

/-- A wait leaves the world that parking leaves. -/
theorem carryOut_wait (w : World) (fiber : FiberId) (run : RunState)
    (registration : Registration) :
    (w.carryOut fiber (.wait run registration)).2 = (w.park fiber run registration).2 := by
  simp only [carryOut]
  split
  · next heq => rw [heq]
  · next heq => rw [heq]

/-- A plan goes on at once with the rest it leaves, unless it ends the fiber, lets it wait or
lets others go first. -/
theorem carryOut_rest (w : World) (fiber : FiberId) (plan : Plan) :
    (∃ outcome, plan = .finish outcome) ∨ (∃ run registration, plan = .wait run registration) ∨
      (∃ run, plan = .makeWay run) ∨
      ∃ rest step, plan.rest? = some rest ∧ (w.carryOut fiber plan).1 = some (rest, step) := by
  cases plan with
  | finish outcome => exact Or.inl ⟨outcome, rfl⟩
  | wait run registration => exact Or.inr (Or.inl ⟨run, registration, rfl⟩)
  | makeWay run => exact Or.inr (Or.inr (Or.inl ⟨run, rfl⟩))
  | proceed run step => exact Or.inr (Or.inr (Or.inr ⟨run, step, rfl, rfl⟩))
  | build run code => exact Or.inr (Or.inr (Or.inr ⟨run, _, rfl, rfl⟩))
  | releaseLease run lease exit =>
    -- whether or not the lease has been released before
    refine Or.inr (Or.inr (Or.inr ?_))
    rcases w.carryOut_releaseLease fiber run lease exit with heq | ⟨release, leases, heq⟩ <;>
      exact ⟨run, _, rfl, congrArg Prod.fst heq⟩
  | translate run code | compute run code | update run cell f | release run id exit
  | reserve run v release | fork run child daemon | signal run target =>
    exact Or.inr (Or.inr (Or.inr ⟨run, _, rfl, rfl⟩))

/-- A fiber that has not finished goes on with the rest that its plan leaves. -/
theorem after_of_rest {w : World} {fiber : FiberId} {plan : Plan} {rest : RunState}
    (h : plan.rest? = some rest) :
    (∃ step, w.after fiber plan = .active rest step) ∨ w.after fiber plan = .waiting rest := by
  rcases w.carryOut_rest fiber plan with
    ⟨outcome, rfl⟩ | ⟨run, registration, rfl⟩ | ⟨run, rfl⟩ | ⟨run, step, hrest, hnext⟩
  · simp [Plan.rest?] at h
  · obtain rfl : run = rest := by simpa [Plan.rest?] using h
    simp only [after, carryOut]
    rcases w.park fiber run registration with ⟨_ | step, w'⟩
    · exact Or.inr rfl
    · exact Or.inl ⟨step, rfl⟩
  · obtain rfl : run = rest := by simpa [Plan.rest?] using h
    exact Or.inl ⟨_, rfl⟩
  · obtain rfl : run = rest := by simpa [hrest] using h
    exact Or.inl ⟨step, by simp only [after, hnext]⟩

end World

/-! ### What comes of an event -/

/-- `Goes fiber a e b` says that the event `e` takes the fiber from the standing `a` to `b`. -/
inductive Goes (fiber : FiberId) : Standing → Event → Standing → Prop where
  /-- A fiber starts with the instruction it was created for. -/
  | started (environment : Value) (allowed : Bool) (i : Instruction) :
      Goes fiber .unborn (.started environment allowed i)
        (.active (.start environment allowed) (.eval i))
  /-- A fiber that must stop drops what it was about to do. -/
  | stopped {w : World} {run : RunState} {step : Step} :
      step.givesWay = true → w.mustStop fiber run = true →
      Goes fiber (.active run step) (.stopped w)
        (.active run (.interrupt (w.store.interruptor fiber)))
  /-- A fiber iterates. -/
  | iterated {w : World} {run : RunState} {step : Step} :
      w.divert fiber run step = step →
      Goes fiber (.active run step) (.iterated w run step)
        (w.after fiber (step.plan (w.pending fiber) fiber run))
  /-- A parked fiber goes on with the outcome of its wait. -/
  | resumed {run : RunState} (outcome : Outcome) :
      Goes fiber (.waiting run) (.resumed outcome) (.handed run outcome)
  /-- A parked fiber that allows interruption unwinds with a cancellation. -/
  | cancelled {run : RunState} (source : FiberId) :
      run.interruptible = true →
      Goes fiber (.waiting run) (.cancelled source) (.active run (.interrupt source))

/-- Events in a row, each of which departs from a standing that `I` admits. -/
inductive Course (fiber : FiberId) (I : Standing → Prop) :
    Standing → List Event → Standing → Prop where
  /-- Nothing happens. -/
  | rest {a : Standing} : Course fiber I a [] a
  /-- One thing happens, then others. -/
  | go {a b c : Standing} {e : Event} {es : List Event} :
      I a → Goes fiber a e b → Course fiber I b es c → Course fiber I a (e :: es) c

/-- Any events in a row. -/
abbrev Life (fiber : FiberId) : Standing → List Event → Standing → Prop :=
  Course fiber fun _ => True

namespace Course

variable {fiber : FiberId} {I J : Standing → Prop} {a b c : Standing} {es fs : List Event}

theorem append (h : Course fiber I a es b) (h' : Course fiber I b fs c) :
    Course fiber I a (es ++ fs) c := by
  induction h with
  | rest => exact h'
  | go hI hgoes _ ih => exact .go hI hgoes (ih h')

theorem one {e : Event} (hI : I a) (h : Goes fiber a e b) : Course fiber I a [e] b :=
  .go hI h .rest

theorem of_append (h : Course fiber I a (es ++ fs) c) :
    ∃ b, Course fiber I a es b ∧ Course fiber I b fs c := by
  induction es generalizing a with
  | nil => exact ⟨a, .rest, h⟩
  | cons e es ih =>
    cases h with
    | go hI hgoes hrest =>
      obtain ⟨b, hes, hfs⟩ := ih hrest
      exact ⟨b, .go hI hgoes hes, hfs⟩

theorem weaken (hIJ : ∀ a, I a → J a) (h : Course fiber I a es b) : Course fiber J a es b := by
  induction h with
  | rest => exact .rest
  | go hI hgoes _ ih => exact .go (hIJ _ hI) hgoes ih

/-- Every event of a course departs from a standing of the course. -/
theorem of_mem {e : Event} (h : Course fiber I a es b) (he : e ∈ es) :
    ∃ c d, I c ∧ Goes fiber c e d := by
  induction h with
  | rest => cases he
  | go hI hgoes _ ih =>
    rcases List.mem_cons.mp he with rfl | hmem
    · exact ⟨_, _, hI, hgoes⟩
    · exact ih hmem

theorem life (h : Course fiber I a es b) : Life fiber a es b := h.weaken fun _ _ => trivial

end Course

/-! ### Chores -/

/-- The states and steps that a fiber goes through from one standing to another, whatever
worlds it finds and although its interruption may be requested. -/
inductive Chores (fiber : FiberId) : Standing → List (RunState × Step) → Standing → Prop where
  /-- None. -/
  | done {a : Standing} : Chores fiber a [] a
  /-- One, and then others. -/
  | cons {run : RunState} {step : Step} {b c : Standing} {chores : List (RunState × Step)} :
      run.interruptible = false →
      (∀ w : World, w.after fiber (step.plan (w.pending fiber) fiber run) = b) →
      Chores fiber b chores c → Chores fiber (.active run step) ((run, step) :: chores) c

section Chores

variable {fiber : FiberId} {I : Standing → Prop} {a b c : Standing} {e : Event} {es : List Event}
  {run : RunState} {step : Step} {chores : List (RunState × Step)}

/-- Where interruption is not allowed a running fiber does nothing but iterate. -/
theorem Goes.of_uninterruptible (h : Goes fiber (.active run step) e b)
    (hrun : run.interruptible = false) :
    ∃ w : World, e = .iterated w run step ∧
      b = w.after fiber (step.plan (w.pending fiber) fiber run) := by
  cases h with
  | stopped _ hstop => simp [World.mustStop, hrun] at hstop
  | @iterated w _ _ _ => exact ⟨w, rfl, rfl⟩

theorem Chores.append {chores' : List (RunState × Step)} (h : Chores fiber a chores b)
    (h' : Chores fiber b chores' c) : Chores fiber a (chores ++ chores') c := by
  induction h with
  | done => exact h'
  | cons hrun hafter _ ih => exact .cons hrun hafter (ih h')

theorem Chores.uninterruptible (h : Chores fiber a chores b) :
    ∀ p ∈ chores, p.1.interruptible = false := by
  induction h with
  | done => simp
  | cons hrun _ _ ih => exact List.forall_mem_cons.mpr ⟨hrun, ih⟩

/-- Where interruption is not allowed, a course from a running fiber begins with an
iteration. -/
theorem Course.of_uninterruptible (h : Course fiber I (.active run step) es c)
    (hrun : run.interruptible = false) :
    (es = [] ∧ c = .active run step) ∨ ∃ (w : World) (es' : List Event),
      es = .iterated w run step :: es' ∧
        Course fiber I (.active run step) [.iterated w run step]
          (w.after fiber (step.plan (w.pending fiber) fiber run)) ∧
        Course fiber I (w.after fiber (step.plan (w.pending fiber) fiber run)) es' c := by
  cases h with
  | rest => exact Or.inl ⟨rfl, rfl⟩
  | go hI hgoes hrest =>
    obtain ⟨w, rfl, rfl⟩ := hgoes.of_uninterruptible hrun
    exact Or.inr ⟨w, _, rfl, .one hI hgoes, hrest⟩

/-- The events of chores. -/
def OfChores (chores : List (RunState × Step)) (es : List Event) : Prop :=
  ∀ e ∈ es, ∃ w run step, (run, step) ∈ chores ∧ e = .iterated w run step

/-- A course goes through the chores that come first, or stops in the midst of them. -/
theorem Course.split_chores (h : Course fiber I a es c) (hchores : Chores fiber a chores b) :
    (OfChores chores es ∧ ∃ run step, (run, step) ∈ chores ∧ c = .active run step) ∨
      ∃ es₁ es₂, es = es₁ ++ es₂ ∧ OfChores chores es₁ ∧ Course fiber I a es₁ b ∧
        Course fiber I b es₂ c := by
  -- on the chores that are left, with the events of the rest of the course free
  induction hchores generalizing es with
  | done => exact Or.inr ⟨[], es, rfl, by simp [OfChores], .rest, h⟩
  | @cons run step b d chores hrun hafter _ ih =>
    have hmore : ∀ {w : World} {es : List Event}, OfChores chores es →
        OfChores ((run, step) :: chores) (.iterated w run step :: es) := by
      intro w es hes e he
      rcases List.mem_cons.mp he with rfl | he
      · exact ⟨w, run, step, List.mem_cons_self, rfl⟩
      · obtain ⟨w', run', step', hmem, heq⟩ := hes e he
        exact ⟨w', run', step', List.mem_cons_of_mem _ hmem, heq⟩
    cases h with
    | rest =>
      exact Or.inl ⟨by simp [OfChores], run, step, List.mem_cons_self, rfl⟩
    | go hI hgoes hrest =>
      obtain ⟨w, rfl, rfl⟩ := hgoes.of_uninterruptible hrun
      rw [hafter w] at hgoes hrest
      rcases ih hrest with ⟨hes, run', step', hmem, hc⟩ | ⟨es₁, es₂, rfl, hes, h₁, h₂⟩
      · exact Or.inl ⟨hmore hes, run', step', List.mem_cons_of_mem _ hmem, hc⟩
      · exact Or.inr ⟨_, es₂, rfl, hmore hes, .go hI hgoes h₁, h₂⟩

end Chores

/-! ### Courses above a state -/

/-- The standings of a fiber above a state that has not been handed an outcome. -/
def Inside (p : Bool → Prop) (base : RunState) : Standing → Prop
  | .active run step => RunState.Above p base run ∧ (run = base → step.isOutcome = false)
  | .waiting run => RunState.Above p base run
  | .unborn => False
  | .ended _ => False

/-- The interrupt status of the region that an event enters, if it enters one. -/
def Event.entered? : Event → Option Bool
  | .iterated _ _ step => step.entered?
  | _ => none

section Above

variable {p : Bool → Prop} {base mid : RunState} {fiber : FiberId} {I : Standing → Prop}
  {a b c : Standing} {e : Event} {es : List Event}

theorem Inside.of_above {run : RunState} (h : RunState.Above p base run) (step : Step) :
    Inside p base (.active run step) ∨ ∃ o, Standing.active run step = .handed base o := by
  by_cases hout : run = base ∧ step.isOutcome = true
  · -- the base itself is handed an outcome, which settles the evaluation
    obtain ⟨rfl, hstep⟩ := hout
    obtain ⟨o, rfl⟩ := Step.isOutcome_iff.mp hstep
    exact Or.inr ⟨o, rfl⟩
  · exact Or.inl ⟨h, fun heq => Bool.not_eq_true _ |>.mp fun hstep => hout ⟨heq, hstep⟩⟩

/-- **An event inside of an evaluation leaves the fiber inside or settles the evaluation.** -/
theorem Goes.inside (h : Goes fiber a e b) (ha : Inside p base a)
    (henter : ∀ allowed, e.entered? = some allowed → p allowed) :
    Inside p base b ∨ ∃ o, b = .handed base o := by
  cases h with
  | started environment allowed i => exact ha.elim
  | stopped _ _ => exact Inside.of_above ha.1 _
  | iterated _ =>
    obtain ⟨rest, hrest, habove⟩ := Step.plan_above ha.1 ha.2 henter
    rcases World.after_of_rest hrest with ⟨step, hafter⟩ | hafter <;> rw [hafter]
    · exact Inside.of_above habove step
    · exact Or.inl habove
  | resumed outcome => exact Inside.of_above ha _
  | cancelled source _ => exact Inside.of_above ha _

/-- **A course inside of an evaluation stays there, or settles first and goes on.** -/
theorem Course.split (h : Course fiber I a es c) (ha : Inside (fun _ => True) base a) :
    (Course fiber (Inside (fun _ => True) base) a es c ∧ Inside (fun _ => True) base c) ∨
      ∃ es₁ es₂ o, es = es₁ ++ es₂ ∧
        Course fiber (Inside (fun _ => True) base) a es₁ (.handed base o) ∧
        Course fiber I a es₁ (.handed base o) ∧ Course fiber I (.handed base o) es₂ c := by
  induction h with
  | rest => exact Or.inl ⟨.rest, ha⟩
  | @go a b c e es hI hgoes hrest ih =>
    rcases hgoes.inside ha fun _ _ => trivial with hb | ⟨o, rfl⟩
    · rcases ih hb with ⟨hcourse, hc⟩ | ⟨es₁, es₂, o, rfl, h₁, h₁', h₂⟩
      · exact Or.inl ⟨.go ha hgoes hcourse, hc⟩
      · exact Or.inr ⟨e :: es₁, es₂, o, rfl, .go ha hgoes h₁, .go hI hgoes h₁', h₂⟩
    · exact Or.inr ⟨[e], es, o, rfl, .one ha hgoes, .one hI hgoes, hrest⟩

/-- An evaluation that has settled goes no further. -/
theorem Course.of_handed {o : Outcome}
    (h : Course fiber (Inside p base) (.handed base o) es c) : es = [] ∧ c = .handed base o := by
  cases h with
  | rest => exact ⟨rfl, rfl⟩
  | go ha _ _ =>
    -- a standing from which anything more happens is inside
    have hout := ha.2 rfl
    rw [Step.isOutcome_ofOutcome] at hout
    cases hout

/-- Above a state whose continuations are higher, a fiber is above the lower one too. -/
theorem Inside.weaken (hmid : RunState.Above (fun _ => True) base mid)
    (hlt : base.stack.length < mid.stack.length) (h : Inside (fun _ => True) mid a) :
    Inside (fun _ => True) base a := by
  cases a with
  | active run step =>
    refine ⟨hmid.trans h.1, fun heq => ?_⟩
    -- what is above `mid` is higher than `base`, so it is not `base`
    have hle := h.1.eq_or_length_lt
    rw [heq] at hle
    rcases hle with rfl | hle <;> omega
  | waiting run => exact hmid.trans h
  | unborn | ended _ => exact h.elim

/-- A value handed over inside of an evaluation goes to a continuation above it. -/
theorem Course.length_lt_of_value (h : Course fiber (Inside p base) a es c) {w : World}
    {run : RunState} {v : Value} (hmem : .iterated w run (.value v) ∈ es) :
    base.stack.length < run.stack.length := by
  obtain ⟨d, d', hd, hgoes⟩ := h.of_mem hmem
  cases hgoes with
  | iterated _ =>
    rcases hd.1.eq_or_length_lt with rfl | hlt
    · have hout := hd.2 rfl
      cases hout
    · exact hlt

/-! ### Interruptions that have an effect -/

/-- The effects of an interruption: dropping what the fiber was about to do, iterating as a
fiber that must stop, and ending a wait. -/
def Event.IsCut (fiber : FiberId) : Event → Prop
  | .stopped _ => True
  | .cancelled _ => True
  | .iterated w run _ => w.mustStop fiber run = true
  | .started _ _ _ => False
  | .resumed _ => False

theorem Goes.not_isCut (h : Goes fiber a e b) (hbase : base.interruptible = false)
    (ha : Inside (· = false) base a) : ¬ e.IsCut fiber := by
  have hmust : ∀ {w : World} {run : RunState}, RunState.Above (· = false) base run →
      ¬ w.mustStop fiber run = true := by
    intro w run habove
    simp [World.mustStop, habove.interruptible_eq_false hbase]
  cases h with
  | started environment allowed i => exact id
  | stopped _ hstop => exact absurd hstop (hmust ha.1)
  | iterated _ => exact hmust ha.1
  | resumed outcome => exact id
  | cancelled source hallowed =>
    rw [RunState.Above.interruptible_eq_false ha hbase] at hallowed
    exact absurd hallowed Bool.false_ne_true

/-- **Above an uninterruptible state, where no interruptible region is entered, no interruption
has an effect.** -/
theorem Course.not_isCut (h : Course fiber (Inside (fun _ => True) base) a es c)
    (hbase : base.interruptible = false) (ha : Inside (· = false) base a)
    (henter : ∀ e ∈ es, e.entered? ≠ some true) : ∀ e ∈ es, ¬ e.IsCut fiber := by
  induction h with
  | rest => simp
  | @go a b c e es _ hgoes hrest ih =>
    have hfalse : ∀ allowed, e.entered? = some allowed → allowed = false := by
      intro allowed he
      refine Bool.not_eq_true _ |>.mp fun htrue => ?_
      exact henter e List.mem_cons_self (htrue ▸ he)
    rw [List.forall_mem_cons]
    refine ⟨hgoes.not_isCut hbase ha, ?_⟩
    -- the invariant is that no region has been entered in which interruption is allowed
    rcases hgoes.inside ha hfalse with hb | ⟨o, rfl⟩
    · exact ih hb fun e he => henter e (List.mem_cons_of_mem _ he)
    · rw [hrest.of_handed.1]
      simp

end Above

end Fibers
