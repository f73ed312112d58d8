import Fibers.Proofs.Announcing
import Fibers.Proofs.NormalForms
import Fibers.Proofs.Reuse
import Fibers.Proofs.Stories

/-!
# Exits that are passed on

An exit that is put into the interpreter at a type, and taken out again at that type, reports what it
has reported before: only empty sides of causes are lost, and nothing at all if there are none.  An exit
can be passed on, too: a fiber ends with it, another one adopts it and ends with it as well, and so
on.  However many fibers have passed it on, and whoever has handed it back on the way, no more is
lost; if it is normal, it is seen in the end exactly as it was in the beginning.

Who adopts the exit of a fiber has to get it, so it must not be lost to anybody else
(`Workshop.LeftTo`), and who passes it on must not be stopped (`Workshop.Undisturbed`).

## Main definitions

* `Exit.SameReport` — two exits report the same.
* `Workshop.Finally` — the last thing that a fiber has left to do.
* `Workshop.Passes` — a fiber has been passed an exit, through any number of others.
* `Workshop.Observed` — what is seen of the end of a fiber.

## Main results

* `Exit.untag_tag_eq_iff` — an exit is taken out as it has been put in exactly if it is normal.
* `Workshop.History.next` — what a fiber does next that is not stopped.
* `Workshop.Adopts.learns` — who adopts the exit of a fiber gets one, and ends with it.
* `Workshop.Passes.ended` — **whoever an exit is passed to ends with it.**
* `Workshop.Run.passes_exit` — **an exit that is passed on is seen exactly as it was.**
-/

namespace Fibers

/-! ### What an exit reports -/

namespace Exit

variable {x : Exit Value Value}

/-- Two exits report the same: a value, or failures with the same leaves in all causes. -/
inductive SameReport : Exit Value Value → Exit Value Value → Prop where
  | done (v : Value) : SameReport (.done v) (.done v)
  | halt {h g : Halt Value} : g.cause.leaves = h.cause.leaves →
      g.remaining.map Cause.leaves = h.remaining.map Cause.leaves →
      SameReport (.halt h) (.halt g)

/-- An exit that is put in and taken out again reports the same. -/
theorem sameReport_untag_tag (type : ErrorType) (x : Exit Value Value) :
    x.SameReport ((x.tag type).untag type) := by
  cases x with
  | done v => exact .done v
  | halt h =>
    have hsame : ((h.tag type).untag type) = h.flatMap .fail := h.untag_tag_eq type
    have hleaves : Cause.leaves ∘ (fun c : Cause Value => c.flatMap .fail) = Cause.leaves :=
      funext Cause.leaves_flatMap_fail
    refine .halt ?_ ?_ <;> rw [hsame]
    · exact Cause.leaves_flatMap_fail _
    · rw [Halt.flatMap, List.map_map, hleaves]

/-- **An exit is taken out as it has been put in exactly if it is normal.** -/
theorem untag_tag_eq_iff {type : ErrorType} : (x.tag type).untag type = x ↔ x.IsNormal :=
  ⟨fun h => h ▸ isNormal_untag type (x.tag type), fun h => h.untag_tag type⟩

end Exit

/-- What a fiber does first that ends later: it stops where it is, or goes on from there. -/
theorem Course.first_doing {fiber : FiberId} {I : Standing → Prop} {a : Standing} {es : List Event}
    {o : Outcome} {run : RunState} (h : Course fiber I a es (.ended o))
    (ha : (∃ step, a = .active run step) ∨ a = .waiting run) :
    (∃ w, (es.filter Event.isDoing).head? = some (.stopped w) ∧ w.mustStop fiber run = true) ∨
      ∃ w step, (es.filter Event.isDoing).head? = some (.iterated w run step) ∧
        ∀ next, a = .active run next → step = next := by
  generalize hend : Standing.ended o = b at h
  induction h with
  | rest =>
    subst hend
    rcases ha with ⟨step, heq⟩ | heq <;> cases heq
  | go _ hgoes _ ih =>
    cases hgoes with
    | started _ _ _ => rcases ha with ⟨step, heq⟩ | heq <;> cases heq
    | stopped _ hmust =>
      rcases ha with ⟨step, heq⟩ | heq
      · obtain ⟨rfl, -⟩ := Standing.active.inj heq
        exact Or.inl ⟨_, rfl, hmust⟩
      · cases heq
    | iterated _ =>
      rcases ha with ⟨step, heq⟩ | heq
      · obtain ⟨rfl, rfl⟩ := Standing.active.inj heq
        exact Or.inr ⟨_, _, rfl, fun next heq => (Standing.active.inj heq).2⟩
      · cases heq
    | resumed outcome | cancelled source _ =>
      -- it is woken, which is nothing that it does
      rcases ha with ⟨step, heq⟩ | heq
      · cases heq
      · obtain rfl := Standing.waiting.inj heq
        rcases ih (Or.inl ⟨_, rfl⟩) hend with hstops | ⟨w, step, hfirst, -⟩
        · exact Or.inl hstops
        · exact Or.inr ⟨w, step, hfirst, nofun⟩

namespace Workshop

variable {budget minted : Nat} {s : Workshop} {record : List (FiberId × Event)} {c f : FiberId}
  {n : Nat} {w : World} {run run' : RunState} {step' : Step} {type : ErrorType}
  {x z : Exit Value Value} {o o' : Outcome} {es : List Event}

/-! ### What a fiber does in the end -/

/-- As long as a fiber has done anything, nobody has asked it to stop. -/
def Unasked (record : List (FiberId × Event)) (c : FiberId) : Prop :=
  ∀ e ∈ eventsOf c record, ∀ w, e.world? = some w → w.store.isInterrupted c = false

/-- A fiber is not stopped in a state, since it does not allow it there or has not been asked to. -/
def Undisturbed (record : List (FiberId × Event)) (c : FiberId) (run : RunState) : Prop :=
  run.interruptible = false ∨ Unasked record c

/-- What a fiber has left to do, beginning with its `n`th doing, is one instruction, and nobody stops
it. -/
def Finally (record : List (FiberId × Event)) (c : FiberId) (n : Nat) (i : Instruction) : Prop :=
  ∃ w run, (eventsOf c record)[n]? = some (.iterated w run (.eval i)) ∧ run.stack = [] ∧
    Undisturbed record c run

/-- Who has not been asked to stop in the end has never been. -/
theorem Run.unasked (h : Run budget (init minted) record s)
    (hfree : s.world.store.isInterrupted c = false) : Unasked record c := by
  intro e he w hw
  obtain ⟨es, a, hhistory⟩ := h.history c
  have hmem : e ∈ es := by
    rw [← hhistory.doings] at he
    exact List.mem_of_mem_filter he
  exact hhistory.never_interrupted h hfree e hmem w hw

/-- A fiber that has ended has a history up to that. -/
theorem Run.history_of_ended (h : Run budget (init minted) record s) (hended : Ended record c o) :
    ∃ es, History s record c es (.ended o) := by
  obtain ⟨l, rfl, hbooks⟩ := h.books c
  obtain ⟨es, o', hhistory⟩ := h.ended_of_isFinished (hbooks.ended_iff.mp ⟨o, hended⟩)
  obtain rfl := hhistory.eq_of_ended hended
  exact ⟨es, hhistory⟩

theorem Undisturbed.mustStop_eq_false (h : Undisturbed record c run) {e : Event}
    (he : e ∈ eventsOf c record) (hw : e.world? = some w) : w.mustStop c run = false := by
  rcases h with hfalse | hunasked
  · rw [World.mustStop, hfalse, Bool.false_and]
  · rw [World.mustStop, hunasked e he w hw, Bool.and_false]

/-- **What a fiber does next** that ends later and is not stopped: it goes on from where it is. -/
theorem History.next (h : History s record c es (.ended o)) {step : Step}
    (he : (eventsOf c record)[n]? = some (.iterated w run step))
    (hafter : (∃ step', w.after c (step.plan (w.pending c) c run) = .active run' step') ∨
      w.after c (step.plan (w.pending c) c run) = .waiting run')
    (hcalm : Undisturbed record c run') :
    ∃ w' step', (eventsOf c record)[n + 1]? = some (.iterated w' run' step') ∧
      ∀ next, w.after c (step.plan (w.pending c) c run) = .active run' next → step' = next := by
  obtain ⟨es', hlife, hes'⟩ := h.of_iterated he
  have hnext : (es'.filter Event.isDoing).head? = (eventsOf c record)[n + 1]? := by
    rw [hes', List.head?_drop]
  rw [← hnext]
  rcases hlife.first_doing hafter with ⟨w', hfirst, hmust⟩ | hgoes
  · rw [hnext] at hfirst
    rw [hcalm.mustStop_eq_false (List.mem_of_getElem? hfirst) rfl] at hmust
    cases hmust
  · exact hgoes

/-- A fiber goes on with what it has left. -/
theorem History.next_of_active (h : History s record c es (.ended o)) {step : Step}
    (he : (eventsOf c record)[n]? = some (.iterated w run step))
    (hafter : w.after c (step.plan (w.pending c) c run) = .active run' step')
    (hcalm : Undisturbed record c run') :
    ∃ w', (eventsOf c record)[n + 1]? = some (.iterated w' run' step') := by
  obtain ⟨w', step'', hnext, heq⟩ := h.next he (Or.inl ⟨step', hafter⟩) hcalm
  exact ⟨w', heq step' hafter ▸ hnext⟩

/-- **A fiber that waits for the exit of another one goes on with an exit** if it ends later and is
not stopped. -/
theorem History.learns (h : History s record c es (.ended o))
    (hrun : Run budget (init minted) record s) (hawaits : Awaits record f type c n w run)
    (hcalm : Undisturbed record c run) :
    ∃ w' z, (eventsOf c record)[n + 1]? = some (.iterated w' run (.value (.exit z))) ∧
      Learns s record f (.waiter c n) z := by
  obtain ⟨w', step', hnext, -⟩ := h.next hawaits (World.after_of_rest rfl) hcalm
  obtain ⟨l, -, hbooks⟩ := hrun.books f
  have hmem := List.mem_of_getElem? hnext
  cases hbooks.after_wait hawaits rfl hnext with
  | iterated hgo =>
    generalize hstep : step' = step'' at hgo
    cases hgo with
    | told htold =>
      obtain ⟨-, z, rfl⟩ := htold.answered
      obtain rfl : step' = .value (.exit z) := hstep
      exact ⟨w', z, hnext, .goesOn hawaits hnext⟩
    | interrupted source hallowed hlost =>
      have hasked := hbooks.interrupted_of_lost (mem_eventsOf.mp (List.mem_of_getElem? hawaits)) rfl
        (hbooks.earlier (mem_eventsOf.mp hmem) rfl) hlost
      have hstays := hcalm.mustStop_eq_false hmem rfl
      rw [World.mustStop, hallowed, hasked] at hstays
      cases hstays

/-! ### Ending with an exit, and adopting one -/

namespace Finally

/-- A fiber that has nothing left but to end with an outcome ends with it. -/
theorem ended_of_done (h : Finally record c n (.done o')) (hrun : Run budget (init minted) record s)
    (hended : Ended record c o) : o = o' := by
  obtain ⟨w, run, he, hroot, hcalm⟩ := h
  obtain ⟨es, hhistory⟩ := hrun.history_of_ended hended
  obtain ⟨w', hnext⟩ := hhistory.next_of_active he rfl hcalm
  exact hrun.ended_eq hended
    ⟨w', run, _, mem_eventsOf.mp (List.mem_of_getElem? hnext), plan_of_root hroot o' _⟩

/-- **A fiber that has nothing left but to adopt the exit of another one** waits for it, gets it, and
has nothing left but to end with it. -/
theorem learns_of_adopt (h : Finally record c n (⟨f⟩ : Fiber type).adopt)
    (hrun : Run budget (init minted) record s) (hended : Ended record c o) :
    ∃ z, Learns s record f (.waiter c (n + 1)) z ∧
      Finally record c (n + 3) (Effect.ofExit z : Effect type) := by
  obtain ⟨w, run, he, hroot, hcalm⟩ := h
  obtain ⟨es, hhistory⟩ := hrun.history_of_ended hended
  -- it begins to wait, goes on with an exit, and describes how to end with that
  obtain ⟨w₁, hawaits⟩ := hhistory.next_of_active he rfl hcalm
  obtain ⟨w₂, z, hvalue, hlearns⟩ := hhistory.learns hrun hawaits hcalm
  obtain ⟨w₃, hexit⟩ := hhistory.next_of_active hvalue rfl hcalm
  exact ⟨z, hlearns, w₃, run, hexit, hroot, hcalm⟩

/-- A description of joining that has not been evaluated before is one of adopting. -/
theorem adopt_of_once {mark : Nat} {e : Effect type} (h : Finally record c n (Effect.once mark e))
    (hfirst : ∀ e ∈ (eventsOf c record)[n]?, e.IsFirst)
    (hrun : Run budget (init minted) record s) (hended : Ended record c o) :
    Finally record c (n + 1) e := by
  obtain ⟨w, run, he, hroot, hcalm⟩ := h
  obtain ⟨es, hhistory⟩ := hrun.history_of_ended hended
  have hunspent : w.store.spent.get? mark = some false := hfirst _ he type mark e rfl
  have hgoes : (w.carryOut c (run.planEval c (Effect.once mark e))).1 = some (run, .eval e) := by
    rw [World.carryOut_once, hunspent]
    rfl
  have hafter : w.after c (run.planEval c (Effect.once mark e)) = .active run (.eval e) := by
    simp only [World.after, hgoes]
  obtain ⟨w', hnext⟩ := hhistory.next_of_active he hafter hcalm
  exact ⟨w', run, hnext, hroot, hcalm⟩

end Finally

/-! ### Starting from outside -/

/-- In the course of a run a fiber has been started from outside with an instruction, by somebody
who is to be told its exit at a type of failures. -/
inductive Started (s : Workshop) (record : List (FiberId × Event)) (type : ErrorType)
    (i : Instruction) : FiberId → Prop where
  | intro {budget minted : Nat} {before after : List (FiberId × Event)} {w : World}
      {running : List Slice} {environment : Value} :
      Run budget (init minted) before ⟨w, running⟩ →
      Run budget ⟨(Machine.startRoot { budget, world := w } i environment (some type)).2.world,
        running⟩ after s →
      before ++ after = record → Started s record type i w.store.nextFiber

/-- A fiber that has ended, and has not been stopped, has begun with what it has been started with. -/
theorem History.finally_of_started {environment : Value} {allowed : Bool} {i : Instruction}
    (h : History s record c (.started environment allowed i :: es) (.ended o))
    (hcalm : Undisturbed record c (.start environment allowed)) : Finally record c 0 i := by
  have hdoings := h.doings
  have hlife := h.life
  rw [List.filter_cons_of_neg (by simp [Event.isDoing])] at hdoings
  cases hlife with
  | go _ hgoes hrest =>
    cases hgoes with
    | started _ _ _ =>
      rcases hrest.first_doing (Or.inl ⟨_, rfl⟩) with ⟨w, hfirst, hmust⟩ | ⟨w, step, hfirst, hstep⟩
      · rw [hdoings] at hfirst
        rw [hcalm.mustStop_eq_false (List.mem_of_mem_head? hfirst) rfl] at hmust
        cases hmust
      · obtain rfl := hstep _ rfl
        rw [hdoings, List.head?_eq_getElem?] at hfirst
        exact ⟨w, _, hfirst, rfl, hcalm⟩

/-- A fiber that is started from outside, and ends without having been asked to stop, begins with
what it has been started with. -/
theorem Started.finally {i : Instruction} (h : Started s record type i c)
    (hrun : Run budget (init minted) record s) (hended : Ended record c o)
    (hunasked : Unasked record c) : Finally record c 0 i := by
  obtain ⟨es, hends⟩ := hrun.history_of_ended hended
  cases h with
  | intro hbefore hafter hrecord =>
    subst hrecord
    obtain ⟨life, a, hhistory⟩ := Run.history_root hbefore hafter
    obtain ⟨o, rfl⟩ := hhistory.stands.ended_of_isFinished hends.isFinished
    exact hhistory.finally_of_started (Or.inr hunasked)

/-- Whoever has started a fiber from outside is told how it has ended. -/
theorem Started.report? {i : Instruction} (h : Started s record type i c)
    (hended : Ended record c o) : s.world.store.report? c = some (o.untag type) := by
  cases h with
  | intro hbefore hafter hrecord =>
    subst hrecord
    exact hbefore.announces hafter hended

/-! ### Passing an exit on -/

/-- A fiber adopts the exit of another one, and then ends: it waits for the other one with its `n`th
doing. -/
inductive Adopts (record : List (FiberId × Event)) (type : ErrorType) (f c : FiberId) : Nat → Prop
    where
  /-- It adopts the exit. -/
  | adopt {n : Nat} : Finally record c n (⟨f⟩ : Fiber type).adopt → Adopts record type f c (n + 1)
  /-- It evaluates a description of joining, for the first time. -/
  | join {n mark : Nat} : Finally record c n (Effect.once mark (⟨f⟩ : Fiber type).adopt) →
      (∀ e ∈ (eventsOf c record)[n]?, e.IsFirst) → Adopts record type f c (n + 2)

/-- **An exit is passed to a fiber**, through any number of others. -/
inductive Passes (s : Workshop) (record : List (FiberId × Event)) (type : ErrorType)
    (x : Exit Value Value) : FiberId → Prop where
  /-- The fiber has been run to end with the exit. -/
  | runs {c : FiberId} : Started s record type (Effect.ofExit x : Effect type) c →
      Unasked record c → Passes s record type x c
  /-- In the end it has nothing left but to end with the exit. -/
  | ends {c : FiberId} {n : Nat} : Finally record c n (Effect.ofExit x : Effect type) →
      Passes s record type x c
  /-- It adopts the exit of another fiber to which it has been passed. -/
  | adopts {f c : FiberId} {n : Nat} : Passes s record type x f → Adopts record type f c n →
      LeftTo s record type f c n → Passes s record type x c

/-- Who adopts the exit of a fiber gets one that is there, and ends with it. -/
theorem Adopts.learns (h : Adopts record type f c n) (hrun : Run budget (init minted) record s)
    (hended : Ended record c o) : ∃ z, Learns s record f (.waiter c n) z ∧ o = z.tag type := by
  have hadopt : ∀ {m}, Finally record c m (⟨f⟩ : Fiber type).adopt →
      ∃ z, Learns s record f (.waiter c (m + 1)) z ∧ o = z.tag type := by
    intro m hfinally
    obtain ⟨z, hlearns, hexit⟩ := hfinally.learns_of_adopt hrun hended
    exact ⟨z, hlearns, hexit.ended_of_done hrun hended⟩
  cases h with
  | adopt hfinally => exact hadopt hfinally
  | join hfinally hfirst => exact hadopt (hfinally.adopt_of_once hfirst hrun hended)

/-- **Whoever an exit is passed to ends so that it is seen to have ended with it**; if the exit is
normal, it ends with nothing else. -/
theorem Passes.ended (h : Passes s record type x c) (hrun : Run budget (init minted) record s)
    (hended : Ended record c o) :
    o.untag type = (x.tag type).untag type ∧ (x.IsNormal → o = x.tag type) := by
  induction h generalizing o with
  | runs hstarted hunasked =>
    obtain rfl := (hstarted.finally hrun hended hunasked).ended_of_done hrun hended
    exact ⟨rfl, fun _ => rfl⟩
  | ends hfinally =>
    obtain rfl := hfinally.ended_of_done hrun hended
    exact ⟨rfl, fun _ => rfl⟩
  | adopts _ hadopts hleft ih =>
    obtain ⟨z, hlearns, rfl⟩ := hadopts.learns hrun hended
    obtain ⟨o', hended', rfl⟩ := hrun.ended_of_learns hleft hlearns
    obtain ⟨hsame, hnormal⟩ := ih hended'
    refine ⟨(Exit.untag_tag_untag type o').trans hsame, fun hx => ?_⟩
    rw [hnormal hx, hx.untag_tag]

/-! ### What is seen in the end -/

/-- What is seen of the end of a fiber is an exit. -/
structure Observed (s : Workshop) (record : List (FiberId × Event)) (type : ErrorType)
    (x : Exit Value Value) (c : FiberId) : Prop where
  /-- The fiber has ended once, and with that. -/
  ended : ∃ o, Ended record c o ∧ o.untag type = x ∧ ∀ o', Ended record c o' → o' = o
  /-- The first one that is told of the fiber gets it, and all others the defect. -/
  learnt : AskedOnlyAt record type c → ∃ first, ∀ {fiber n z}, Learns s record c (.waiter fiber n) z →
    (Observation.waiter fiber n = first ∧ z = x) ∨
      (Observation.waiter fiber n ≠ first ∧ z = s.world.store.names.observed c)
  /-- As long as nobody has got it, whoever asks next gets it at once, unless it must stop. -/
  next : AskedOnlyAt record type c → (∀ a, ¬ Drops record c a) → (∀ a z, ¬ Learns s record c a z) →
    ∀ {fiber run}, s.world.mustStop fiber run = false →
      (s.world.iterate fiber run (.eval (.wait (.awaitExit c type)))).1 =
        some (run, .value (.exit x))
  /-- Whoever has started the fiber from outside gets it, whoever else asks. -/
  reported : ∀ {i}, Started s record type i c → s.world.store.report? c = some x

/-- **What is seen of the end of a fiber is the exit that has been passed to it**, as it is taken out
of the interpreter. -/
theorem Passes.observed (h : Passes s record type x c) (hrun : Run budget (init minted) record s)
    (hfinished : s.world.store.isFinished c = true) :
    Observed s record type ((x.tag type).untag type) c := by
  obtain ⟨l, rfl, hbooks⟩ := hrun.books c
  obtain ⟨o, hends⟩ := hbooks.ended_iff.mpr hfinished
  have hresult : ∀ {o'}, l.result = some o' → o' = o := fun ho' =>
    hrun.ended_eq ((hbooks.result _).mp ho') hends
  have hexit := (h.ended hrun hends).1
  -- whoever has handed it back, it is the same when it is seen at its type
  have hseen : ∀ {types : List ErrorType}, AskedOnlyAt record type l.fiber → types ⊆ l.types →
      (o.passed types).untag type = (x.tag type).untag type := by
    intro types hasked htypes
    refine (Exit.untag_passed (fun t ht => ?_) o).trans hexit
    obtain ⟨fiber, n, w, run, hawaits⟩ := hbooks.awaits_of_types htypes t ht
    exact hasked hawaits
  refine ⟨⟨o, hends, hexit, fun o' ho' => hrun.ended_eq ho' hends⟩, fun hasked => ?_,
    fun hasked hdropped hnobody {fiber run} hgoes => ?_, fun {i} hstarted => ?_⟩
  · cases hbooks.holds.shelf with
    | going _ hgoing _ _ =>
      rw [hfinished] at hgoing
      cases hgoing
    | kept _ _ _ _ hnil =>
      exact ⟨.starter 0, fun hlearns => absurd hnil (hbooks.given_ne_nil_of_learns hlearns)⟩
    | taken ho _ _ htypes hwho hgiven hrest =>
      obtain rfl := hresult ho
      obtain ⟨first, hasks, -, hfirst⟩ :=
        hbooks.exists_first (fun fiber => hrun.history fiber) hgiven hrest hwho
      refine ⟨first, fun hlearns => (hfirst hlearns).imp_left fun ⟨heq, hz⟩ => ⟨heq, ?_⟩⟩
      subst heq
      obtain ⟨w, run, hawaits⟩ := hasks
      obtain rfl := hasked hawaits
      exact hz.trans (hseen hasked htypes)
  · cases hbooks.holds.shelf with
    | going _ hgoing _ _ =>
      rw [hfinished] at hgoing
      cases hgoing
    | kept ho hdone hthere htypes _ =>
      obtain rfl := hresult ho
      rw [World.iterate_awaitExit type hdone hthere hgoes, hseen hasked htypes]
    | taken _ _ _ _ hwho hgiven hrest =>
      obtain ⟨first, -, hgot, -⟩ :=
        hbooks.exists_first (fun fiber => hrun.history fiber) hgiven hrest hwho
      rcases hgot with hdrops | hlearns
      · exact absurd hdrops (hdropped first)
      · exact absurd hlearns (hnobody first _)
  · rw [hstarted.report? hends, hexit]

/-- **Exits survive being put into the interpreter and taken out of it**, and they survive being
passed on.  An exit that is put in and taken out reports the same, is taken out as it is any more
times, and is taken out as it was exactly if it is normal.  In every run an exit that has been passed
to a fiber, through any number of others, is seen in the end as if it had been taken out at once; if
it is normal, it is seen exactly as it was. -/
theorem Run.passes_exit (h : Run budget (init minted) record s) (type : ErrorType)
    (x : Exit Value Value) :
    x.SameReport ((x.tag type).untag type) ∧
      (((x.tag type).untag type).tag type).untag type = (x.tag type).untag type ∧
      ((x.tag type).untag type = x ↔ x.IsNormal) ∧
      ∀ c, Passes s record type x c → s.world.store.isFinished c = true →
        Observed s record type ((x.tag type).untag type) c ∧
        (x.IsNormal → Observed s record type x c ∧ ∀ o, Ended record c o ↔ o = x.tag type) := by
  refine ⟨x.sameReport_untag_tag type, Exit.untag_tag_untag type _, Exit.untag_tag_eq_iff,
    fun c hpasses hfinished => ?_⟩
  have hobserved := hpasses.observed h hfinished
  refine ⟨hobserved, fun hx => ⟨?_, fun o => ⟨fun ho => (hpasses.ended h ho).2 hx, ?_⟩⟩⟩
  · rwa [hx.untag_tag] at hobserved
  · rintro rfl
    obtain ⟨o, ho, -⟩ := hobserved.ended
    exact (hpasses.ended h ho).2 hx ▸ ho

/-! ### An exit that is passed on twice -/

/-- A failure with much to tell. -/
def failedTwice : Exit Value Value :=
  .halt ⟨.seq (.fail (.int 1)) (.par (.die (.explicit "broken")) (.interrupt ⟨0⟩)),
    [.fail (.text "later")]⟩

/-- A fiber is started that ends with an exit, and is joined by the one who has started it. -/
def joiningFailed : Effect ⟨"E"⟩ :=
  ((Effect.ofExit failedTwice : Effect ⟨"E"⟩).fork : Effect ⟨"E"⟩).chainAs
    fun f : Fiber ⟨"E"⟩ => f.join

/-- That one is started by another one, which adopts its exit. -/
def relaying : Effect ⟨"E"⟩ :=
  (joiningFailed.fork : Effect ⟨"E"⟩).chainAs fun f : Fiber ⟨"E"⟩ => pure f.adopt

/-- The machine on which this is run. -/
def relay (n : Nat) : Machine :=
  (Machine.startRoot (.init 16 0) relaying .unit (some ⟨"E"⟩)).2.moves none n

/-- An exit is passed on by a fiber that is joined and by one whose exit is adopted, and reported. -/
theorem Run.passes_exit_relaying :
    Run 16 (init 0) ((relay 0).record none 60) (relay 60).workshop ∧ failedTwice.IsNormal ∧
      Passes (relay 60).workshop ((relay 0).record none 60) ⟨"E"⟩ failedTwice ⟨1⟩ ∧
      (relay 60).world.store.isFinished ⟨1⟩ = true ∧
      Started (relay 60).workshop ((relay 0).record none 60) ⟨"E"⟩ relaying ⟨1⟩ ∧
      (relay 60).world.store.report? ⟨1⟩ = some failedTwice := by
  have hmoves : Run 16 (relay 0).workshop ((relay 0).record none 60) (relay 60).workshop :=
    Machine.moves_run none 60 (relay 0)
  have hrun : Run 16 (init 0) ((relay 0).record none 60) (relay 60).workshop :=
    .idle (.start relaying .unit (some ⟨"E"⟩)) hmoves
  have hstarted : Started (relay 60).workshop ((relay 0).record none 60) ⟨"E"⟩ relaying ⟨1⟩ :=
    @Started.intro _ _ _ _ 16 0 [] _ (World.init 0) [] .unit .rest hmoves rfl
  have hnormal : failedTwice.IsNormal := by
    intro h hh c hc
    obtain rfl := Exit.halt.inj hh
    rcases List.mem_pair.mp hc with rfl | rfl
    · exact ⟨⟨nofun, trivial⟩, nofun, ⟨nofun, trivial⟩, nofun, trivial⟩
    · exact trivial
  have hfree : ∀ c ∈ [(⟨1⟩ : FiberId), ⟨2⟩, ⟨3⟩],
      (relay 60).world.store.isInterrupted c = false := by decide +kernel
  have hcalm : ∀ c ∈ [(⟨1⟩ : FiberId), ⟨2⟩, ⟨3⟩], ∀ run,
      Undisturbed ((relay 0).record none 60) c run :=
    fun c hc _ => Or.inr (hrun.unasked (hfree c hc))
  -- each of the two exits is waited for by one fiber alone, and nobody else is told of it
  have hsilent : ∀ f ∈ [(⟨2⟩ : FiberId), ⟨3⟩],
      (relay 60).world.store.reports.all (fun r => r.1 ≠ f) = true := by decide +kernel
  have hunreported : ∀ f ∈ [(⟨2⟩ : FiberId), ⟨3⟩], ∀ y,
      (f, y) ∉ (relay 60).world.store.reports := fun f hf y hmem =>
    of_decide_eq_true (List.all_eq_true.mp (hsilent f hf) _ hmem) rfl
  have hjoined : LeftTo (relay 60).workshop ((relay 0).record none 60) ⟨"E"⟩ ⟨3⟩ ⟨2⟩ 5 :=
    .of_alone rfl (fun fiber => nobody_of_awaitsOnly (by decide +kernel))
      (hunreported _ (by decide)) rfl
  have hadopted : LeftTo (relay 60).workshop ((relay 0).record none 60) ⟨"E"⟩ ⟨2⟩ ⟨1⟩ 4 :=
    .of_alone rfl (fun fiber => nobody_of_awaitsOnly (by decide +kernel))
      (hunreported _ (by decide)) rfl
  have hends : Passes (relay 60).workshop ((relay 0).record none 60) ⟨"E"⟩ failedTwice ⟨3⟩ :=
    @Passes.ends _ _ _ _ ⟨3⟩ 0 ⟨_, _, rfl, rfl, hcalm _ (by decide) _⟩
  have hfresh : ((relay 0).record none 60).all (fun p => p.2.usesFresh) = true := by decide +kernel
  have hjoins : Adopts ((relay 0).record none 60) ⟨"E"⟩ ⟨3⟩ ⟨2⟩ 5 :=
    @Adopts.join _ _ _ _ 3 0 ⟨_, _, rfl, rfl, hcalm _ (by decide) _⟩ fun e he =>
      Event.isFirst_of_usesFresh
        (List.all_eq_true.mp hfresh _ (mem_eventsOf.mp (List.mem_of_getElem? he)))
  have hadopts : Adopts ((relay 0).record none 60) ⟨"E"⟩ ⟨2⟩ ⟨1⟩ 4 :=
    @Adopts.adopt _ _ _ _ 3 ⟨_, _, rfl, rfl, hcalm _ (by decide) _⟩
  have hpasses : Passes (relay 60).workshop ((relay 0).record none 60) ⟨"E"⟩ failedTwice ⟨1⟩ :=
    .adopts (.adopts hends hjoins hjoined) hadopts hadopted
  have hfinished : (relay 60).world.store.isFinished ⟨1⟩ = true := by decide +kernel
  exact ⟨hrun, hnormal, hpasses, hfinished, hstarted,
    (((Run.passes_exit hrun ⟨"E"⟩ failedTwice).2.2.2 ⟨1⟩ hpasses hfinished).2 hnormal).1.reported
      hstarted⟩

end Workshop

end Fibers
