import Fibers.Proofs.Containment
import Fibers.Proofs.Reports

/-!
# A race ends after both of its children

A race starts both of its children where interruption is not allowed, and waits for the first one
with the status of its surroundings.  A cancellation that ends this wait finds both children stopped
and waited for.  When one has finished, the handler of the winner gets the other one, and it runs
with the status of the surroundings again.  Every handler of the pair, of the race for the first
success and of the limit on the time waits for the other child before it ends, or stops it.

A handler that waits for the other child may be cut short: `Fiber.awaitOrInterrupt` then stops that
child and waits for it.  Nothing does so where the handler is not within that wait, and a
cancellation that takes effect there leaves the other child behind.

## Main definitions

* `RunState.handling`, `Exposed` — where the handler of a winner runs, and where nothing takes care
  of the other child.
* `RunsBoth` — the effects that run two others at once.
* `RaceContained` — what has been done to two children when a race ends.
* `Exit.orElse`, `PairEnds` — how a race for the first success ends, and how a pair does.

## Main results

* `Settles.awaitOrInterrupt` — a wait that takes care of the fiber that it waits for.
* `Settles.raceFold` — what a race has done when it settles.
* `Settles.pair`, `Settles.firstSuccess` — so do both kinds, and with what they end.
* `Workshop.Run.race_contains` — **in every run in which no cancellation takes effect where a
  handler is exposed, both children of a race that has ended have ended.**
* `Workshop.Run.not_every_race_contains` — a race that is cut short in a handler leaves a child
  behind.
-/

namespace Fibers

open Effect

/-! ### The handler of a winner -/

/-- The state in which the handler of a winner runs. -/
def RunState.handling (base : RunState) : RunState :=
  (base.enterStatus false).enterStatus base.interruptible

/-- A fiber runs the handler of a winner and has not entered a masked region in it. -/
def Exposed (base run : RunState) : Prop :=
  RunState.Above (fun _ => True) base.handling run ∧
    ∀ regions, run.statuses = regions ++ base.handling.statuses → false ∉ regions

/-- Whatever is evaluated in a state is calm until another region is entered. -/
def Quiet (p : Prospect) (run : RunState) : Prop :=
  ∀ r, RunState.Above (fun _ => True) run r → r.statuses = run.statuses → Calm p r

theorem Quiet.calm {p : Prospect} {run : RunState} (h : Quiet p run) : Calm p run :=
  h run .base rfl

theorem Quiet.chain {p : Prospect} {run : RunState} (h : Quiet p run)
    (next : Value → Action Instruction) : Quiet p (run.push (.chain next)) :=
  fun r habove hstatuses => h r (RunState.Above.trans (.chain next .base) habove) hstatuses

theorem quiet_of_false {p : Prospect} {run : RunState} (h : run.interruptible = false) :
    Quiet p run := by
  intro r _ hstatuses
  rw [RunState.interruptible, ← hstatuses] at h
  exact Or.inl h

theorem quiet_of_unasked {p : Prospect} (h : ¬ p.asked) (run : RunState) : Quiet p run :=
  fun _ _ _ => Or.inr (Or.inr h)

theorem exposed_of_statuses {base run : RunState}
    (h : RunState.Above (fun _ => True) base.handling run)
    (hstatuses : run.statuses = base.handling.statuses) : Exposed base run := by
  refine ⟨h, fun regions hregions => ?_⟩
  have hnil : regions = [] := by
    rw [hstatuses] at hregions
    exact List.self_eq_append_left.mp hregions
  rw [hnil]
  exact List.not_mem_nil

/-- Where the handler of a winner runs, nothing takes effect if that is spared. -/
theorem quiet_handling (final : Store) (base : RunState) :
    Quiet (.plain final (Exposed base)) base.handling :=
  fun _ habove hstatuses => Or.inr (Or.inl (exposed_of_statuses habove hstatuses))

/-- The handler of a winner runs above the state in which its race began. -/
theorem not_exposed_base (base : RunState) : ¬ Exposed base base := by
  rintro ⟨habove, -⟩
  have hheight : base.handling.stack.length = base.stack.length + 2 := rfl
  rcases habove.eq_or_length_lt with heq | hlt
  · rw [← heq] at hheight
    omega
  · omega

/-! ### Two children -/

/-- What is done to two children between their start and the end of their race. -/
inductive RaceEnds (l r : FiberId) : Outcome → List Dealing → Prop where
  /-- The wait for the first one has been cut short, and both are stopped. -/
  | abandoned (source : FiberId) :
      RaceEnds l r (.halt (.of (.interrupt source))) [.signals l, .signals r]
  /-- One of them has finished, and the other one is stopped. -/
  | stopped {o : Outcome} {loser : FiberId} : loser = l ∨ loser = r →
      RaceEnds l r o [.signals loser]
  /-- One of them has finished, and so has the other one. -/
  | joined {o : Outcome} : RaceEnds l r o []

/-- Two effects have been started on children, and both have finished; or nothing has been done to
others, because of a cancellation. -/
def RaceContained (P : FiberId → Prop) (restore : Restore) (effects : List Instruction)
    (o : Outcome) (ds : List Dealing) : Prop :=
  (ds = [] ∧ ∃ source, o = .halt (.of (.interrupt source))) ∨
    ∃ l r later, ds = startAll restore [l, r] effects ++ later ∧ RaceEnds l r o later ∧ P l ∧ P r

theorem RaceContained.mono {P P' : FiberId → Prop} {restore : Restore} {effects : List Instruction}
    {o : Outcome} {ds : List Dealing} (h : RaceContained P restore effects o ds)
    (hmono : ∀ c, P c → P' c) : RaceContained P' restore effects o ds :=
  h.imp_right fun ⟨l, r, later, hds, hends, hl, hr⟩ =>
    ⟨l, r, later, hds, hends, hmono l hl, hmono r hr⟩

/-- Both children that have been started have finished. -/
theorem RaceContained.of_forks {P : FiberId → Prop} {restore : Restore}
    {effects : List Instruction} {o : Outcome} {ds : List Dealing}
    (h : RaceContained P restore effects o ds) {child : FiberId} {i : Instruction}
    (hmem : .forks child i ∈ ds) : P child := by
  rcases h with ⟨rfl, -⟩ | ⟨l, r, later, rfl, hends, hl, hr⟩
  · cases hmem
  · have hchild : child ∈ [l, r] := by
      refine mem_of_forks hmem fun hlater => ?_
      cases hends <;> simp at hlater
    rcases List.mem_pair.mp hchild with rfl | rfl
    · exact hl
    · exact hr

/-- What the handler of a winner has done when it settles: the other child has finished, and if
anything has happened to it, it has been asked to stop. -/
def Handled (final : Store) (other : FiberId) (ds : List Dealing) : Prop :=
  final.isFinished other = true ∧ (ds = [] ∨ ds = [.signals other])

theorem Handled.ends {final : Store} {l r other : FiberId} {o : Outcome} {ds : List Dealing}
    (h : Handled final other ds) (hother : other = l ∨ other = r) : RaceEnds l r o ds := by
  obtain ⟨-, rfl | rfl⟩ := h
  · exact .joined
  · exact .stopped hother

/-- How code for a value ends that is called in some world: with what it computes, or with the
defect of its panic. -/
def Action.Gives (code : Action Value) (o : Outcome) : Prop :=
  ∃ w, (∃ v, (code.run w).1 = .ok v ∧ o = .done v) ∨ ∃ d, (code.run w).1 = .error d ∧ o = .die d

/-- The first success of two children, given the exit of the one that is first and that of the other
one: a value if there is one, or else what both have failed with. -/
def Exit.orElse : Exit Value Value → Exit Value Value → Exit Value Value
  | .done a, _ => .done a
  | .halt _, .done b => .done b
  | .halt h, .halt g => .halt (bothFailed h g)

/-! ### Waiting for the other child, and stopping it -/

namespace Settles

variable {fiber : FiberId} {p : Prospect} {run : RunState}
  {Q : Outcome → List Act → Prop} {ε ε' : ErrorType}

/-- A fiber that has been stopped and waited for has finished. -/
theorem interrupt {f : Fiber ε} (hquiet : Quiet p run)
    (h : ∀ x, p.Exits ε f.id x → Q (.done (.exit x)) [.signals f.id, .awaits ε f.id]) :
    Settles fiber p run (.active run (.eval (f.interrupt : Effect ε'))) Q := by
  refine chain_value (d := [.signals f.id]) (R := fun _ => True) hquiet.calm (hquiet.chain _).calm
    (signal (hquiet.chain _).calm ⟨_, rfl, rfl, trivial⟩) ?_
  rintro v - w
  exact awaitExit hquiet.calm h

/-- The exit of an evaluation is a value, where interruption is not allowed. -/
theorem result {e : Effect ε} {P : Outcome → List Act → Prop}
    (hrun : run.interruptible = false)
    (h : ∀ r : RunState, r.interruptible = false →
      Settles fiber p r (.active r (.eval e)) P)
    (hQ : ∀ o as, P o as → Q (.done (.exit (o.untag ε))) as) :
    Settles fiber p run (.active run (.eval (e.result : Effect ε'))) Q := by
  refine fold hrun (h _ hrun) ?_ ?_
  · rintro v as hv w
    refine done (Or.inl hrun) ?_
    rw [List.append_nil]
    exact hQ (.done v) as hv
  · rintro failure as hfailure w
    refine done (Or.inl hrun) ?_
    rw [List.append_nil]
    exact hQ (.halt failure) as hfailure

/-- The exit of a use is merged with that of its finalizer. -/
theorem finishWith {x : Exit Value Value} {finalizer : Effect ε} {P : Outcome → List Act → Prop}
    (hrun : run.interruptible = false)
    (h : ∀ r : RunState, r.interruptible = false →
      Settles fiber p r (.active r (.eval finalizer)) P)
    (hQ : ∀ o as, P o as → Q ((x.withFinalizer (o.untag ε)).tag ε) as) :
    Settles fiber p run (.active run (.eval (finishWith x finalizer))) Q := by
  refine chain (P := fun o as => ∃ o', o = .done (.exit (o'.untag ε)) ∧ P o' as) (Or.inl hrun)
    (Or.inl hrun) (result hrun h fun o as ho => ⟨o, rfl, ho⟩) ?_ ?_
  · rintro v as ⟨o, heq, ho⟩ w
    obtain rfl := Exit.done.inj heq
    refine done (Or.inl hrun) ?_
    rw [List.append_nil]
    exact hQ o as ho
  · rintro failure as ⟨o, heq, -⟩
    cases heq

/-- **A wait that takes care of the fiber that it waits for**: if it is cut short, the fiber is
stopped and waited for. -/
theorem awaitOrInterrupt {f : Fiber ε} (hcalm : Calm p run)
    (hdone : ∀ x, p.Exits ε f.id x → Q (.done (.exit x)) [.awaits ε f.id])
    (hhalt : p.asked → p.final.isFinished f.id = true → ∀ h as, dealt as = [.signals f.id] →
      Q (.halt h) as) :
    Settles fiber p run (.active run (.eval (f.awaitOrInterrupt : Effect ε'))) Q := by
  simp only [Fiber.awaitOrInterrupt, onInterrupt, onExit, bracketExit]
  refine mask (Or.inl hcalm) ?_
  have hrun : (run.enterStatus false).interruptible = false := rfl
  generalize run.enterStatus false = masked at hrun ⊢
  -- nothing is acquired
  refine chain_value (d := []) (R := fun _ => True) (Or.inl hrun) (Or.inl hrun)
    (done (Or.inl hrun) ⟨_, rfl, rfl, trivial⟩) ?_
  rintro held - w
  refine chain (P := fun o as => dealt as = [] ∧ ∃ y, o = .done (.exit y) ∧
      ((as = [.awaits ε f.id] ∧ ∃ x, y = .done (.exit x) ∧ p.Exits ε f.id x) ∨
        p.asked ∧ ∃ source, y = .halt (.of (.interrupt source)))) (Or.inl hrun) (Or.inl hrun)
    ?_ ?_ ?_
  · refine result (P := fun o as => dealt as = [] ∧
        ((as = [.awaits ε f.id] ∧ ∃ x, o = .done (.exit x) ∧ p.Exits ε f.id x) ∨
          p.asked ∧ ∃ source, o = .halt (.of (.interrupt source)))) hrun
      (fun r hr => region_wait (Or.inl hr) ?_ ?_) ?_
    · rintro o ⟨⟨hfinished, x, rfl⟩, htells⟩
      exact ⟨rfl, Or.inl ⟨rfl, x, rfl, ⟨hfinished, x, rfl⟩, htells⟩⟩
    · rintro hasked source as (rfl | rfl) <;> exact ⟨rfl, Or.inr ⟨hasked, source, rfl⟩⟩
    · rintro o as ⟨hdealt, ⟨rfl, x, rfl, hx⟩ | ⟨hasked, source, rfl⟩⟩
      · exact ⟨rfl, _, rfl, Or.inl ⟨rfl, x, rfl, hx⟩⟩
      · exact ⟨hdealt, _, rfl, Or.inr ⟨hasked, source, rfl⟩⟩
  · rintro v as ⟨hdealt, y, heq, hy⟩ w'
    obtain rfl := Exit.done.inj heq
    rcases hy with ⟨rfl, x, rfl, hx⟩ | ⟨hasked, source, rfl⟩
    · -- there is nothing to clean up
      refine finishWith (P := fun o as => as = [] ∧ o = .done .unit) hrun
        (fun r hr => done (Or.inl hr) ⟨rfl, rfl⟩) ?_
      rintro o as ⟨rfl, rfl⟩
      exact hdone x hx
    · have hcut : (Exit.halt (.of (.interrupt source)) : Exit Value Value).isInterrupted = true :=
        Cause.isInterrupted_interrupt source
      refine finishWith (P := fun _ as => dealt as = [.signals f.id] ∧
        p.final.isFinished f.id = true) hrun (fun r hr => ?_) ?_
      · rw [if_pos hcut]
        refine suspend (Or.inl (Or.inl hr)) fun w => ?_
        refine chain_value (d := [.signals f.id, .awaits ε f.id])
          (R := fun _ => p.final.isFinished f.id = true) (Or.inl hr) (Or.inl hr)
          (interrupt (quiet_of_false hr) fun x hx => ⟨_, rfl, rfl, hx.isFinished⟩) ?_
        rintro v hfinished w
        exact done (Or.inl hr) ⟨rfl, hfinished⟩
      · rintro o as' ⟨hsignals, hfinished⟩
        have hboth : dealt (as ++ as') = [.signals f.id] := by
          rw [dealt_append, hdealt, hsignals, List.nil_append]
        cases o <;> exact hhalt hasked hfinished _ _ hboth
  · rintro failure as ⟨-, y, heq, -⟩
    cases heq

/-! ### The race -/

/-- What follows on the start of a fiber. -/
theorem chain_fork {child : Instruction} {next : Value → Action Instruction}
    (hcalm : Calm p run) (hpush : Calm p (run.push (.chain next)))
    (h : ∀ (c : FiberId) (w : World), Settles fiber p run
      (.active run (.ofBuilt ((next (.fiber c)).run w).1)) fun o as => Q o (.forks c child :: as)) :
    Settles fiber p run
      (.active run (.eval (.chain (.fork child false) next))) Q := by
  refine chain (P := fun o as => ∃ c, o = .done (.fiber c) ∧ as = [.forks c child]) hcalm hpush
    (fork hpush fun c => ⟨c, rfl, rfl⟩) ?_ ?_
  · rintro v as ⟨c, heq, rfl⟩ w
    obtain rfl := Exit.done.inj heq
    exact h c w
  · rintro failure as ⟨c, heq, -⟩
    cases heq

/-- Two children that are given up are stopped and waited for. -/
theorem abandonRace {ε₁ ε₂ : ErrorType} {left : Fiber ε} {right : Fiber ε₁} {h : Halt Value}
    (hrun : run.interruptible = false)
    (hQ : p.final.isFinished left.id = true → p.final.isFinished right.id = true →
      Q ((Exit.halt h).tag ε₂)
        [.signals left.id, .signals right.id, .awaits ε left.id, .awaits ε₁ right.id]) :
    Settles fiber p run
      (.active run (.eval (abandonRace left right h : Effect ε₂))) Q := by
  have hcalm : ∀ {r : RunState}, r.interruptible = false → Calm p r := Or.inl
  refine chain_value
    (d := [.signals left.id, .signals right.id, .awaits ε left.id, .awaits ε₁ right.id])
    (R := fun _ => p.final.isFinished left.id = true ∧ p.final.isFinished right.id = true)
    (hcalm hrun) (hcalm hrun) ?_ fun v hall w => done (hcalm hrun) (hQ hall.1 hall.2)
  refine chain_value (d := [.signals left.id, .signals right.id, .awaits ε left.id])
    (R := fun _ => p.final.isFinished left.id = true) (hcalm hrun) (hcalm hrun) ?_ fun v hleft w =>
      awaitExit (hcalm hrun) fun x hx => ⟨_, rfl, rfl, hleft, hx.isFinished⟩
  refine chain_value (d := [.signals left.id, .signals right.id]) (R := fun _ => True)
    (hcalm hrun) (hcalm hrun) ?_ fun v _ w =>
      awaitExit (hcalm hrun) fun x hx => ⟨_, rfl, rfl, hx.isFinished⟩
  exact chain_value (d := [.signals left.id]) (R := fun _ => True) (hcalm hrun) (hcalm hrun)
    (signal (hcalm hrun) ⟨_, rfl, rfl, trivial⟩) fun v _ w =>
      signal (hcalm hrun) ⟨_, rfl, rfl, trivial⟩

section Handlers

variable {ε₁ ε₂ : ErrorType} {allowed : Bool}

/-- The handler of a winner gets its exit, and runs with the status of the surroundings. -/
theorem handle {winner : Fiber ε} {code : Exit Value Value → Action (Effect ε₂)}
    (hrun : run.interruptible = false) (hhandling : Calm p (run.enterStatus allowed))
    (hcode : ∀ x, p.Exits ε winner.id x → ∃ e, code x = pure e ∧
      Settles fiber p (run.enterStatus allowed) (.active (run.enterStatus allowed) (.eval e))
        fun o as => Q o (.awaits ε winner.id :: as)) :
    Settles fiber p run
      (.active run (.eval ((winner.awaitExit : Effect ε₂).chainAs fun x : Exit Value Value => do
        let handled ← code x
        pure (Restore.apply ⟨allowed⟩ handled)))) Q := by
  refine chain_value (d := [.awaits ε winner.id])
    (R := fun v => ∃ x, v = .exit x ∧ p.Exits ε winner.id x)
    (Or.inl hrun) (Or.inl hrun) (awaitExit (Or.inl hrun) fun x hx => ⟨_, rfl, rfl, x, rfl, hx⟩) ?_
  rintro v ⟨x, rfl, hx⟩ w
  obtain ⟨e, hbuilt, hsettles⟩ := hcode x hx
  change Settles fiber p run (.active run (.ofBuilt ((code x >>= fun handled =>
    (pure (Restore.apply ⟨allowed⟩ handled) : Action (Effect ε₂))).run w).1)) _
  rw [hbuilt]
  exact region (Or.inl (Or.inl hrun)) hhandling hsettles

/-- What has happened when a race ends: nothing, because of a cancellation; or two effects have been
started on children, and the wait for the first one has been cut short, or else a handler has seen to
what is wanted. -/
def RaceSettles (p : Prospect) (restore : Restore) (effects : List Instruction)
    (Q : FiberId → FiberId → Outcome → List Act → Prop) (o : Outcome) (as : List Act) : Prop :=
  (as = [] ∧ p.asked ∧ ∃ source, o = .halt (.of (.interrupt source))) ∨
    ∃ l r later, as = (startAll restore [l, r] effects).map .deals ++ later ∧
      ((p.asked ∧ (∃ source, o = .halt (.of (.interrupt source))) ∧
          dealt later = [.signals l, .signals r] ∧ p.final.isFinished l = true ∧
            p.final.isFinished r = true) ∨
        ∃ more, later = .waits (.firstDone l r) :: more ∧ Q l r o more)

/-- A race whose handlers take care of the other child contains both. -/
theorem RaceSettles.contained {restore : Restore} {effects : List Instruction}
    {Q : FiberId → FiberId → Outcome → List Act → Prop} {o : Outcome} {as : List Act}
    (h : RaceSettles p restore effects Q o as) (hQ : ∀ l r o more, Q l r o more →
      RaceEnds l r o (dealt more) ∧ p.final.isFinished l = true ∧ p.final.isFinished r = true) :
    RaceContained (fun c => p.final.isFinished c = true) restore effects o (dealt as) := by
  rcases h with ⟨rfl, -, hcut⟩ | ⟨l, r, later, rfl, ⟨-, ⟨source, rfl⟩, hdealt, hl, hr⟩ |
    ⟨more, rfl, hends⟩⟩
  · exact Or.inl ⟨rfl, hcut⟩
  · refine Or.inr ⟨l, r, _, ?_, .abandoned source, hl, hr⟩
    rw [dealt_append, dealt_map_deals, hdealt]
  · refine Or.inr ⟨l, r, dealt more, ?_, hQ l r o more hends⟩
    rw [dealt_append, dealt_map_deals, dealt_waits]

/-- **What a race has done when it settles.** -/
theorem raceFold {left : Effect ε} {right : Effect ε₁}
    {onLeft : Exit Value Value → Fiber ε₁ → Action (Effect ε₂)}
    {onRight : Exit Value Value → Fiber ε → Action (Effect ε₂)}
    {Q : FiberId → FiberId → Outcome → List Act → Prop} (hhandling : Calm p run.handling)
    (hleft : ∀ l (other : Fiber ε₁) x, p.Exits ε l x → ∃ e, onLeft x other = pure e ∧
      Settles fiber p run.handling (.active run.handling (.eval e))
        fun o as => Q l other.id o (.awaits ε l :: as))
    (hright : ∀ r (other : Fiber ε) x, p.Exits ε₁ r x → ∃ e, onRight x other = pure e ∧
      Settles fiber p run.handling (.active run.handling (.eval e))
        fun o as => Q other.id r o (.awaits ε₁ r :: as)) :
    Settles fiber p run (.active run (.eval (raceFold left right onLeft onRight : Effect ε₂)))
      (RaceSettles p ⟨run.interruptible⟩ [left, right] Q) := by
  refine mask (bears_of_asked fun hasked source => Or.inl ⟨rfl, hasked, source, rfl⟩) ?_
  have hrun : (run.enterStatus false).interruptible = false := rfl
  rw [RunState.handling] at hhandling hleft hright
  generalize run.enterStatus false = masked at *
  generalize run.interruptible = allowed at *
  refine chain_fork (Or.inl hrun) (Or.inl hrun) fun l _ => ?_
  refine chain_fork (Or.inl hrun) (Or.inl hrun) fun r _ => ?_
  change Settles _ _ _ _ fun o later => RaceSettles _ _ _ _ o
    ((startAll ⟨allowed⟩ [l, r] [left, right]).map .deals ++ later)
  refine fold (P := fun o as => dealt as = [] ∧
      ((as = [.waits (.firstDone l r)] ∧ ∃ b : Bool, o = .done (.bool b)) ∨
        p.asked ∧ ∃ source, o = .halt (.of (.interrupt source)))) hrun
    (region_wait (Or.inl hrun) ?_ ?_) ?_ ?_
  · rintro o ⟨⟨b, rfl, -⟩, -⟩
    exact ⟨rfl, Or.inl ⟨rfl, b, rfl⟩⟩
  · rintro hasked source as (rfl | rfl) <;> exact ⟨rfl, Or.inr ⟨hasked, source, rfl⟩⟩
  · -- one of them has finished, and its handler gets the other one
    rintro v as ⟨-, ⟨rfl, b, heq⟩ | ⟨-, source, heq⟩⟩ w
    · obtain rfl := Exit.done.inj heq
      have hends : ∀ {o later}, Q l r o later → RaceSettles p ⟨allowed⟩ [left, right] Q o
          ((startAll ⟨allowed⟩ [l, r] [left, right]).map .deals ++
            ([.waits (.firstDone l r)] ++ later)) :=
        fun hhandled => Or.inr ⟨l, r, _, rfl, Or.inr ⟨_, rfl, hhandled⟩⟩
      cases b with
      | false =>
        exact (handle (Q := Q l r) hrun hhandling (hright r ⟨l⟩)).mono fun _ _ => hends
      | true =>
        exact (handle (Q := Q l r) hrun hhandling (hleft l ⟨r⟩)).mono fun _ _ => hends
    · cases heq
  · rintro h as ⟨hdealt, ⟨-, b, heq⟩ | ⟨hasked, source, heq⟩⟩ w
    · cases heq
    · obtain rfl := Exit.halt.inj heq
      refine abandonRace hrun fun hl hr => Or.inr ⟨l, r, _, rfl, Or.inl ?_⟩
      refine ⟨hasked, ⟨source, rfl⟩, ?_, hl, hr⟩
      rw [dealt_append, hdealt]
      rfl

end Handlers

/-! ### Handlers -/

section Handlers

variable {other : Fiber ε} {ε₁ : ErrorType}

/-- Code that builds the end of an effect, or panics, with an outcome as is wanted. -/
def Yields (code : Action (Effect ε)) (R : Outcome → Prop) : Prop :=
  ∀ w, (∃ o, (code.run w).1 = .ok (Instruction.done o) ∧ R o) ∨
    ∃ d, (code.run w).1 = .error d ∧ R (.die d)

theorem yields_pure {R : Outcome → Prop} {o : Outcome} (h : R o) :
    Yields (pure (Instruction.done o) : Action (Effect ε)) R := fun _ => Or.inl ⟨o, rfl, h⟩

theorem yields_succeed {R : Outcome → Prop} (code : Action Value) (h : ∀ o, code.Gives o → R o) :
    Yields (do let v ← code; pure (succeed v) : Action (Effect ε)) R := by
  intro w
  obtain ⟨result, w', hrun⟩ : ∃ result w', code.run w = (result, w') := ⟨_, _, rfl⟩
  have hresult : (code.run w).1 = result := congrArg Prod.fst hrun
  rw [Action.run_bind, hrun]
  cases result with
  | ok v => exact Or.inl ⟨.done v, rfl, h _ ⟨w, Or.inl ⟨v, hresult, rfl⟩⟩⟩
  | error d => exact Or.inr ⟨d, rfl, h _ ⟨w, Or.inr ⟨d, hresult, rfl⟩⟩⟩

/-- What builds an end does nothing more to others. -/
theorem yields {code : Action (Effect ε)} {R : Outcome → Prop} (hcalm : Calm p run)
    (hcode : Yields code R) (hQ : ∀ o, R o → Q o []) (w : World) :
    Settles fiber p run (.active run (.ofBuilt (code.run w).1)) Q := by
  rcases hcode w with ⟨o, hbuilt, ho⟩ | ⟨d, hbuilt, hd⟩ <;> rw [hbuilt]
  · exact done hcalm (hQ o ho)
  · exact @handed _ _ _ _ (.die d) (hQ _ hd)

/-- A handler that ends once it has waited for the other child. -/
theorem awaitOther {next : Exit Value Value → Action (Effect ε₁)}
    {R : Exit Value Value → Outcome → Prop} (hquiet : Quiet p run)
    (hnext : ∀ x, Yields (next x) (R x)) :
    Settles fiber p run
      (.active run (.eval ((other.awaitOrInterrupt : Effect ε₁).chainAs next)))
      fun o as => Handled p.final other.id (dealt as) ∧
        (p.asked ∨ waited as = [.awaitExit other.id ε] ∧ ∃ x, p.Exits ε other.id x ∧ R x o) := by
  refine chain (P := fun o as => Handled p.final other.id (dealt as) ∧
      ((as = [.awaits ε other.id] ∧ ∃ x, o = .done (.exit x) ∧ p.Exits ε other.id x) ∨
        p.asked ∧ ∃ h, o = .halt h))
    hquiet.calm (hquiet.chain _).calm (awaitOrInterrupt (hquiet.chain _).calm
      (fun x hx => ⟨⟨hx.isFinished, Or.inl rfl⟩, Or.inl ⟨rfl, x, rfl, hx⟩⟩)
      fun hasked hfinished h as hdealt =>
        ⟨⟨hfinished, Or.inr hdealt⟩, Or.inr ⟨hasked, h, rfl⟩⟩) ?_ ?_
  · rintro v as ⟨hhandled, ⟨rfl, x, heq, hx⟩ | ⟨-, h, heq⟩⟩ w
    · obtain rfl := Exit.done.inj heq
      refine yields hquiet.calm (hnext x) (fun o ho => ?_) w
      rw [List.append_nil]
      exact ⟨hhandled, Or.inr ⟨rfl, x, hx, ho⟩⟩
    · cases heq
  · rintro h as ⟨hhandled, ⟨-, x, heq, -⟩ | ⟨hasked, -⟩⟩
    · cases heq
    · exact ⟨hhandled, Or.inl hasked⟩

/-- A handler that ends once it has stopped the other child. -/
theorem stopOther {next : Value → Action (Effect ε₁)} {R : Exit Value Value → Outcome → Prop}
    (hquiet : Quiet p run) (hnext : ∀ x, Yields (next (.exit x)) (R x)) :
    Settles fiber p run
      (.active run (.eval ((other.interrupt : Effect ε₁).chain next)))
      fun o as => Handled p.final other.id (dealt as) ∧
        (p.asked ∨ waited as = [.awaitExit other.id ε] ∧ ∃ x, p.Exits ε other.id x ∧ R x o) := by
  refine chain_value (d := [.signals other.id, .awaits ε other.id])
    (R := fun v => ∃ x, v = .exit x ∧ p.Exits ε other.id x) hquiet.calm
    (hquiet.chain _).calm (interrupt (hquiet.chain _) fun x hx =>
      ⟨_, rfl, rfl, x, rfl, hx⟩) ?_
  rintro v ⟨x, rfl, hx⟩ w
  exact yields hquiet.calm (hnext x)
    (fun o ho => ⟨⟨hx.isFinished, Or.inr rfl⟩, Or.inr ⟨rfl, x, hx, ho⟩⟩) w

end Handlers

/-- How a pair ends, given the exits of both sides and what combines their values. -/
inductive PairEnds (ε : ErrorType) (f : Value → Value → Action Value) :
    Exit Value Value → Exit Value Value → Outcome → Prop where
  | done {a b : Value} {o : Outcome} : (f a b).Gives o → PairEnds ε f (.done a) (.done b) o
  | left {h : Halt Value} {y : Exit Value Value} :
      PairEnds ε f (.halt h) y (.halt ((h.keepSibling y).tag ε))
  | right {a : Value} {h : Halt Value} : PairEnds ε f (.done a) (.halt h) (.halt (h.tag ε))
  | both {first h : Halt Value} :
      PairEnds ε f (.halt first) (.halt h) (.halt ((first.append h).tag ε))
  | cancelled {first h : Halt Value} : first.cause.isInterruptedOnly = true →
      PairEnds ε f (.halt first) (.halt h) (.halt (h.tag ε))

/-- What a pair has done when it settles, and how it ends if it has not been cut short. -/
def PairSettles (p : Prospect) (ε : ErrorType) (f : Value → Value → Action Value) (l r : FiberId)
    (o : Outcome) (later : List Act) : Prop :=
  (RaceEnds l r o (dealt later) ∧ p.final.isFinished l = true ∧ p.final.isFinished r = true) ∧
    (p.asked ∨ ∃ x y, p.Exits ε l x ∧ p.Exits ε r y ∧ PairEnds ε f x y o)

/-- **What a pair has done when it settles, and how it ends.** -/
theorem pair {left right : Effect ε} {f : Value → Value → Action Value}
    (hquiet : Quiet p run.handling) :
    Settles fiber p run (.active run (.eval (left.zipParWith right f)))
      (RaceSettles p ⟨run.interruptible⟩ [left, right] (PairSettles p ε f)) := by
  refine raceFold hquiet.calm (fun l other x hx => ?_) fun r other y hy => ?_
  · have hends : ∀ {o as}, Handled p.final other.id (dealt as) ∧
        (p.asked ∨ waited as = [.awaitExit other.id ε] ∧
          ∃ y, p.Exits ε other.id y ∧ PairEnds ε f x y o) →
          PairSettles p ε f l other.id o (.awaits ε l :: as) := by
      rintro o as ⟨hhandled, hends⟩
      refine ⟨⟨hhandled.ends (Or.inr rfl), hx.isFinished, hhandled.1⟩, hends.imp_right ?_⟩
      rintro ⟨-, y, hy, hpair⟩
      exact ⟨x, y, hx, hy, hpair⟩
    cases x with
    | done a =>
      refine ⟨_, rfl, (awaitOther (R := PairEnds ε f (.done a)) hquiet fun y => ?_).mono
        fun _ _ => hends⟩
      cases y with
      | done b => exact yields_succeed _ fun _ => .done
      | halt h => exact yields_pure .right
    | halt h =>
      exact ⟨_, rfl, (stopOther (R := PairEnds ε f (.halt h)) hquiet
        fun y => yields_pure .left).mono fun _ _ => hends⟩
  · have hends : ∀ {o as}, Handled p.final other.id (dealt as) ∧
        (p.asked ∨ waited as = [.awaitExit other.id ε] ∧
          ∃ x, p.Exits ε other.id x ∧ PairEnds ε f x y o) →
          PairSettles p ε f other.id r o (.awaits ε r :: as) := by
      rintro o as ⟨hhandled, hends⟩
      refine ⟨⟨hhandled.ends (Or.inl rfl), hhandled.1, hy.isFinished⟩, hends.imp_right ?_⟩
      rintro ⟨-, x, hx, hpair⟩
      exact ⟨x, y, hx, hy, hpair⟩
    cases y with
    | done b =>
      refine ⟨_, rfl, (awaitOther (R := fun x => PairEnds ε f x (.done b)) hquiet fun x => ?_).mono
        fun _ _ => hends⟩
      cases x with
      | done a => exact yields_succeed _ fun _ => .done
      | halt h => exact yields_pure (@PairEnds.left ε f h (.done b))
    | halt h =>
      refine ⟨_, rfl, (stopOther (R := fun x => PairEnds ε f x (.halt h)) hquiet fun x => ?_).mono
        fun _ _ => hends⟩
      cases x with
      | done a => exact yields_pure .right
      | halt first =>
        change Yields (pure (halt (if first.cause.isInterruptedOnly then h else first.append h))) _
        split
        · next honly => exact yields_pure (.cancelled honly)
        · exact yields_pure .both

/-- What a race for the first success has done when it settles, and how it ends if it has not been
cut short: it has waited for one of its children first, and ends with the first success. -/
def FirstSettles (p : Prospect) (ε : ErrorType) (l r : FiberId) (o : Outcome) (later : List Act) :
    Prop :=
  (RaceEnds l r o (dealt later) ∧ p.final.isFinished l = true ∧ p.final.isFinished r = true) ∧
    (p.asked ∨ ∃ first other x y more, ((first = l ∧ other = r) ∨ first = r ∧ other = l) ∧
      later = .awaits ε first :: more ∧ p.Exits ε first x ∧ p.Exits ε other y ∧
        o = (x.orElse y).tag ε)

/-- What the handler of a race for the first success has done when it settles. -/
theorem raceSettle {other : Fiber ε} {x : Exit Value Value}
    (hquiet : Quiet p run) :
    Settles fiber p run (.active run (.eval (raceSettle x other))) fun o as =>
      Handled p.final other.id (dealt as) ∧
        (p.asked ∨ waited as = [.awaitExit other.id ε] ∧
          ∃ y, p.Exits ε other.id y ∧ o = (x.orElse y).tag ε) := by
  cases x with
  | done a =>
    exact stopOther (R := fun y o => o = ((Exit.done a).orElse y).tag ε) hquiet
      fun y => yields_pure rfl
  | halt h =>
    refine awaitOther (R := fun y o => o = ((Exit.halt h).orElse y).tag ε) hquiet fun y => ?_
    cases y with
    | done b => exact yields_pure rfl
    | halt g => exact yields_pure rfl

/-- **What a race for the first success has done when it settles, and how it ends.** -/
theorem firstSuccess {left right : Effect ε} (hquiet : Quiet p run.handling) :
    Settles fiber p run (.active run (.eval (left.race right)))
      (RaceSettles p ⟨run.interruptible⟩ [left, right] (FirstSettles p ε)) := by
  refine raceFold hquiet.calm (fun l other x hx => ⟨_, rfl, ?_⟩) fun r other x hx => ⟨_, rfl, ?_⟩
  · refine (raceSettle hquiet).mono ?_
    rintro o as ⟨hhandled, hends⟩
    refine ⟨⟨hhandled.ends (Or.inr rfl), hx.isFinished, hhandled.1⟩, hends.imp_right ?_⟩
    rintro ⟨-, y, hy, ho⟩
    exact ⟨l, other.id, x, y, as, Or.inl ⟨rfl, rfl⟩, rfl, hx, hy, ho⟩
  · refine (raceSettle hquiet).mono ?_
    rintro o as ⟨hhandled, hends⟩
    refine ⟨⟨hhandled.ends (Or.inl rfl), hhandled.1, hx.isFinished⟩, hends.imp_right ?_⟩
    rintro ⟨-, y, hy, ho⟩
    exact ⟨r, other.id, x, y, as, Or.inr ⟨rfl, rfl⟩, rfl, hx, hy, ho⟩

/-- Both values, or the first failure. -/
theorem zipParWith {left right : Effect ε} {f : Value → Value → Action Value}
    (hquiet : Quiet p run.handling) :
    Settles fiber p run (.active run (.eval (left.zipParWith right f)))
      fun o as => RaceContained (fun c => p.final.isFinished c = true) ⟨run.interruptible⟩
        [left, right] o (dealt as) :=
  (pair hquiet).mono fun _ _ h => h.contained fun _ _ _ _ => And.left

/-- The first success, or both failures. -/
theorem race {left right : Effect ε} (hquiet : Quiet p run.handling) :
    Settles fiber p run (.active run (.eval (left.race right)))
      fun o as => RaceContained (fun c => p.final.isFinished c = true) ⟨run.interruptible⟩
        [left, right] o (dealt as) :=
  (firstSuccess hquiet).mono fun _ _ h => h.contained fun _ _ _ _ => And.left

/-- The value within the time, or nothing. -/
theorem timeout {millis : Nat} {e : Effect ε} (hquiet : Quiet p run.handling) :
    Settles fiber p run (.active run (.eval (e.timeout millis)))
      fun o as => RaceContained (fun c => p.final.isFinished c = true) ⟨run.interruptible⟩
        [e, (sleep millis : Effect ε)] o (dealt as) := by
  refine (raceFold (Q := fun l r o later => RaceEnds l r o (dealt later) ∧ p.final.isFinished l = true ∧
    p.final.isFinished r = true) hquiet.calm (fun l other x hx => ⟨_, rfl, ?_⟩)
    fun r other x hx => ⟨_, rfl, ?_⟩).mono fun _ _ h => h.contained fun _ _ _ _ => id
  · exact (stopOther (R := fun _ _ => True) hquiet fun _ => yields_pure trivial).mono
      fun _ _ h => ⟨h.1.ends (Or.inr rfl), hx.isFinished, h.1.1⟩
  · refine (stopOther (R := fun _ _ => True) hquiet fun _ => ?_).mono
      fun _ _ h => ⟨h.1.ends (Or.inl rfl), h.1.1, hx.isFinished⟩
    cases x with
    | done _ | halt _ => exact yields_pure trivial

end Settles

/-! ### Runs -/

/-- The effects that run two others at once: for both values, for the first success, or with a limit
on the time. -/
inductive RunsBoth {ε : ErrorType} : Effect ε → List Instruction → Prop where
  | zipParWith (left right : Effect ε) (f : Value → Value → Action Value) :
      RunsBoth (left.zipParWith right f) [left, right]
  | zipPar (left right : Effect ε) : RunsBoth (left.zipPar right) [left, right]
  | race (left right : Effect ε) : RunsBoth (left.race right) [left, right]
  | timeout (millis : Nat) (e : Effect ε) :
      RunsBoth (e.timeout millis) [e, (sleep millis : Effect ε)]

theorem RunsBoth.settles {ε : ErrorType} {i : Effect ε} {effects : List Instruction}
    (h : RunsBoth i effects) (fiber : FiberId) (final : Store) (base : RunState) :
    Settles fiber (.plain final (Exposed base)) base (.active base (.eval i)) fun o as =>
      RaceContained (fun c => final.isFinished c = true) ⟨base.interruptible⟩ effects o
        (dealt as) := by
  cases h with
  | zipParWith left right f => exact .zipParWith (quiet_handling final base)
  | zipPar left right => exact .zipParWith (quiet_handling final base)
  | race left right => exact .race (quiet_handling final base)
  | timeout millis e => exact .timeout (quiet_handling final base)

namespace Workshop

/-- **In every run a race ends after both of its children**, if no cancellation takes effect where
the handler of the winner is exposed: when the fiber that runs it is handed its outcome, whichever
it is and whenever the fiber has been asked to stop, both children have ended, or none has been
started.  If the wait for the first one has been cut short, both have been asked to stop. -/
theorem Run.race_contains {budget minted : Nat} {s : Workshop} {record : List (FiberId × Event)}
    (h : Run budget (init minted) record s) {fiber : FiberId} {base : RunState} {ε : ErrorType}
    {i : Effect ε} {effects : List Instruction} (hboth : RunsBoth i effects) {during : List Event}
    {o : Outcome} (hdone : Evaluated s record fiber base i during o)
    (hspares : Spares fiber (Exposed base) (.active base (.eval i)) during) :
    RaceContained (fun c => ∃ es o, History s record c es (.ended o)) ⟨base.interruptible⟩ effects o
      (dealings during) := by
  have hcontained :=
    hdone.settles h hspares (not_exposed_base base) (hboth.settles fiber s.world.store base)
  rw [dealt_acts] at hcontained
  exact hcontained.mono fun _ hc => h.ended_of_isFinished hc

/-! ### A race that is asked to stop -/

/-- A race of two children neither of which ends by itself. -/
def stoppedRace : Effect ⟨"E"⟩ := race never never

/-- A failure that an event hands on, if it does, lies beside the handlers of a race with which its
fiber began. -/
def isClear : Event → Bool
  | .iterated _ run (.halt _) =>
    match run.stack.reverse with
    | .popStatus :: .popStatus :: _ => false
    | _ => true
  | _ => true

theorem not_exposed_of_isClear {environment : Value} {allowed : Bool} {run : RunState} {w : World}
    {failure : Halt Failure} (h : isClear (.iterated w run (.halt failure)) = true) :
    ¬ Exposed (.start environment allowed) run := by
  rintro ⟨habove, -⟩
  obtain ⟨more, hstack⟩ := habove.suffix
  rw [isClear, ← hstack] at h
  simp [RunState.handling, RunState.enterStatus, RunState.start] at h

/-- A race that is asked to stop while it waits for the first child. -/
theorem Run.race_contains_stopped :
    ∃ during o, Evaluated (afterAsked stoppedRace 40 60) (recordAsked stoppedRace 40 60) ⟨1⟩
        (.start .unit true) stoppedRace during o ∧
      Spares ⟨1⟩ (Exposed (.start .unit true)) (.active (.start .unit true) (.eval stoppedRace))
        during ∧
      (∃ i, .forks ⟨3⟩ i ∈ dealings during) ∧
      RaceContained (fun c => ∃ es o, History (afterAsked stoppedRace 40 60)
        (recordAsked stoppedRace 40 60) c es (.ended o)) ⟨true⟩
        [(never : Effect ⟨"E"⟩), (never : Effect ⟨"E"⟩)] o (dealings during) := by
  have hrun := run_asked stoppedRace 40 60
  have hended : (afterAsked stoppedRace 40 60).world.store.isFinished ⟨1⟩ = true := by
    decide +kernel
  obtain ⟨es, o, hhistory⟩ := hrun.ended_of_isFinished hended
  have hfirst : ∃ w, (eventsOf ⟨1⟩ (recordAsked stoppedRace 40 60)).head? =
      some (.iterated w (.start .unit true) (.eval stoppedRace)) := ⟨_, rfl⟩
  obtain ⟨w, hfirst⟩ := hfirst
  obtain ⟨during, o', hdone, -, hacts, hspares⟩ := hhistory.evaluated hfirst rfl
  have hclear : (eventsOf ⟨1⟩ (recordAsked stoppedRace 40 60)).all isClear = true := by
    decide +kernel
  have hspares' := hspares (Exposed (.start .unit true)) fun w run source hmem =>
    not_exposed_of_isClear (List.all_eq_true.mp hclear _ hmem)
  refine ⟨during, o', hdone, hspares', ?_,
    Run.race_contains hrun (.race never never) hdone hspares'⟩
  rw [← dealt_acts, hacts, dealt_acts]
  exact ⟨_, .tail _ (.head _)⟩

/-! ### A race that leaves a child behind -/

/-- A race in which the first child succeeds, and the other one cannot be stopped. -/
def forsakingRace : Effect ⟨"E"⟩ := race unit (uninterruptible never)

/-- **Not every race ends after both of its children**: a race for the first success leaves the
loser behind if the fiber is asked to stop while it waits for it. -/
theorem Run.not_every_race_contains :
    ¬ ∀ (budget minted : Nat) (s : Workshop) (record : List (FiberId × Event)) (fiber : FiberId)
        (base : RunState) (i : Effect ⟨"E"⟩) (effects : List Instruction) (during : List Event)
        (o : Outcome), Run budget (init minted) record s → RunsBoth i effects →
      Evaluated s record fiber base i during o →
        RaceContained (fun c => ∃ es o, History s record c es (.ended o)) ⟨base.interruptible⟩
          effects o (dealings during) := by
  intro hall
  have hrun := run_asked forsakingRace 60 40
  have hended : (afterAsked forsakingRace 60 40).world.store.isFinished ⟨1⟩ = true := by
    decide +kernel
  have hrunning : (afterAsked forsakingRace 60 40).world.store.isFinished ⟨3⟩ = false := by
    decide +kernel
  obtain ⟨es, o, hhistory⟩ := hrun.ended_of_isFinished hended
  have hfirst : ∃ w, (eventsOf ⟨1⟩ (recordAsked forsakingRace 60 40)).head? =
      some (.iterated w (.start .unit true) (.eval forsakingRace)) := ⟨_, rfl⟩
  obtain ⟨w, hfirst⟩ := hfirst
  obtain ⟨during, o', hdone, -, hacts, -⟩ := hhistory.evaluated hfirst rfl
  have hcontained := hall 16 0 _ _ ⟨1⟩ _ _ _ _ _ hrun (.race _ _) hdone
  have hforks : ∃ i, .forks ⟨3⟩ i ∈ dealings during := by
    rw [← dealt_acts, hacts, dealt_acts]
    exact ⟨_, .tail _ (.head _)⟩
  obtain ⟨i, hforks⟩ := hforks
  obtain ⟨es', o'', hloser⟩ := RaceContained.of_forks hcontained hforks
  rw [hloser.isFinished] at hrunning
  cases hrunning

end Workshop

end Fibers
