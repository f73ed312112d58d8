import Fibers.Proofs.EndOrder
import Fibers.Proofs.Leafwise
import Fibers.Proofs.Passing

/-!
# Where defects come from

A fiber goes on with a defect that it has been given: an instruction that it evaluates ends with the
defect, code of the program that it calls panics with it or computes an outcome that records it, or
its wait is completed with such an outcome.  Two defects the interpreter puts in by itself, in the
place of an expected failure that nobody can hold: where it is found to be of another type than
expected, and where its handler has been passed by.  That is all.  In particular nothing comes of a
wait that ends while it is registered but what the registration has left, since the wait is completed
once at most by then.

## Main definitions

* `Exit.HasDefect`, `Standing.HasDefect` — something records a defect.
* `World.Gives` — what comes of a plan that has the defect from the program.
* `Defect.Replaces` — what the interpreter puts in the place of a failure.
* `Workshop.BroughtIn` — a fiber has been given a defect.

## Main results

* `World.of_park` — a wait is completed once at most while it is registered.
* `Goes.origin`, `Life.origin` — where the defect of a fiber comes from.
* `Workshop.Run.origin` — **in every run a fiber that ends with a defect has been given it**, or it
  stands for a failure.
-/

namespace Fibers

open Effect

/-! ### While a wait is registered -/

namespace World

variable {w : World} {s : SuspensionId}

namespace Nascent

theorem resumeAll (h : w.Nascent s) (places : List SuspensionId) (o : Outcome) :
    (w.resumeAll places o).Nascent s := by
  unfold World.resumeAll
  induction places generalizing w with
  | nil => exact h
  | cons t places ih => exact ih (h.resume t o)

theorem setChannel (h : w.Nascent s) (channel : ChannelId) (ch : Channel Value SuspensionId) :
    (w.setChannel channel ch).Nascent s := h.of_suspensions rfl

theorem takeElement (h : w.Nascent s) (channel : ChannelId) (ch : Channel Value SuspensionId) :
    (w.takeElement channel ch).2.Nascent s := by
  unfold World.takeElement
  split
  · exact (h.setChannel channel _).resumeAll _ _
  · exact h

theorem takeUpTo (h : w.Nascent s) (channel : ChannelId) (limit : Nat) :
    (w.takeUpTo channel limit).2.Nascent s := by
  induction limit generalizing w with
  | zero => exact h
  | succ limit ih =>
    unfold World.takeUpTo
    split
    · exact h
    · next ch _ =>
      have htaken := h.takeElement channel ch
      split
      · next heq => rwa [heq] at htaken
      · next heq =>
        rw [heq] at htaken
        exact ih htaken

theorem drain (h : w.Nascent s) (channel : ChannelId) (limit : Option Nat) :
    (w.drain channel limit).2.Nascent s := by
  unfold World.drain
  split
  · exact h
  · split
    · exact h
    · exact h.takeUpTo channel _

theorem close (h : w.Nascent s) (channel : ChannelId) (source : FiberId) :
    (w.close channel source).Nascent s := by
  unfold World.close
  split
  · exact h
  · exact ((h.setChannel channel _).resumeAll _ _).resumeAll _ _

theorem perform (h : w.Nascent s) (op : Operation) : (w.perform op).2.Nascent s := by
  cases op with
  | newChannel capacity =>
    simp only [World.perform]
    split
    · exact h
    · exact h.of_suspensions rfl
  | drain channel limit => exact h.drain channel limit
  | close channel source => exact h.close channel source
  | complete waiter outcome =>
    simp only [World.perform, World.answer]
    split
    · exact h.resume waiter outcome
    · exact h
  | observe | log _ | newCell _ | writeCell _ _ | keep _ _ | newMark | useMark _ | newLease _ =>
    exact h.of_suspensions rfl

end Nascent

end World

/-- No action ends a wait that is being registered other than by completing it. -/
theorem Action.nascent_run {α : Type} (a : Action α) {w : World} {s : SuspensionId}
    (h : w.Nascent s) : (a.run w).2.Nascent s := by
  induction a generalizing w with
  | done a => exact h
  | panic d => exact h
  | perform op next ih => exact ih _ (h.perform op)

namespace World

variable {w : World} {s : SuspensionId}

namespace Nascent

theorem registerOffer (h : w.Nascent s) (channel : ChannelId) (v : Value) (waiter : SuspensionId) :
    (w.registerOffer channel v waiter).2.Nascent s := by
  unfold World.registerOffer
  split
  · exact h
  · split
    · exact h.resume waiter _
    · exact ((h.setChannel channel _).resume _ _).resume _ _
    · exact (h.setChannel channel _).resume _ _
    · exact h.of_suspensions rfl

theorem registerTake (h : w.Nascent s) (channel : ChannelId) (waiter : SuspensionId) :
    (w.registerTake channel waiter).2.Nascent s := by
  unfold World.registerTake
  split
  · exact h
  · next ch _ =>
    split
    · exact h.resume waiter _
    · have htaken := h.takeElement channel ch
      split
      · next heq =>
        rw [heq] at htaken
        exact htaken.resume waiter _
      · next heq =>
        rw [heq] at htaken
        exact htaken.of_suspensions rfl

theorem registerClose (h : w.Nascent s) (channel : ChannelId) (waiter : SuspensionId) :
    (w.registerClose channel waiter).2.Nascent s := by
  unfold World.registerClose
  split
  · exact h
  · split
    · exact h.resume waiter _
    · exact h.of_suspensions rfl

/-- **A wait is completed at most once while it is registered.** -/
theorem register_any (h : w.Nascent s) (registration : Registration) :
    (w.register s registration).2.Nascent s := by
  cases registration with
  | callback f =>
    have hran := (f s).nascent_run h
    simp only [World.register]
    split
    · next heq => rwa [heq] at hran
    · next heq => rwa [heq] at hran
  | offer channel v => exact h.registerOffer channel v s
  | take channel => exact h.registerTake channel s
  | awaitClose channel => exact h.registerClose channel s
  | sleep _ | awaitExit _ _ | firstDone _ _ | firstFailure _ => exact h.register rfl

end Nascent

variable {fiber : FiberId} {run : RunState} {registration : Registration}

/-- What the registration of a wait leaves: what is to be done if the wait is interrupted, or the
defect of a panic, and the world with the place at which the fiber would wait. -/
def afterRegistering (w : World) (fiber : FiberId) (run : RunState) (registration : Registration) :
    Except Defect Canceler × Option SuspensionState :=
  let (s, w) := w.newSuspension fiber run.interruptible registration
  let (result, w) := w.register s registration
  (result, (w.suspension? s).map Suspension.state)

/-- **A fiber that goes on at once from a wait** has panicked while the wait was registered, or goes
on with the outcome with which somebody has completed the wait in the meantime. -/
theorem of_park {step : Step} (h : (w.park fiber run registration).1 = some step) :
    (∃ d, (w.afterRegistering fiber run registration).1 = .error d ∧ step = .die d) ∨
      ∃ o, (w.afterRegistering fiber run registration).2 = some (.early o) ∧ step = .ofOutcome o := by
  have hnascent : (w.newSuspension fiber run.interruptible registration).2.Nascent
      (w.newSuspension fiber run.interruptible registration).1 :=
    ⟨_, (suspension?_newSuspension w fiber run.interruptible registration _).trans (if_pos rfl),
      Or.inl rfl⟩
  obtain ⟨p, hp, hstate⟩ := hnascent.register_any registration
  simp only [park, afterRegistering, hp, Option.map_some] at h ⊢
  cases hresult : ((w.newSuspension fiber run.interruptible registration).2.register
      (w.newSuspension fiber run.interruptible registration).1 registration).1 with
  | error d =>
    rw [hresult] at h
    exact Or.inl ⟨d, rfl, (Option.some.inj h).symm⟩
  | ok onInterrupt =>
    rw [hresult] at h
    rcases hstate with hopen | ⟨o, hearly⟩
    · rw [hopen] at h
      cases h
    · rw [hearly] at h
      exact Or.inr ⟨o, congrArg some hearly, (Option.some.inj h).symm⟩

end World

/-! ### Defects -/

/-- An outcome records a defect. -/
def Exit.HasDefect {ε α : Type} (x : Exit ε α) (d : Defect) : Prop := .die d ∈ x.leaves

/-- A fiber unwinds with a failure that records a defect. -/
def Step.HasDefect (d : Defect) : Step → Prop
  | .halt h => .die d ∈ h.leaves
  | .eval _ | .value _ | .attempt _ _ => False

/-- A fiber goes on with a defect, or has ended with it. -/
def Standing.HasDefect (d : Defect) : Standing → Prop
  | .active _ step => step.HasDefect d
  | .ended o => o.HasDefect d
  | .unborn | .waiting _ => False

/-- The defects that the interpreter puts in the place of expected failures: of one that is of
another type than expected, and of one whose handler has been passed by. -/
inductive Defect.Replaces : Defect → Prop where
  | mismatch (type : ErrorType) : Replaces (.mismatch "failure" type.name)
  | skipped :
      Replaces (.runtime "typed failure discarded: its handler was skipped by interruption")

section Leaves

variable {ε ε' : Type} {d : Defect} {F : ε → Leaf ε' → Prop}

/-- A leaf that is a defect has been one before, or has taken the place of an expected failure. -/
theorem Leaf.Becomes.die_or {l : Leaf ε} (h : l.Becomes F (.die d)) :
    l = .die d ∨ ∃ e, F e (.die d) := by
  cases h with
  | fail hF => exact Or.inr ⟨_, hF⟩
  | die => exact Or.inl rfl

theorem Cause.Leafwise.die_mem {c : Cause ε} {c' : Cause ε'} (h : c.Leafwise (Leaf.Becomes F) c')
    (hd : .die d ∈ c'.leaves) : .die d ∈ c.leaves ∨ ∃ e, F e (.die d) := by
  obtain ⟨l, hl, hbecomes⟩ := exists_mem_of_forall₂ h.flip hd
  refine hbecomes.die_or.imp_left fun heq => ?_
  rwa [heq] at hl

namespace Halt

/-- **A failure whose leaves are replaced one by one** records no other defects than those that take
the place of expected failures. -/
theorem Leafwise.die_mem {h : Halt ε} {h' : Halt ε'} (hleafwise : h.Leafwise (Leaf.Becomes F) h')
    (hd : .die d ∈ h'.leaves) : .die d ∈ h.leaves ∨ ∃ e, F e (.die d) := by
  obtain ⟨c', hc', hleaf⟩ := List.mem_flatMap.mp hd
  have hcauses : List.Forall₂ (Cause.Leafwise (Leaf.Becomes F)) h.causes h'.causes :=
    .cons hleafwise.cause hleafwise.remaining
  obtain ⟨c, hc, hcc'⟩ := exists_mem_of_forall₂ hcauses.flip hc'
  exact (Cause.Leafwise.die_mem hcc' hleaf).imp_left fun hmem => List.mem_flatMap.mpr ⟨c, hc, hmem⟩

/-- A failure that is tagged records no other defects. -/
theorem die_mem_of_tag {type : ErrorType} {h : Halt Value} (hd : .die d ∈ (h.tag type).leaves) :
    .die d ∈ h.leaves := by
  rcases (leafwise_tag type h).die_mem hd with hmem | ⟨v, heq⟩
  · exact hmem
  · cases heq

/-- A failure that is seen at a type may be found to be of another one. -/
theorem die_mem_of_untag {type : ErrorType} {h : Halt Failure}
    (hd : .die d ∈ (h.untag type).leaves) : .die d ∈ h.leaves ∨ d.Replaces := by
  have hleafwise := @leafwise_untag True type h fun _ _ => Or.inl trivial
  rcases hleafwise.die_mem hd with hhad | ⟨e, ⟨-, heq⟩ | ⟨-, -, heq⟩⟩
  · exact Or.inl hhad
  · cases heq
  · cases heq
    exact Or.inr (.mismatch type)

theorem die_mem_of_translate {source target : ErrorType} {f : Value → Action Value} {w w' : World}
    {h h' : Halt Failure} (hrun : (h.translate source target f).run w = (.ok h', w'))
    (hd : .die d ∈ h'.leaves) : .die d ∈ h.leaves ∨ d.Replaces := by
  have hleafwise := @leafwise_translate True source target h h' f w w' (fun _ _ => Or.inl trivial) hrun
  rcases hleafwise.die_mem hd with hhad | ⟨e, htranslates⟩
  · exact Or.inl hhad
  · cases htranslates with
    | mismatch _ _ => exact Or.inr (.mismatch source)

/-- A failure that passes a fold may lose its types, and has a cancellation recorded. -/
theorem die_mem_of_pastFold {sameError : Bool} {source : FiberId} {h : Halt Failure}
    (hd : .die d ∈ (h.pastFold sameError source).leaves) : .die d ∈ h.leaves ∨ d.Replaces := by
  generalize hkept : (if sameError then h else
    h.discard "typed failure discarded: its handler was skipped by interruption") = kept at *
  have hmem : .die d ∈ kept.leaves := by
    simp only [pastFold, hkept] at hd
    split at hd
    · exact hd
    · -- the cancellation is no defect
      simpa [leaves, causes, Cause.leaves] using hd
  subst hkept
  split at hmem
  · exact Or.inl hmem
  · rcases (leafwise_discard _ h).die_mem hmem with hhad | ⟨e, heq⟩
    · exact Or.inl hhad
    · cases heq
      exact Or.inr .skipped

end Halt

namespace Exit

/-- An outcome that is seen at a type may have a failure that is found to be of another one. -/
theorem hasDefect_of_untag {type : ErrorType} {o : Outcome} (hd : (o.untag type).HasDefect d) :
    o.HasDefect d ∨ d.Replaces := by
  cases o with
  | done v => cases hd
  | halt h => exact Halt.die_mem_of_untag hd

theorem hasDefect_of_tag {type : ErrorType} {x : Exit Value Value} (hd : (x.tag type).HasDefect d) :
    x.HasDefect d := by
  cases x with
  | done v => cases hd
  | halt h => exact Halt.die_mem_of_tag hd

/-- So may one that has been passed on. -/
theorem hasDefect_of_passed {types : List ErrorType} {o : Outcome}
    (hd : (o.passed types).HasDefect d) : o.HasDefect d ∨ d.Replaces := by
  induction types generalizing o with
  | nil => exact Or.inl hd
  | cons type types ih =>
    rcases ih hd with hpassed | hreplaces
    · exact hasDefect_of_untag (hasDefect_of_tag hpassed)
    · exact Or.inr hreplaces

end Exit

end Leaves

/-! ### What a fiber is given -/

/-- `w.Gives fiber d plan` says that the program gives a defect to a fiber that carries out the plan:
code that it calls panics with the defect or computes an outcome that records it, or its wait has been
completed with such an outcome when it has been registered. -/
inductive World.Gives (w : World) (fiber : FiberId) (d : Defect) : Plan → Prop where
  | builds {run : RunState} {code : Action Instruction} : (code.run w).1 = .error d →
      Gives w fiber d (.build run code)
  | translates {run : RunState} {code : Action (Halt Failure)} : (code.run w).1 = .error d →
      Gives w fiber d (.translate run code)
  | panics {run : RunState} {code : Action Outcome} : (code.run w).1 = .error d →
      Gives w fiber d (.compute run code)
  | computes {run : RunState} {code : Action Outcome} {o : Outcome} : (code.run w).1 = .ok o →
      o.HasDefect d → Gives w fiber d (.compute run code)
  | updates {run : RunState} {cell : CellId} {f : Value → Action (Update Value)} :
      (w.attemptUpdate cell f).1 = .panicked d → Gives w fiber d (.update run cell f)
  | releases {run : RunState} {release : ReleaseId} {x : Exit Value Value} :
      (w.buildRelease release x).1 = .error d → Gives w fiber d (.release run release x)
  | releasesLease {run : RunState} {lease : LeaseId} {l : Lease} {x : Exit Value Value}
      {leases : Numbered Lease} : w.store.lease? lease = some l →
      (World.buildRelease l.release x { w with store := { w.store with leases } }).1 = .error d →
      Gives w fiber d (.releaseLease run lease x)
  | registers {run : RunState} {registration : Registration} :
      (w.afterRegistering fiber run registration).1 = .error d →
      Gives w fiber d (.wait run registration)
  | completes {run : RunState} {registration : Registration} {o : Outcome} :
      (w.afterRegistering fiber run registration).2 = some (.early o) → o.HasDefect d →
      Gives w fiber d (.wait run registration)

/-- `e.Gives fiber d` says that a fiber is given a defect in an event: it evaluates an instruction
that ends with the defect, the program gives it the defect, or its wait is completed with it. -/
def Event.Gives (fiber : FiberId) (d : Defect) : Event → Prop
  | .iterated w run step => (∃ o, step = .eval (.done o) ∧ o.HasDefect d) ∨
      w.Gives fiber d (step.plan (w.pending fiber) fiber run)
  | .resumed o => o.HasDefect d
  | .started _ _ _ | .stopped _ | .cancelled _ => False

/-! ### Where the defect of a fiber comes from -/

section Origin

variable {fiber : FiberId} {d : Defect} {w : World} {run : RunState}

theorem Step.eq_of_die_hasDefect {d' : Defect} (h : (Step.die d').HasDefect d) : d' = d :=
  (Leaf.die.inj (List.mem_singleton.mp h)).symm

theorem Step.of_ofOutcome_hasDefect {o : Outcome} (h : (Step.ofOutcome o).HasDefect d) :
    o.HasDefect d := by
  cases o with
  | done v => cases h
  | halt g => exact h

theorem Step.not_hasDefect_interrupt (source : FiberId) : ¬ (Step.interrupt source).HasDefect d := by
  intro h
  cases List.mem_singleton.mp h

/-- Code that has built something with a defect has panicked with it. -/
theorem Step.of_ofBuilt_hasDefect {built : Except Defect Instruction}
    (h : (Step.ofBuilt built).HasDefect d) : built = .error d := by
  cases built with
  | ok i => cases h
  | error d' => exact congrArg _ (eq_of_die_hasDefect h)

/-- What a plan that goes on without code goes on with, or ends with. -/
def Plan.HasDefect (d : Defect) : Plan → Prop
  | .proceed _ step => step.HasDefect d
  | .finish o => o.HasDefect d
  | .translate _ _ | .build _ _ | .compute _ _ | .update _ _ _ | .release _ _ _
  | .releaseLease _ _ _ | .reserve _ _ _ | .fork _ _ _ | .signal _ _ | .wait _ _ | .makeWay _ => False

/-- What is planned without code has the defect that the fiber has had, or that an instruction ends
with, or one that takes the place of a failure. -/
theorem Step.hasDefect_of_plan {pending : Option FiberId} {step : Step}
    (h : (step.plan pending fiber run).HasDefect d) :
    step.HasDefect d ∨ (∃ o, step = .eval (.done o) ∧ o.HasDefect d) ∨ d.Replaces := by
  cases step with
  | value v =>
    simp only [plan, RunState.planValue] at h
    split at h <;> cases h
  | halt g =>
    simp only [plan, RunState.planHalt] at h
    split at h
    · exact Or.inl h
    · exact Or.inl h
    · split at h
      · exact (Halt.die_mem_of_pastFold h).imp_right Or.inr
      · cases h
    · cases h
    · exact Or.inl h
    · exact Or.inl h
  | eval i =>
    cases i with
    | done o => exact Or.inr (Or.inl ⟨o, rfl, of_ofOutcome_hasDefect h⟩)
    | _ => cases h
  | attempt cell f => cases h

/-- Only failures are translated. -/
theorem Step.of_plan_translate {pending : Option FiberId} {step : Step} {rest : RunState}
    {code : Action (Halt Failure)} (h : step.plan pending fiber run = .translate rest code) :
    ∃ g source target f, step = .halt g ∧ code = g.translate source target f := by
  cases step with
  | value v =>
    simp only [plan, RunState.planValue] at h
    split at h <;> cases h
  | halt g =>
    simp only [plan, RunState.planHalt] at h
    split at h
    · cases h
    · cases h
    · split at h <;> cases h
    · exact ⟨g, _, _, _, rfl, (Plan.translate.inj h).2.symm⟩
    · cases h
    · cases h
  | eval i => cases i <;> cases h
  | attempt cell f => cases h

namespace World

/-- A wait that ends at once with a defect has been given it. -/
theorem gives_of_park {registration : Registration} {step : Step}
    (h : (w.park fiber run registration).1 = some step) (hd : step.HasDefect d) :
    w.Gives fiber d (.wait run registration) := by
  rcases of_park h with ⟨d', hpanic, rfl⟩ | ⟨o, hearly, rfl⟩
  · exact .registers (Step.eq_of_die_hasDefect hd ▸ hpanic)
  · exact .completes hearly (Step.of_ofOutcome_hasDefect hd)

/-- Whoever goes on with a defect after a plan has had it before, or is given it, or has translated
failures. -/
theorem hasDefect_of_after {plan : Plan} (h : (w.after fiber plan).HasDefect d) :
    plan.HasDefect d ∨ w.Gives fiber d plan ∨ ∃ run code g,
      plan = .translate run code ∧ (code.run w).1 = .ok g ∧ .die d ∈ g.leaves := by
  cases plan with
  | proceed run step => exact Or.inl h
  | finish o => exact Or.inl h
  | build run code => exact Or.inr (Or.inl (.builds (Step.of_ofBuilt_hasDefect h)))
  | release run release x => exact Or.inr (Or.inl (.releases (Step.of_ofBuilt_hasDefect h)))
  | translate run code =>
    simp only [after, carryOut] at h
    cases hrun : (code.run w).1 with
    | ok g =>
      rw [hrun] at h
      exact Or.inr (Or.inr ⟨run, code, g, rfl, hrun, h⟩)
    | error d' =>
      rw [hrun] at h
      exact Or.inr (Or.inl (.translates (Step.eq_of_die_hasDefect h ▸ hrun)))
  | compute run code =>
    simp only [after, carryOut] at h
    cases hrun : (code.run w).1 with
    | ok o =>
      rw [hrun] at h
      exact Or.inr (Or.inl (.computes hrun (Step.of_ofOutcome_hasDefect h)))
    | error d' =>
      rw [hrun] at h
      exact Or.inr (Or.inl (.panics (Step.eq_of_die_hasDefect h ▸ hrun)))
  | update run cell f =>
    simp only [after, carryOut] at h
    cases hattempt : (w.attemptUpdate cell f).1 with
    | finished v | overtaken =>
      rw [hattempt] at h
      cases h
    | panicked d' =>
      rw [hattempt] at h
      exact Or.inr (Or.inl (.updates (Step.eq_of_die_hasDefect h ▸ hattempt)))
  | releaseLease run lease x =>
    simp only [after, carryOut, evaluate, startRelease] at h
    cases hlease : w.store.lease? lease with
    | none =>
      rw [hlease] at h
      cases h
    | some l =>
      simp only [hlease] at h
      cases hreleased : l.released with
      | true =>
        rw [hreleased] at h
        cases h
      | false =>
        rw [hreleased] at h
        exact Or.inr (Or.inl (.releasesLease hlease (Step.of_ofBuilt_hasDefect h)))
  | wait run registration =>
    simp only [after, carryOut] at h
    cases hpark : w.park fiber run registration with
    | mk next w' =>
      rw [hpark] at h
      cases next with
      | none => cases h
      | some step => exact Or.inr (Or.inl (gives_of_park (congrArg Prod.fst hpark) h))
  | reserve run v release | fork run child daemon | signal run target | makeWay run => cases h

/-- **An iteration goes on with a defect** only if the fiber has had it or is given it, or if the
defect takes the place of a failure. -/
theorem origin_of_after {step : Step}
    (h : (w.after fiber (step.plan (w.pending fiber) fiber run)).HasDefect d) :
    step.HasDefect d ∨ (Event.iterated w run step).Gives fiber d ∨ d.Replaces := by
  rcases hasDefect_of_after h with hplan | hgives | ⟨rest, code, g, hplan, hrun, hg⟩
  · rcases Step.hasDefect_of_plan hplan with hhad | hends | hreplaces
    · exact Or.inl hhad
    · exact Or.inr (Or.inl (Or.inl hends))
    · exact Or.inr (Or.inr hreplaces)
  · exact Or.inr (Or.inl (Or.inr hgives))
  · obtain ⟨failure, source, target, f, rfl, rfl⟩ := Step.of_plan_translate hplan
    exact (Halt.die_mem_of_translate (Prod.ext hrun rfl) hg).imp_right Or.inr

end World

/-- **A fiber goes on with a defect** only if it has had the defect or is given it, or if the defect
takes the place of a failure. -/
theorem Goes.origin {a b : Standing} {e : Event} (h : Goes fiber a e b) (hb : b.HasDefect d) :
    a.HasDefect d ∨ e.Gives fiber d ∨ d.Replaces := by
  cases h with
  | started environment allowed i => cases hb
  | stopped _ _ => exact absurd hb (Step.not_hasDefect_interrupt _)
  | iterated _ => exact World.origin_of_after hb
  | resumed o => exact Or.inr (Or.inl (Step.of_ofOutcome_hasDefect hb))
  | cancelled source _ => exact absurd hb (Step.not_hasDefect_interrupt _)

/-- **Where the defect of a fiber comes from**: the fiber has had it from the beginning, or it takes
the place of a failure, or the fiber has been given it in the course of its life. -/
theorem Life.origin {a b : Standing} {es : List Event} (h : Life fiber a es b)
    (hb : b.HasDefect d) : a.HasDefect d ∨ d.Replaces ∨ ∃ before e after c c',
      es = before ++ e :: after ∧ Life fiber a before c ∧ Goes fiber c e c' ∧
        Life fiber c' after b ∧ e.Gives fiber d := by
  induction h with
  | rest => exact Or.inl hb
  | @go a c b e es _ hgoes hrest ih =>
    rcases ih hb with hc | hreplaces | ⟨before, e', after, c₁, c₂, rfl, hbefore, hgiven⟩
    · rcases hgoes.origin hc with ha | hgives | hreplaces
      · exact Or.inl ha
      · exact Or.inr (Or.inr ⟨[], e, es, a, c, rfl, .rest, hgoes, hrest, hgives⟩)
      · exact Or.inr (Or.inl hreplaces)
    · exact Or.inr (Or.inl hreplaces)
    · exact Or.inr (Or.inr ⟨e :: before, e', after, c₁, c₂, rfl, .go trivial hgoes hbefore, hgiven⟩)

/-- Only a wait that is registered parks a fiber. -/
theorem World.wait_of_after {plan : Plan} (h : w.after fiber plan = .waiting run) :
    ∃ registration, plan = .wait run registration ∧ (w.park fiber run registration).1 = none := by
  rcases w.carryOut_rest fiber plan with
    ⟨outcome, rfl⟩ | ⟨run', registration, rfl⟩ | ⟨run', rfl⟩ | ⟨rest, step, -, hnext⟩
  · cases h
  · simp only [after, carryOut] at h
    cases hpark : w.park fiber run' registration with
    | mk next w' =>
      rw [hpark] at h
      cases next with
      | none =>
        obtain rfl := Standing.waiting.inj h
        exact ⟨registration, rfl, congrArg Prod.fst hpark⟩
      | some step => cases h
  · cases h
  · simp only [after, hnext, reduceCtorEq] at h

/-- A fiber that is parked has begun to wait with what it has done last. -/
theorem Life.wait_of_waiting {es : List Event} (h : Life fiber .unborn es (.waiting run)) :
    ∃ before w registration, es = before ++ [.iterated w run (.eval (.wait registration))] ∧
      (w.park fiber run registration).1 = none := by
  rcases List.eq_nil_or_concat es with rfl | ⟨before, e, rfl⟩
  · cases h
  · rw [List.concat_eq_append] at h ⊢
    obtain ⟨c, -, hlast⟩ := Course.of_append h
    generalize hb : Standing.waiting run = b at hlast
    cases hlast with
    | go _ hgoes hrest =>
      cases hrest
      cases hgoes with
      | started _ _ _ | stopped _ _ | resumed _ | cancelled _ _ => cases hb
      | iterated _ =>
        obtain ⟨registration, hplan, hpark⟩ := World.wait_of_after hb.symm
        obtain ⟨rfl, rfl⟩ := Step.eq_of_plan_wait hplan
        exact ⟨before, _, registration, rfl, hpark⟩

/-- A fiber that is to unwind with a failure, and ends later, does so. -/
theorem Life.next_of_halt {g : Halt Failure} {es : List Event} {o : Outcome}
    (h : Life fiber (.active run (.halt g)) es (.ended o)) :
    ∃ w rest, es = .iterated w run (.halt g) :: rest := by
  cases h with
  | go _ hgoes _ =>
    cases hgoes with
    | stopped hgives _ => cases hgives
    | iterated _ => exact ⟨_, _, rfl⟩

end Origin

/-- Only a wait that the program completes ends with a failure. -/
theorem Registration.isFree_of_halt {registration : Registration} {store : Store}
    {h : Halt Failure} (hanswered : registration.Answered store (.halt h)) :
    registration.isFree = true := by
  cases registration with
  | callback _ | offer _ _ | take _ | awaitClose _ => rfl
  | sleep _ => cases hanswered
  | awaitExit _ _ =>
    obtain ⟨-, x, heq⟩ := hanswered
    cases heq
  | firstDone _ _ =>
    obtain ⟨b, heq, -⟩ := hanswered
    cases heq
  | firstFailure _ => rcases hanswered with ⟨heq, -⟩ | ⟨i, c, -, heq, -⟩ <;> cases heq

namespace Workshop

variable {budget minted : Nat} {s : Workshop} {record : List (FiberId × Event)} {fiber : FiberId}
  {d : Defect}

/-- `BroughtIn record fiber d` says that the fiber has been given a defect in a run: it has evaluated
an instruction that ends with the defect, code that it has called has given it the defect, or it has
been parked for something that the program completes, and gone on with the defect. -/
inductive BroughtIn (record : List (FiberId × Event)) (fiber : FiberId) (d : Defect) : Prop where
  | ends {w : World} {run : RunState} {o : Outcome} :
      (fiber, .iterated w run (.eval (.done o))) ∈ record → o.HasDefect d → BroughtIn record fiber d
  | gives {w : World} {run : RunState} {step : Step} : (fiber, .iterated w run step) ∈ record →
      w.Gives fiber d (step.plan (w.pending fiber) fiber run) → BroughtIn record fiber d
  | told {n : Nat} {w w' : World} {run : RunState} {registration : Registration}
      {h : Halt Failure} : registration.isFree = true →
      (eventsOf fiber record)[n]? = some (.iterated w run (.eval (.wait registration))) →
      (w.park fiber run registration).1 = none →
      (eventsOf fiber record)[n + 1]? = some (.iterated w' run (.halt h)) →
      .die d ∈ h.leaves → BroughtIn record fiber d

/-- A fiber that goes on from a wait with a defect has waited for what the program completes. -/
theorem Run.isFree_of_halt (h : Run budget (init minted) record s) {n : Nat} {w w' : World}
    {run run' : RunState} {registration : Registration} {g : Halt Failure}
    (hwait : (eventsOf fiber record)[n]? = some (.iterated w run (.eval (.wait registration))))
    (hnext : (eventsOf fiber record)[n + 1]? = some (.iterated w' run' (.halt g)))
    (hd : .die d ∈ g.leaves) : registration.isFree = true := by
  obtain ⟨l, -, hbooks⟩ := h.books fiber
  cases hbooks.after_wait hwait rfl hnext with
  | iterated hgo =>
    generalize hstep : Step.halt g = step at hgo
    cases hgo with
    | interrupted source _ _ =>
      obtain rfl := Step.halt.inj hstep
      cases List.mem_singleton.mp hd
    | @told o htold =>
      cases o with
      | done v => cases hstep
      | halt g' => exact Registration.isFree_of_halt htold.answered

/-- **Where the defects of a run come from**: a fiber that ends with a defect has been given it, or
the defect stands for an expected failure. -/
theorem Run.origin (h : Run budget (init minted) record s) {o : Outcome}
    (hended : Ended record fiber o) (hd : o.HasDefect d) :
    BroughtIn record fiber d ∨ d.Replaces := by
  obtain ⟨es, hhistory⟩ := h.history_of_ended hended
  rcases hhistory.life.origin hd with
    hborn | hreplaces | ⟨before, e, after, c, c', rfl, hbefore, hgoes, hafter, hgives⟩
  · cases hborn
  · exact Or.inr hreplaces
  refine Or.inl ?_
  cases e with
  | iterated w run step =>
    have hmem := (hhistory.mem_iff rfl).mp (List.mem_append_right _ List.mem_cons_self)
    rcases hgives with ⟨o', rfl, ho'⟩ | hgives
    · exact .ends hmem ho'
    · exact .gives hmem hgives
  | resumed o' =>
    cases hgoes with
    | @resumed run _ =>
      cases o' with
      | done v => cases hgives
      | halt g =>
        -- what it has done last before is to begin to wait, and what it does next is to unwind
        obtain ⟨past, w, registration, rfl, hpark⟩ := hbefore.wait_of_waiting
        obtain ⟨w', rest, rfl⟩ := hafter.next_of_halt
        have hdoings : eventsOf fiber record = past.filter Event.isDoing ++
            .iterated w run (.eval (.wait registration)) :: .iterated w' run (.halt g) ::
              rest.filter Event.isDoing := by
          rw [← hhistory.doings, List.append_assoc, List.filter_append]
          rfl
        have hwait : (eventsOf fiber record)[(past.filter Event.isDoing).length]? =
            some (.iterated w run (.eval (.wait registration))) := by
          simp [hdoings]
        have hnext : (eventsOf fiber record)[(past.filter Event.isDoing).length + 1]? =
            some (.iterated w' run (.halt g)) := by
          simp [hdoings]
        exact .told (h.isFree_of_halt hwait hnext hgives) hwait hpark hnext hgives
  | started _ _ _ | stopped _ | cancelled _ => cases hgives

end Workshop

end Fibers
