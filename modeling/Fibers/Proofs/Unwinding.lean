import Fibers.Proofs.Heeding
import Fibers.Proofs.Reports
import Fibers.Proofs.Soundness

/-!
# Unwinding drops nothing

A failure that unwinds the continuations of a fiber gets past them one by one, until a handler is
run on it, a mapping of failures panics on it, or the fiber ends with it.  Whatever the
continuations are, the leaves of its primary cause and of every cause alongside are still there
then, in the same order.  Defects and cancellations stay as they are.  An expected failure has been
mapped to another one, or has become a defect where a handler was skipped that would have changed
the type of failures.  And the first fold that is skipped adds one cancellation at the end of the
primary cause, if there is none in it: that of the fiber that was the first to request the
interruption.

A failure that meets a mapping of another type would become a defect as well.  That does not happen
where types can be told for what comes from outside.

## Main definitions

* `Frame.Turns`, `Leaf.GetsPast` — what becomes of a failure past one continuation, and of a leaf
  past many.
* `Halt.Adds`, `Halt.Unwinds` — what is added to a failure, and what becomes of all of it.
* `Event.StopsUnwinding` — a handler is run on a failure, or a mapping panics on it.

## Main results

* `Leaf.GetsPast.of_fail` — what an expected failure may have become.
* `Frame.Passes.unwinds` — one continuation.
* `Halt.Unwinds.append` — more continuations.
* `Workshop.Run.unwinding_keeps_leaves` — **unwinding drops no leaf.**
-/

namespace Fibers

/-! ### What becomes of leaves -/

/-- `frame.Turns mixed e l` says that `l` takes the place of the expected failure `e` past a
continuation, which is skipped if it is a fold.  Only where failures of several types are `mixed`
does a mapping meet one of another type. -/
def Frame.Turns (mixed : Prop) : Frame → Failure → Leaf Failure → Prop
  | .chain _, e, l => l = .fail e
  | .fold _ _ true, e, l => l = .fail e
  | .fold _ _ false, _, l =>
    l = .die (.runtime "typed failure discarded: its handler was skipped by interruption")
  | .mapError source target f, e, l => e.Translates mixed source target f l
  | .popEnvironment, e, l => l = .fail e
  | .popStatus, e, l => l = .fail e

/-- What one continuation can make of an expected failure. -/
theorem Frame.Turns.cases {mixed : Prop} {frame : Frame} {e : Failure} {l : Leaf Failure}
    (h : frame.Turns mixed e l) :
    (∃ e', l = .fail e' ∧ (e' = e ∨ ∃ source target f, frame = .mapError source target f)) ∨
      ∃ d, l = .die d ∧ ((∃ onHalt onDone, frame = .fold onHalt onDone false) ∨ mixed) := by
  cases frame with
  | chain next | popEnvironment | popStatus => exact Or.inl ⟨e, h, Or.inl rfl⟩
  | fold onHalt onDone sameError =>
    cases sameError with
    | true => exact Or.inl ⟨e, h, Or.inl rfl⟩
    | false => exact Or.inr ⟨_, h, Or.inl ⟨onHalt, onDone, rfl⟩⟩
  | mapError source target f =>
    cases h with
    | mapped htype hrun => exact Or.inl ⟨_, rfl, Or.inr ⟨source, target, f, rfl⟩⟩
    | mismatch hmixed htype => exact Or.inr ⟨_, rfl, Or.inr hmixed⟩

/-- `l.GetsPast mixed passed l'` says that `l'` is in the place of the leaf `l` past some
continuations, the innermost one first. -/
def Leaf.GetsPast (mixed : Prop) : List Frame → Leaf Failure → Leaf Failure → Prop
  | [], l, l' => l' = l
  | frame :: passed, l, l' => ∃ m, l.Becomes (frame.Turns mixed) m ∧ m.GetsPast mixed passed l'

namespace Leaf.GetsPast

variable {mixed : Prop} {passed : List Frame} {l : Leaf Failure}

theorem one {frame : Frame} {l' : Leaf Failure} (h : l.Becomes (frame.Turns mixed) l') :
    l.GetsPast mixed [frame] l' :=
  ⟨l', h, rfl⟩

/-- **A defect stays.** -/
theorem of_die {d : Defect} (h : (Leaf.die d).GetsPast mixed passed l) : l = .die d := by
  induction passed with
  | nil => exact h
  | cons frame passed ih =>
    obtain ⟨m, hm, hl⟩ := h
    cases hm
    exact ih hl

/-- **A cancellation stays.** -/
theorem of_interrupt {source : FiberId} (h : (Leaf.interrupt source).GetsPast mixed passed l) :
    l = .interrupt source := by
  induction passed with
  | nil => exact h
  | cons frame passed ih =>
    obtain ⟨m, hm, hl⟩ := h
    cases hm
    exact ih hl

/-- **An expected failure becomes another one only by being mapped**, and a defect only by skipping
a fold that would have changed the type of failures, unless failures of several types are mixed. -/
theorem of_fail {e : Failure} (h : (Leaf.fail e).GetsPast mixed passed l) :
    (∃ e', l = .fail e' ∧ (e' = e ∨ ∃ source target f, .mapError source target f ∈ passed)) ∨
      ∃ d, l = .die d ∧ ((∃ onHalt onDone, .fold onHalt onDone false ∈ passed) ∨ mixed) := by
  induction passed generalizing e with
  | nil => exact Or.inl ⟨e, h, Or.inl rfl⟩
  | cons frame passed ih =>
    obtain ⟨m, hm, hl⟩ := h
    cases hm with
    | fail hturns =>
    rcases hturns.cases with ⟨e₁, rfl, he₁⟩ | ⟨d, rfl, hd⟩
    · rcases ih hl with ⟨e', rfl, he'⟩ | ⟨d, rfl, hd⟩
      · refine Or.inl ⟨e', rfl, ?_⟩
        rcases he' with rfl | ⟨source, target, f, hmem⟩
        · refine he₁.imp_right fun ⟨source, target, f, hframe⟩ => ?_
          exact ⟨source, target, f, hframe ▸ List.mem_cons_self⟩
        · exact Or.inr ⟨source, target, f, List.mem_cons_of_mem _ hmem⟩
      · refine Or.inr ⟨d, rfl, hd.imp_left fun ⟨onHalt, onDone, hmem⟩ => ?_⟩
        exact ⟨onHalt, onDone, List.mem_cons_of_mem _ hmem⟩
    · refine Or.inr ⟨d, of_die hl, hd.imp_left fun ⟨onHalt, onDone, hframe⟩ => ?_⟩
      exact ⟨onHalt, onDone, hframe ▸ List.mem_cons_self⟩

/-- A leaf is a cancellation if the one in its place is. -/
theorem isInterrupt {l' : Leaf Failure} (h : l.GetsPast mixed passed l') :
    l'.isInterrupt = l.isInterrupt := by
  cases l with
  | die d => rw [of_die h]
  | interrupt source => rw [of_interrupt h]
  | fail e => rcases of_fail h with ⟨e', rfl, -⟩ | ⟨d, rfl, -⟩ <;> rfl

theorem append {passed' : List Frame} {m l' : Leaf Failure} (h : l.GetsPast mixed passed m)
    (h' : m.GetsPast mixed passed' l') : l.GetsPast mixed (passed ++ passed') l' := by
  induction passed generalizing l with
  | nil =>
    obtain rfl := h
    exact h'
  | cons frame passed ih =>
    obtain ⟨n, hn, hm⟩ := h
    exact ⟨n, hn, ih hm⟩

end Leaf.GetsPast

/-! ### What becomes of failures -/

/-- What a failure that was raised as `raised` has got in addition past some continuations, if the
interruption has been requested by `requests`. -/
inductive Halt.Adds (requests : List FiberId) (passed : List Frame) (raised : Halt Failure) :
    List (Leaf Failure) → Prop where
  /-- The cancellation of the first request, where a fold was skipped and none was recorded. -/
  | cancellation {source : FiberId} {later : List FiberId} : requests = source :: later →
      passed.any Frame.isFold = true → raised.isInterrupted = false →
      Adds requests passed raised [.interrupt source]
  | nothing : passed.any Frame.isFold = false ∨ raised.isInterrupted = true →
      Adds requests passed raised []

/-- What a failure that was raised as `raised` has become past some continuations. -/
structure Halt.Unwinds (mixed : Prop) (requests : List FiberId) (passed : List Frame)
    (raised now : Halt Failure) : Prop where
  /-- The leaves of the primary cause are in their places, and a cancellation may follow. -/
  primary : ∃ ls added, List.Forall₂ (Leaf.GetsPast mixed passed) raised.cause.leaves ls ∧
    raised.Adds requests passed added ∧ now.cause.leaves = ls ++ added
  /-- So are the leaves of the others, which are as many and in the same order. -/
  remaining : List.Forall₂ (Cause.Leafwise (Leaf.GetsPast mixed passed)) raised.remaining
    now.remaining

namespace Halt

variable {mixed : Prop} {requests : List FiberId} {passed passed' : List Frame}
  {raised mid now : Halt Failure}

/-- A failure that has not passed anything is what it was. -/
theorem Unwinds.refl (raised : Halt Failure) : raised.Unwinds mixed requests [] raised where
  primary := ⟨_, [], List.forall₂_same.mpr fun _ _ => rfl, .nothing (Or.inl rfl),
    (List.append_nil _).symm⟩
  remaining := List.forall₂_same.mpr fun _ _ => List.forall₂_same.mpr fun _ _ => rfl

/-- What is added is a cancellation, if it is anything. -/
theorem Adds.any_isInterrupt {added : List (Leaf Failure)}
    (h : raised.Adds requests passed added) :
    (raised.isInterrupted || added.any Leaf.isInterrupt) =
      (raised.isInterrupted || passed.any Frame.isFold) := by
  cases h with
  | cancellation _ hfold _ => simp [hfold, Leaf.isInterrupt, Leaf.interruptor?]
  | nothing h =>
    rcases h with hnone | hold
    · rw [hnone, List.any_nil]
    · rw [hold, Bool.true_or, Bool.true_or]

/-- A failure records a cancellation if it did so before, or if a fold has been skipped. -/
theorem Unwinds.isInterrupted (h : raised.Unwinds mixed requests passed now) :
    now.isInterrupted = (raised.isInterrupted || passed.any Frame.isFold) := by
  obtain ⟨ls, added, hls, hadded, hnow⟩ := h.primary
  rw [← hadded.any_isInterrupt]
  simp only [Halt.isInterrupted, Cause.isInterrupted_eq, hnow, List.any_append,
    any_eq_of_forall₂ (fun _ _ hl => Leaf.GetsPast.isInterrupt hl) hls]

/-- A cancellation is added once: nothing more is added where there is one. -/
theorem Adds.append {added added' : List (Leaf Failure)}
    (h : raised.Adds requests passed added)
    (hmid : mid.isInterrupted = (raised.isInterrupted || passed.any Frame.isFold))
    (h' : mid.Adds requests passed' added') :
    raised.Adds requests (passed ++ passed') (added ++ added') := by
  cases h with
  | cancellation hrequests hfold hnot =>
    cases h' with
    | cancellation _ _ hnot' =>
      rw [hmid, hfold, Bool.or_true] at hnot'
      cases hnot'
    | nothing _ =>
      rw [List.append_nil]
      exact .cancellation hrequests (by rw [List.any_append, hfold, Bool.true_or]) hnot
  | nothing hnothing =>
    rw [List.nil_append]
    cases h' with
    | cancellation hrequests hfold hnot' =>
      rw [hmid, Bool.or_eq_false_iff] at hnot'
      exact .cancellation hrequests (by rw [List.any_append, hfold, Bool.or_true]) hnot'.1
    | nothing hnothing' =>
      refine .nothing ?_
      cases hold : raised.isInterrupted with
      | true => exact Or.inr rfl
      | false =>
        have hnone := hnothing.resolve_right (by simp [hold])
        have hnone' := hnothing'.resolve_right (by simp [hmid, hold, hnone])
        exact Or.inl (by rw [List.any_append, hnone, hnone', Bool.or_false])

/-- **Leaves that are in their places stay in their places.** -/
theorem Unwinds.append (h : raised.Unwinds mixed requests passed mid)
    (h' : mid.Unwinds mixed requests passed' now) :
    raised.Unwinds mixed requests (passed ++ passed') now where
  primary := by
    obtain ⟨ls, added, hls, hadded, hmid⟩ := h.primary
    obtain ⟨ms, added', hms, hadded', hnow⟩ := h'.primary
    rw [hmid] at hms
    obtain ⟨ls', ks, rfl, hls', hks⟩ := exists_forall₂_append hms
    -- what has been added stays as it is
    have hkept : ks = added := by
      cases hadded with
      | nothing _ =>
        cases hks
        rfl
      | cancellation _ _ _ =>
        cases hks with
        | cons hhead htail =>
          cases htail
          rw [hhead.of_interrupt]
    refine ⟨ls', added ++ added', ?_, hadded.append h.isInterrupted hadded', ?_⟩
    · exact (forall₂_comp hls hls').imp fun _ _ ⟨_, hl, hl'⟩ => hl.append hl'
    · rw [hnow, hkept, List.append_assoc]
  remaining := (forall₂_comp h.remaining h'.remaining).imp fun _ _ ⟨_, hc, hc'⟩ =>
    (forall₂_comp hc hc').imp fun _ _ ⟨_, hl, hl'⟩ => hl.append hl'

/-- One continuation replaces leaves one by one. -/
theorem Leafwise.unwinds {frame : Frame}
    (h : raised.Leafwise (Leaf.Becomes (frame.Turns mixed)) mid) {added : List (Leaf Failure)}
    (hadded : raised.Adds requests [frame] added)
    (hcause : now.cause.leaves = mid.cause.leaves ++ added)
    (hremaining : now.remaining = mid.remaining) :
    raised.Unwinds mixed requests [frame] now := by
  have hpast := h.imp fun _ _ => Leaf.GetsPast.one
  exact ⟨⟨_, added, hpast.cause, hadded, hcause⟩, hremaining ▸ hpast.remaining⟩

/-- A continuation that does not continue with failures and leaves them as they are. -/
theorem unwinds_of_turns (frame : Frame) (hturns : ∀ e, frame.Turns mixed e (.fail e))
    (hfold : frame.isFold = false) (h : Halt Failure) : h.Unwinds mixed requests [frame] h :=
  (leafwise_refl (Leaf.becomes_refl hturns) h).unwinds (.nothing (Or.inl (by simp [hfold])))
    (List.append_nil _).symm rfl

/-- A fold that is skipped. -/
theorem unwinds_pastFold {source : FiberId} {later : List FiberId}
    (onHalt : Halt Failure → Action Instruction) (onDone : Value → Action Instruction)
    (sameError : Bool) (h : Halt Failure) (hrequests : requests = source :: later) :
    h.Unwinds mixed requests [.fold onHalt onDone sameError] (h.pastFold sameError source) := by
  have hheld : h.Leafwise (Leaf.Becomes ((Frame.fold onHalt onDone sameError).Turns mixed))
      (if sameError then h
        else h.discard "typed failure discarded: its handler was skipped by interruption") := by
    cases sameError with
    | true =>
      have hturns : ∀ e, (Frame.fold onHalt onDone true).Turns mixed e (.fail e) := fun _ => rfl
      exact leafwise_refl (Leaf.becomes_refl hturns) h
    | false => exact leafwise_discard _ h
  have hkept := hheld.cause.isInterrupted fun _ _ hl => (Leaf.GetsPast.one hl).isInterrupt
  unfold pastFold
  simp only
  generalize (if sameError then h else _ : Halt Failure) = held at hheld hkept
  split
  · next hold =>
    rw [hkept] at hold
    exact hheld.unwinds (.nothing (Or.inr hold)) (List.append_nil _).symm rfl
  · next hnot =>
    rw [hkept, Bool.not_eq_true] at hnot
    exact hheld.unwinds (.cancellation hrequests rfl hnot) (Cause.leaves_alongside _ _) rfl

end Halt

/-- What a fiber stops for is the first of the requests for its interruption. -/
theorem World.requests_of_stopsFor {w : World} {fiber source : FiberId} {run : RunState}
    (h : run.stopsFor (w.pending fiber) = some source) :
    ∃ later, w.requests fiber = source :: later := by
  rw [stopsFor_pending] at h
  split at h
  · next hstop =>
    obtain rfl := Option.some.inj h
    obtain ⟨-, hasked⟩ := Bool.and_eq_true_iff.mp hstop
    cases hrequests : w.requests fiber with
    | nil =>
      rw [isInterrupted_eq, hrequests] at hasked
      cases hasked
    | cons first later => exact ⟨later, by rw [interruptor_of_requests hrequests]⟩
  · cases h

/-- **One continuation.** -/
theorem Frame.Passes.unwinds {mixed : Prop} {requests : List FiberId} {w : World}
    {fiber : FiberId} {run : RunState} {frame : Frame} {h h' : Halt Failure}
    (hpasses : frame.Passes w fiber run h h') (hrequests : w.requests fiber <+: requests)
    (hmixed : ∀ source target f, frame = .mapError source target f →
      ∀ e, .fail e ∈ h.leaves → mixed ∨ e.type = source) :
    h.Unwinds mixed requests [frame] h' := by
  cases hpasses with
  | chain next h => exact Halt.unwinds_of_turns (.chain next) (fun _ => rfl) rfl h
  | popEnvironment h => exact Halt.unwinds_of_turns .popEnvironment (fun _ => rfl) rfl h
  | popStatus h => exact Halt.unwinds_of_turns .popStatus (fun _ => rfl) rfl h
  | fold onHalt onDone sameError h hstop =>
    obtain ⟨later, hfirst⟩ := World.requests_of_stopsFor hstop
    obtain ⟨more, hmore⟩ := hrequests
    rw [hfirst, List.cons_append] at hmore
    exact Halt.unwinds_pastFold onHalt onDone sameError h hmore.symm
  | @mapError source target f _ _ _ hrun =>
    have hleafwise : h.Leafwise (Leaf.Becomes ((Frame.mapError source target f).Turns mixed)) h' :=
      Halt.leafwise_translate (hmixed source target f rfl) hrun
    exact hleafwise.unwinds (.nothing (Or.inl rfl)) (List.append_nil _).symm rfl

/-! ### Courses of a fiber -/

/-- Whether a mapping of failures meets failures only of the type that it maps. -/
def Event.Unmixed : Event → Prop
  | .iterated _ run (.halt h) => ∀ source target f stack,
      run.stack = .mapError source target f :: stack → ∀ e, .fail e ∈ h.leaves → e.type = source
  | _ => True

/-- In what is typed it does. -/
theorem Event.Typed.unmixed {S : Declarations} {Γ : Context} {fiber : FiberId} {e : Event}
    (h : e.Typed S Γ fiber) : e.Unmixed := by
  cases e with
  | started _ _ _ | stopped _ | resumed _ | cancelled _ => trivial
  | iterated w run step =>
  cases step with
  | eval _ | value _ | attempt _ _ => trivial
  | halt failure =>
    obtain ⟨root, σ, -, haccepts, hfits⟩ := h
    intro source target f stack hstack e he
    unfold RunState.Accepts at haccepts
    rw [hstack] at haccepts
    cases haccepts
    exact (hfits _ he).type

/-- A fiber hands on a failure by a doing of its own. -/
theorem Event.isDoing_of_passes {fiber : FiberId} {e : Event} (h : e.passes fiber = true) :
    e.isDoing = true := by
  cases e with
  | iterated w run step => rfl
  | started _ _ _ | stopped _ | resumed _ | cancelled _ => cases h

/-- `e.StopsUnwinding fiber h` says that a handler is run on the failure `h`, or that a mapping of
failures panics on it. -/
inductive Event.StopsUnwinding (fiber : FiberId) (h : Halt Failure) : Event → Prop where
  | handled {w : World} {run : RunState} {onHalt : Halt Failure → Action Instruction}
      {onDone : Value → Action Instruction} {sameError : Bool} {stack : List Frame} :
      run.stack = .fold onHalt onDone sameError :: stack →
      run.planHalt (w.pending fiber) h = .build { run with stack } (onHalt h) →
      StopsUnwinding fiber h (.iterated w run (.halt h))
  | panicked {w w' : World} {run : RunState} {source target : ErrorType}
      {f : Value → Action Value} {stack : List Frame} {d : Defect} :
      run.stack = .mapError source target f :: stack →
      (h.translate source target f).run w = (.error d, w') →
      StopsUnwinding fiber h (.iterated w run (.halt h))

section Courses

variable {fiber : FiberId} {b : Standing} {e : Event} {es : List Event}

/-- What does not hand on a failure with which the fiber unwinds stops the unwinding. -/
theorem Goes.stopsUnwinding {run : RunState} {failure : Halt Failure}
    (h : Goes fiber (.active run (.halt failure)) e b) (hpasses : e.passes fiber = false) :
    e.StopsUnwinding fiber failure := by
  cases h with
  | stopped hgives _ => cases hgives
  | @iterated w _ _ _ =>
  simp only [Event.passes] at hpasses
  split at hpasses
  · next onHalt onDone sameError stack hstack =>
    refine .handled hstack ?_
    rw [Option.isSome_eq_false_iff, Option.isNone_iff_eq_none] at hpasses
    simp only [RunState.planHalt, hstack, hpasses]
  · next source target f stack hstack =>
    cases hrun : (failure.translate source target f).run w with
    | mk translated w' =>
      cases translated with
      | ok failure' =>
        rw [hrun] at hpasses
        cases hpasses
      | error d => exact .panicked hstack hrun
  · cases hpasses

/-- **What becomes of a failure in a course in which it is handed on.** -/
theorem Life.unwinds_of_passes {mixed : Prop} {requests : List FiberId} {run : RunState}
    {raised : Halt Failure} (h : Life fiber (.active run (.halt raised)) es b)
    (hpasses : ∀ e ∈ es, e.passes fiber = true)
    (hrequests : ∀ e ∈ es, ∀ w, e.world? = some w → w.requests fiber <+: requests)
    (hmixed : ∀ e ∈ es, mixed ∨ e.Unmixed) :
    ∃ passed now, raised.Unwinds mixed requests passed now ∧
      ((b = .ended (.halt now) ∧ run.stack = passed) ∨
        ∃ left, b = .active left (.halt now) ∧ run.stack = passed ++ left.stack) := by
  refine h.passes_induction Halt.Unwinds.refl rfl hpasses
    fun w run frame stack h mid he hstack hframe passed now hnow => ?_
  have hfirst : h.Unwinds mixed requests [frame] mid := by
    refine hframe.unwinds (hrequests _ he w rfl) fun source target f hmap e hfail => ?_
    exact (hmixed _ he).imp_right fun hunmixed =>
      hunmixed source target f stack (hmap ▸ hstack) e hfail
  exact hfirst.append hnow

end Courses

/-! ### Runs -/

namespace Workshop

variable {budget minted : Nat} {s : Workshop} {record : List (FiberId × Event)}
  {roots : List (FiberId × Ending)} {S : Declarations}

/-- Where types can be told for what comes from outside, no mapping meets a failure of another
type. -/
theorem Conducted.unmixed (h : Conducted S.matching budget .empty (init minted) roots record s) :
    ∀ p ∈ record, p.2.Unmixed := by
  have hone : S.matching.defect .oneShot := fun h => by simpa using h.start
  obtain ⟨Γ, -, -, -, hevents⟩ := h.typed S.allows_matching (typed_init minted) (Or.inl hone)
  exact fun p hp => (hevents p hp).unmixed

/-- Types cannot be told for what comes from outside in a run. -/
def Untyped (budget minted : Nat) (record : List (FiberId × Event)) (s : Workshop) : Prop :=
  ∀ (S : Declarations) (roots : List (FiberId × Ending)),
    ¬ Conducted S.matching budget .empty (init minted) roots record s

/-- Two failures, and a defect. -/
def severalFailures : Halt Failure :=
  ⟨.par (.fail ⟨⟨"E"⟩, .text "a"⟩) (.die (.explicit "broken")), [.fail ⟨⟨"E"⟩, .text "b"⟩]⟩

/-- Failures in a region where interruption is not allowed.  They are mapped outside of it, and
there is a handler that would handle them, and would have failures of another type. -/
def unhandledFailure : Instruction :=
  .fold (.mapError (.setInterruptible false (.done (.halt severalFailures))) ⟨"E"⟩ ⟨"F"⟩ pure)
    (fun _ => pure (.done (.done .unit))) (fun v => pure (.done (.done v))) false

theorem typed_unhandledFailure :
    unhandledFailure.Typed spoken.matching .empty ⟨.unit, ⟨"u8"⟩, .unit⟩ := by
  have hseveral : severalFailures.Fits spoken.matching .empty ⟨"E"⟩ := by
    intro l hl
    simp only [severalFailures, Halt.leaves, Halt.causes, Cause.leaves, List.flatMap_cons,
      List.flatMap_nil, List.mem_append, List.mem_singleton, List.not_mem_nil, or_false] at hl
    rcases hl with (rfl | rfl) | rfl
    · exact ⟨rfl, .text "a"⟩
    · exact spoken.allows_matching.explicit "broken"
    · exact ⟨rfl, .text "b"⟩
  exact .fold (.mapError (.setInterruptible false (.done hseveral)) fun _ _ v hv => .done hv)
    (fun _ _ _ _ => .done (.done .unit)) (fun _ _ v hv => .done (.done hv)) (by simp)

/-- The fiber is asked to stop while it is in the region, so the handler is skipped. -/
theorem exists_life_unhandledFailure :
    ∃ before during run now,
      History (afterAsked unhandledFailure 4 8) (recordAsked unhandledFailure 4 8) ⟨1⟩
        (before ++ during ++ []) (.ended (.halt now)) ∧
      Life ⟨1⟩ .unborn before (.active run (.halt severalFailures)) ∧
      Life ⟨1⟩ (.active run (.halt severalFailures)) during (.ended (.halt now)) ∧
      (∀ e ∈ during, e.passes ⟨1⟩ = true) ∧
      now.cause.leaves =
        [.die (.runtime "typed failure discarded: its handler was skipped by interruption"),
          .die (.explicit "broken"), .interrupt ⟨0⟩] := by
  let w₁ := (begun unhandledFailure 1).world
  let w₂ := (asked unhandledFailure 4).world
  let start : RunState := .start .unit true
  let handled : RunState := start.push
    (.fold (fun _ => pure (.done (.done .unit))) (fun v => pure (.done (.done v))) false)
  let mapped : RunState := handled.push (.mapError ⟨"E"⟩ ⟨"F"⟩ pure)
  let inside : RunState := mapped.enterStatus false
  have hbegin : Life ⟨1⟩ .unborn _ (.active inside (.halt severalFailures)) :=
    .go trivial (.started .unit true unhandledFailure) <|
    .go trivial (.iterated (w := w₁) rfl) <|
    .go trivial (.iterated (w := w₁) rfl) <|
    .go trivial (.iterated (w := w₁) rfl) <|
    .go trivial (.iterated (w := w₂) rfl) .rest
  let renamed : Halt Failure :=
    ⟨.par (.fail ⟨⟨"F"⟩, .text "a"⟩) (.die (.explicit "broken")), [.fail ⟨⟨"F"⟩, .text "b"⟩]⟩
  let discarded : Halt Failure := renamed.pastFold false ⟨0⟩
  have hleave : Goes ⟨1⟩ (.active inside (.halt severalFailures)) (.iterated w₂ inside _)
      (.active mapped (.halt severalFailures)) := .iterated rfl
  have hmap : Goes ⟨1⟩ (.active mapped (.halt severalFailures)) (.iterated w₂ mapped _)
      (.active handled (.halt renamed)) := .iterated rfl
  have hskip : Goes ⟨1⟩ (.active handled (.halt renamed)) (.iterated w₂ handled _)
      (.active start (.halt discarded)) := .iterated rfl
  have hfinish : Goes ⟨1⟩ (.active start (.halt discarded)) (.iterated w₂ start _)
      (.ended (.halt discarded)) := .iterated rfl
  have hend : Life ⟨1⟩ _ _ _ :=
    .go trivial hleave <| .go trivial hmap <| .go trivial hskip <| .one trivial hfinish
  have hpasses : ∀ e ∈ [Event.iterated w₂ inside (.halt severalFailures),
      .iterated w₂ mapped (.halt severalFailures), .iterated w₂ handled (.halt renamed),
      .iterated w₂ start (.halt discarded)], e.passes ⟨1⟩ = true := by
    simp only [List.forall_mem_cons]
    exact ⟨rfl, rfl, by decide, rfl, nofun⟩
  have hleaves : discarded.cause.leaves =
      [.die (.runtime "typed failure discarded: its handler was skipped by interruption"),
        .die (.explicit "broken"), .interrupt ⟨0⟩] := by
    simp [discarded, renamed, Halt.pastFold, Halt.discard, Halt.flatMap, Cause.flatMap,
      Cause.isInterrupted_eq, Cause.alongside, Cause.leaves, Leaf.isInterrupt, Leaf.interruptor?]
  exact ⟨_, _, inside, discarded,
    ⟨(hbegin.append hend).append .rest, ⟨by decide +kernel, rfl⟩, rfl⟩, hbegin, hend, hpasses,
    hleaves⟩

/-- **Unwinding drops no leaf.**  When a failure has been handed on for some time since it was
raised, it has passed the first of the continuations there were, and its leaves are still in their
places, but for what these continuations do; then either the fiber has ended with it, or what comes
next hands it on again, runs a handler on it, or is a mapping of failures that panics on it. -/
theorem Run.unwinding_keeps_leaves (h : Run budget (init minted) record s) (fiber : FiberId) :
    (∃ es a, History s record fiber es a) ∧
      ∀ before during after run raised b a,
        History s record fiber (before ++ during ++ after) a →
        Life fiber .unborn before (.active run (.halt raised)) →
        Life fiber (.active run (.halt raised)) during b → Life fiber b after a →
        (∀ e ∈ during, e.passes fiber = true) →
        ∃ passed now,
          raised.Unwinds (Untyped budget minted record s) (s.world.requests fiber) passed now ∧
          ((b = .ended (.halt now) ∧ run.stack = passed ∧ after = []) ∨
            ∃ left, b = .active left (.halt now) ∧ run.stack = passed ++ left.stack ∧
              ∀ e ∈ after.head?, e.passes fiber = true ∨ e.StopsUnwinding fiber now) := by
  refine ⟨h.history fiber, fun before during after run raised b a hhistory _ hduring hafter
    hpasses => ?_⟩
  have hmem : ∀ e ∈ during, (fiber, e) ∈ record := fun e he =>
    (hhistory.mem_iff (Event.isDoing_of_passes (hpasses e he))).mp
      (List.mem_append_left _ (List.mem_append_right _ he))
  have hrequests : ∀ e ∈ during, ∀ w, e.world? = some w →
      w.requests fiber <+: s.world.requests fiber := fun e he w hw =>
    (h.requests_of_mem (valid_init minted) (hmem e he) hw fiber).2
  have hmixed : ∀ e ∈ during, Untyped budget minted record s ∨ e.Unmixed := by
    intro e he
    refine or_iff_not_imp_left.mpr fun htyped => ?_
    unfold Untyped at htyped
    push Not at htyped
    obtain ⟨S, roots, hconducted⟩ := htyped
    exact hconducted.unmixed _ (hmem e he)
  obtain ⟨passed, now, hnow, hlast⟩ := hduring.unwinds_of_passes hpasses hrequests hmixed
  refine ⟨passed, now, hnow, hlast.imp (fun ⟨hb, hpassed⟩ => ⟨hb, hpassed, ?_⟩)
    fun ⟨left, hb, hpassed⟩ => ⟨left, hb, hpassed, fun e he => ?_⟩⟩
  · -- a fiber that has ended does nothing more
    subst hb
    cases hafter with
    | rest => rfl
    | go _ hgoes _ => cases hgoes
  · subst hb
    cases hafter with
    | rest => cases he
    | @go _ _ _ e' _ _ hgoes _ =>
      obtain rfl : e' = e := Option.some.inj he
      cases hpass : e'.passes fiber with
      | true => exact Or.inl rfl
      | false => exact Or.inr (hgoes.stopsUnwinding hpass)

/-- In a run for which types can be told, the failures become defects, and the cancellation is
added. -/
theorem Run.unwinding_keeps_leaves_unhandledFailure :
    ¬ Untyped 16 0 (recordAsked unhandledFailure 4 8) (afterAsked unhandledFailure 4 8) ∧
      ∃ before during run now,
        History (afterAsked unhandledFailure 4 8) (recordAsked unhandledFailure 4 8) ⟨1⟩
          (before ++ during ++ []) (.ended (.halt now)) ∧
        Life ⟨1⟩ .unborn before (.active run (.halt severalFailures)) ∧
        (∀ e ∈ during, e.passes ⟨1⟩ = true) ∧
        now.cause.leaves =
          [.die (.runtime "typed failure discarded: its handler was skipped by interruption"),
            .die (.explicit "broken"), .interrupt ⟨0⟩] ∧
        severalFailures.Unwinds
          (Untyped 16 0 (recordAsked unhandledFailure 4 8) (afterAsked unhandledFailure 4 8))
          ((afterAsked unhandledFailure 4 8).world.requests ⟨1⟩) run.stack now := by
  refine ⟨fun huntyped => huntyped spoken _ (conducted_asked typed_unhandledFailure rfl 4 8), ?_⟩
  obtain ⟨before, during, run, last, hhistory, hbegin, hend, hpasses, hleaves⟩ :=
    exists_life_unhandledFailure
  obtain ⟨passed, now, hnow, ⟨hb, hpassed, -⟩ | ⟨left, hb, -⟩⟩ :=
    (unwinding_keeps_leaves (run_asked unhandledFailure 4 8) ⟨1⟩).2 before during [] run
      severalFailures _ _ hhistory hbegin hend .rest hpasses
  · cases hb
    exact ⟨before, during, run, last, hhistory, hbegin, hpasses, hleaves, hpassed ▸ hnow⟩
  · cases hb

end Workshop

end Fibers
