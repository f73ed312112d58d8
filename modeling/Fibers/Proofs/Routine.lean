import Fibers.Proofs.Refinement
import Fibers.Proofs.Settling

/-!
# What a fiber does that is left alone

A fiber that nobody asks to stop goes its own way.  Where its next steps depend on nothing else,
it takes them one after the other, whatever worlds it finds: they are its routine.  A course
from there begins with the whole routine, or it ends in the midst of it, and then the fiber is
still about to do the rest.

A fiber that sleeps and is left alone wakes up when its alarm rings, without information.

## Main definitions

* `Routine`, `RoutineIn` — steps that a fiber takes whatever worlds it finds, at least after the
  first one.
* `Performs` — events that are the steps of a routine.
* `Unhindered` — nobody comes in the way of a fiber.

## Main results

* `Course.split_routine` — a course begins with the routine, or ends in the midst of it.
* `Course.split_sleep` — a course begins with the whole sleep, or ends before it is over.
* `Workshop.Run.unhindered` — **nobody comes in the way of a fiber that is not asked to stop.**
-/

namespace Fibers

/-! ### Routines -/

/-- The steps by which a fiber comes from one standing to another, whatever worlds it finds, if
nobody has asked it to stop; each departs from a standing that `I` admits. -/
inductive Routine (fiber : FiberId) (I : Standing → Prop) :
    Standing → List (RunState × Step) → Standing → Prop where
  /-- None. -/
  | done {a : Standing} : Routine fiber I a [] a
  /-- One, and then others. -/
  | cons {run : RunState} {step : Step} {b c : Standing} {steps : List (RunState × Step)} :
      I (.active run step) → (∀ w : World, w.after fiber (step.plan none fiber run) = b) →
      Routine fiber I b steps c → Routine fiber I (.active run step) ((run, step) :: steps) c

/-- The same, if the fiber takes the first step in a given world. -/
inductive RoutineIn (fiber : FiberId) (I : Standing → Prop) (w : World) :
    Standing → List (RunState × Step) → Standing → Prop where
  /-- There is no first step. -/
  | done {a : Standing} : RoutineIn fiber I w a [] a
  /-- The first step, and then others. -/
  | cons {run : RunState} {step : Step} {c : Standing} {steps : List (RunState × Step)} :
      I (.active run step) →
      Routine fiber I (w.after fiber (step.plan none fiber run)) steps c →
      RoutineIn fiber I w (.active run step) ((run, step) :: steps) c

/-- Events are the steps of a routine, in order. -/
def Performs (steps : List (RunState × Step)) (es : List Event) : Prop :=
  List.Forall₂ (fun p e => ∃ w, e = Event.iterated w p.1 p.2) steps es

/-- Events are the steps of a routine, the first of them in a given world. -/
def PerformsIn (w : World) (steps : List (RunState × Step)) (es : List Event) : Prop :=
  Performs steps es ∧ ∀ e ∈ es.head?, e.world? = some w

/-- Nobody comes in the way of a fiber: nobody has asked it to stop when it does something, and
if it sleeps it is woken by its alarm. -/
structure Unhindered (fiber : FiberId) (es : List Event) : Prop where
  free : ∀ e ∈ es, ∀ w, e.world? = some w → w.store.isInterrupted fiber = false
  rested : ∀ {before after w run millis e},
    es = before ++ .iterated w run (.eval (.wait (.sleep millis))) :: e :: after →
      e = .resumed (.done .unit)

section

variable {fiber : FiberId} {w : World} {I J : Standing → Prop} {a b c : Standing} {e : Event}
  {es es' : List Event} {run : RunState} {step : Step} {steps : List (RunState × Step)}

theorem Routine.inWorld (h : Routine fiber J a steps b) (w : World) :
    RoutineIn fiber J w a steps b := by
  cases h with
  | done => exact .done
  | cons hJ hafter hrest => exact .cons hJ (hafter w ▸ hrest)

/-- A routine that is not over departs from a standing that it admits. -/
theorem Routine.admits (h : Routine fiber J a steps b) (hne : steps ≠ []) : J a := by
  cases h with
  | done => exact absurd rfl hne
  | cons hJ _ _ => exact hJ

theorem RoutineIn.admits (h : RoutineIn fiber J w a steps b) (hne : steps ≠ []) : J a := by
  cases h with
  | done => exact absurd rfl hne
  | cons hJ _ => exact hJ

theorem Unhindered.suffix (h : Unhindered fiber (es ++ es')) : Unhindered fiber es' where
  free e he := h.free e (List.mem_append_right _ he)
  rested heq := h.rested (by rw [heq, List.append_assoc])

theorem Unhindered.initial (h : Unhindered fiber (es ++ es')) : Unhindered fiber es where
  free e he := h.free e (List.mem_append_left _ he)
  rested heq := h.rested (by rw [heq, List.append_assoc]; rfl)

theorem Unhindered.tail (h : Unhindered fiber (e :: es)) : Unhindered fiber es := by
  rw [← List.singleton_append] at h
  exact h.suffix

/-- **A course begins with the routine, or it ends in the midst of it.** -/
theorem Course.split_routine (h : Course fiber I a es c) (hroutine : Routine fiber J a steps b)
    (hfree : Unhindered fiber es) :
    (∃ made left, steps = made ++ left ∧ left ≠ [] ∧ Performs made es ∧
        Routine fiber J c left b) ∨
      ∃ es₁ es₂, es = es₁ ++ es₂ ∧ Performs steps es₁ ∧ Course fiber I b es₂ c := by
  -- on the steps that are left, with the events of the rest of the course free
  induction hroutine generalizing es with
  | done => exact Or.inr ⟨[], es, rfl, .nil, h⟩
  | @cons run step b d steps hJ hafter hrest ih =>
    cases h with
    | rest => exact Or.inl ⟨[], _, rfl, by simp, .nil, .cons hJ hafter hrest⟩
    | go _ hgoes hcourse =>
      obtain ⟨w, rfl, -, rfl⟩ := hgoes.of_free (hfree.free _ List.mem_cons_self)
      rw [hafter w] at hcourse
      rcases ih hcourse hfree.tail with
        ⟨made, left, rfl, hne, hmade, hleft⟩ | ⟨es₁, es₂, rfl, hmade, hcourse⟩
      · exact Or.inl ⟨(run, step) :: made, left, rfl, hne, .cons ⟨w, rfl⟩ hmade, hleft⟩
      · exact Or.inr ⟨_ :: es₁, es₂, rfl, .cons ⟨w, rfl⟩ hmade, hcourse⟩

/-! ### Sleeping -/

namespace World

/-- Who begins to sleep is parked. -/
theorem park_sleep (w : World) (fiber : FiberId) (run : RunState) (millis : Nat) :
    (w.park fiber run (.sleep millis)).1 = none := by
  have hplace := w.suspension?_newSuspension fiber run.interruptible (.sleep millis)
    (w.newSuspension fiber run.interruptible (.sleep millis)).1
  rw [if_pos rfl] at hplace
  -- the alarm is set without anything being done to the place
  have hkept : ∀ w₁ : World, ∀ s, (w₁.register s (.sleep millis)).2.suspension? s =
      w₁.suspension? s := fun _ _ => rfl
  have hset : ∀ w₁ : World, ∀ s, (w₁.register s (.sleep millis)).1 =
      .ok (.alarm (w₁.store.alarms.schedule (w₁.store.now + millis) s).1) := fun _ _ => rfl
  simp only [park, hset, hkept, hplace, Option.map_some]

theorem after_sleep (w : World) (fiber : FiberId) (run : RunState) (millis : Nat) :
    w.after fiber (.wait run (.sleep millis)) = .waiting run := by
  have hpark := w.park_sleep fiber run millis
  simp only [after, carryOut]
  generalize w.park fiber run (.sleep millis) = parked at hpark
  obtain ⟨next, w'⟩ := parked
  obtain rfl : next = none := hpark
  rfl

end World

/-- **A course begins with the whole sleep, or it ends before it is over.** -/
theorem Course.split_sleep {millis : Nat}
    (h : Course fiber I (.active run (.eval (.wait (.sleep millis)))) es c)
    (hfree : Unhindered fiber es) :
    (es = [] ∧ c = .active run (.eval (.wait (.sleep millis)))) ∨
      ∃ w, (es = [.iterated w run (.eval (.wait (.sleep millis)))] ∧ c = .waiting run) ∨
        ∃ es', es =
            .iterated w run (.eval (.wait (.sleep millis))) :: .resumed (.done .unit) :: es' ∧
          Course fiber I (.handed run (.done .unit)) es' c := by
  cases h with
  | rest => exact Or.inl ⟨rfl, rfl⟩
  | go _ hgoes hrest =>
    obtain ⟨w, rfl, -, rfl⟩ := hgoes.of_free (hfree.free _ List.mem_cons_self)
    refine Or.inr ⟨w, ?_⟩
    change Course fiber I (w.after fiber (.wait run (.sleep millis))) _ c at hrest
    rw [w.after_sleep] at hrest
    cases hrest with
    | rest => exact Or.inl ⟨rfl, rfl⟩
    | @go _ _ _ e es' _ hwakes hrest =>
      obtain rfl : e = .resumed (.done .unit) := hfree.rested (List.nil_append _).symm
      cases hwakes with
      | resumed _ => exact Or.inr ⟨es', rfl, hrest⟩

end

/-! ### Runs -/

namespace Workshop

variable {budget minted : Nat} {s : Workshop} {record : List (FiberId × Event)} {fiber : FiberId}

/-- All that is known of a life is whether the fiber is asked to stop. -/
def whetherAsked (s : Workshop) (fiber : FiberId) : Prospect :=
  { Prospect.plain s.world.store fun _ => False with
    asked := s.world.store.isInterrupted fiber = true }

/-- **Nobody comes in the way of a fiber that is not asked to stop.** -/
theorem Run.unhindered (h : Run budget (init minted) record s)
    (hunasked : s.world.store.isInterrupted fiber = false) {past es : List Event} {a : Standing}
    (hhistory : History s record fiber (past ++ es) a) : Unhindered fiber es := by
  have hnever := hhistory.never_interrupted h hunasked
  refine ⟨fun e he => hnever e (List.mem_append_right _ he),
    fun {before after w run millis e} heq => ?_⟩
  subst heq
  have hforesees : Foresees s record fiber (whetherAsked s fiber) := ⟨rfl, fun _ _ => trivial, id⟩
  have htruthful := (h.truthful hforesees hhistory).suffix
  -- the sleep begins, and the fiber is parked
  have hlife := hhistory.life
  rw [← List.append_assoc] at hlife
  obtain ⟨b, -, hlife⟩ := Course.of_append hlife
  cases hlife with
  | go _ hgoes hrest =>
    cases hgoes with
    | iterated _ =>
      change Life fiber (w.after fiber (.wait run (.sleep millis))) _ a at hrest
      rw [w.after_sleep] at hrest
      -- it goes on, and with what it is told
      have hwoken : ∀ {step d}, e.isDoing = false → Life fiber (.active run step) after d →
          d = a → step = .value .unit := by
        rintro step d hidle hafter rfl
        rw [← List.singleton_append (l := after)] at htruthful
        rcases htruthful.replies (by simp [hidle]) hafter with
          ⟨w', more, d, rfl, -⟩ | ⟨-, ⟨o, rfl, hanswers⟩ | ⟨hasked, -⟩⟩
        · have hfree := hnever (.stopped w') (by simp) w' rfl
          rw [hhistory.interrupted_of_stopped (w := w') (by simp)] at hfree
          cases hfree
        · obtain rfl : o = .done .unit := hanswers.1
          rfl
        · exact absurd (hunasked.symm.trans hasked) Bool.false_ne_true
      cases hrest with
      | go _ hwakes hrest =>
        cases hwakes with
        | resumed o =>
          have hstep := hwoken rfl hrest rfl
          cases o with
          | done v => exact congrArg (fun v => Event.resumed (.done v)) (Step.value.inj hstep)
          | halt g => cases hstep
        | cancelled source _ => cases hwoken rfl hrest rfl

end Workshop

end Fibers
