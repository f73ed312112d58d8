import Fibers.Proofs.Discretion
import Fibers.Proofs.Lineage
import Fibers.Proofs.SecretResources

/-!
# Scopes

The use of a resource is a scope: what has been acquired for it is released when it is over.  If no
code panics that transforms what has been acquired, every part of the resource is released exactly
once, the inner parts before the outer ones; and that whatever becomes of the acquisition, of the
use and of the other releases, and whenever the fiber is asked to stop.

Code that transforms what has been acquired is called between the acquisition and the place where
the release is remembered.  What it has been handed when it panics is lost, and nothing else is.

All of this is of prudent runs: with a handle that was made up, code from outside could wait in place
of the fiber that has started the children of a pair, and be told what they have acquired.

## Main results

* `Workshop.PrudentRun.use_releases_once` — **everything is released exactly once, inside out.**
* `Workshop.PrudentRun.use_releases_rest` — **what has not been handed to code that panicked is
  released exactly once**, and the panic shows.
* `Workshop.Run.not_every_panic_releases` — what has been handed to it is lost.
-/

namespace Fibers

open Effect

namespace Workshop

variable {budget minted : Nat} {s : Workshop} {record : List (FiberId × Event)}
  {fiber : FiberId} {base : RunState} {during : List Event} {o : Outcome} {ε : ErrorType}
  {m : Resource ε} {g : Value → Action (Effect ε)}

/-! ### What is released -/

/-- **Everything that has been acquired for a use is released exactly once** when the use is over,
and what has been acquired inside of something else is released before it. -/
theorem PrudentRun.use_releases_once (h : PrudentRun budget minted record s)
    (hm : m.Composed True) (hdone : Evaluated s record fiber base (m.use g) during o) :
    ∃ st inside, Told s record fiber during st ∧ m.Uses g base.interruptible fiber o st [] inside ∧
      (reservedIn st).Nodup ∧ (calledIn st).Perm (reservedIn st) ∧
      (∀ p ∈ inside, [p.2, p.1].Sublist (calledIn st)) ∧
      ∀ f v id release, (f, .reserved v id release) ∈ st → st.Settles (id, release) := by
  obtain ⟨st, -, htold, lost, inside, hlost, huses⟩ :=
    (Tells.uses hm h.run h.discreet).of_evaluated hdone
  obtain rfl := hlost trivial
  refine ⟨st, inside, htold, huses, htold.nodup_of_evaluated h.run hdone, ?_,
    fun p => huses.ordered rfl, fun f v id release hmem => ?_⟩
  · have hperm := huses.perm
    rw [lostIds_nil, List.append_nil] at hperm
    exact hperm.symm
  · rcases huses.settles hmem with hsettled | ⟨q, hq, -⟩
    · exact hsettled
    · cases hq

/-- Acquired with nothing to do, and released with nothing to do. -/
def plain : Resource ⟨"E"⟩ := .bracket unit fun _ => pure unit

theorem composed_plain {calm : Prop} : plain.Composed calm := .bracketExit _ _

theorem guards_plain (c : FiberId) : plain.Guards c :=
  .bracket Effect.Guards.unit fun _ _ => .done Effect.Guards.unit

/-- Two resources one inside the other, and a third one at once with them. -/
def threeParts : Resource ⟨"E"⟩ := (plain.zip plain).parZip plain

theorem guards_threeParts (c : FiberId) : threeParts.Guards c :=
  ((guards_plain c).zip (guards_plain c)).parZip (guards_plain c)

/-- All three parts are released. -/
theorem PrudentRun.use_releases_once_threeParts :
    ∃ during o, Evaluated (afterBegun (threeParts.use fun _ => pure unit) 180)
        (recordBegun (threeParts.use fun _ => pure unit) 180) ⟨1⟩ (.start .unit true)
        (threeParts.use fun _ => pure unit) during o ∧ isFailure o = false ∧
      ∃ st, Told (afterBegun (threeParts.use fun _ => pure unit) 180)
          (recordBegun (threeParts.use fun _ => pure unit) 180) ⟨1⟩ during st ∧
        (calledIn st).Perm (reservedIn st) ∧ (reservedIn st).Nodup := by
  obtain ⟨during, o, hdone, hsucceeds, -⟩ := exists_evaluated
    (i := threeParts.use fun _ => pure unit) (n := 180) (fun o => !isFailure o) ⟨_, rfl⟩
    (by decide +kernel) (by decide +kernel) (by decide +kernel)
  obtain ⟨st, -, htold, -, hnodup, hperm, -⟩ := PrudentRun.use_releases_once
    (prudent_begun (fun c => (guards_threeParts c).use fun _ _ => .done Effect.Guards.unit) 180)
    (Resource.composed_parZip (Resource.composed_zip composed_plain composed_plain) composed_plain)
    hdone
  exact ⟨during, o, hdone, (Bool.not_eq_true' _).mp hsucceeds, st, htold, hperm, hnodup⟩

/-! ### What is lost -/

/-- **What has not been handed to code that panicked is released exactly once** when the use is
over.  The use fails with each of the panics, if no code that has been carried out for the parts has
failed with cancellations alone. -/
theorem PrudentRun.use_releases_rest (h : PrudentRun budget minted record s)
    (hm : m.Composed False) (hdone : Evaluated s record fiber base (m.use g) during o) :
    ∃ st lost inside, Told s record fiber during st ∧
      m.Uses g base.interruptible fiber o st lost inside ∧ (reservedIn st).Nodup ∧
      (reservedIn st).Perm (calledIn st ++ lostIds lost) ∧
      (∀ f v id release, (f, .reserved v id release) ∈ st →
        st.Settles (id, release) ∨ ∃ q ∈ lost, (id, release) ∈ q.2.leaves) ∧
      (st.Firm → ∀ q ∈ lost, ∃ failure, o = .halt failure ∧ .die q.1 ∈ failure.leaves) := by
  obtain ⟨st, -, htold, lost, inside, -, huses⟩ :=
    (Tells.uses hm h.run h.discreet).of_evaluated hdone
  exact ⟨st, lost, inside, htold, huses, htold.nodup_of_evaluated h.run hdone, huses.perm,
    fun f v id release hmem => huses.settles hmem, fun hfirm q hq => huses.tells hfirm hq⟩

/-- A resource of which a value has been made by code that panics. -/
def broken : Resource ⟨"E"⟩ := plain.map fun _ => .panic ⟨.panic, "boom"⟩

theorem composed_broken : broken.Composed False := .map composed_plain nofun

theorem guards_zip_broken (c : FiberId) : (plain.zip broken).Guards c :=
  (guards_plain c).zip ((guards_plain c).map fun _ _ => .panic _)

/-- The outer part is released, and the use fails with the panic. -/
theorem PrudentRun.use_releases_rest_broken :
    ∃ during o, Evaluated (afterBegun ((plain.zip broken).use fun _ => pure unit) 80)
        (recordBegun ((plain.zip broken).use fun _ => pure unit) 80) ⟨1⟩ (.start .unit true)
        ((plain.zip broken).use fun _ => pure unit) during o ∧ isFailure o = true ∧
      ∃ st lost, Told (afterBegun ((plain.zip broken).use fun _ => pure unit) 80)
          (recordBegun ((plain.zip broken).use fun _ => pure unit) 80) ⟨1⟩ during st ∧
        (reservedIn st).Perm (calledIn st ++ lostIds lost) ∧
        (st.Firm → ∀ q ∈ lost, ∃ failure, o = .halt failure ∧ .die q.1 ∈ failure.leaves) := by
  obtain ⟨during, o, hdone, hfails, -⟩ := exists_evaluated
    (i := (plain.zip broken).use fun _ => pure unit) (n := 80) isFailure ⟨_, rfl⟩
    (by decide +kernel) (by decide +kernel) (by decide +kernel)
  obtain ⟨st, lost, -, htold, -, -, hperm, -, hdies⟩ := PrudentRun.use_releases_rest
    (prudent_begun (fun c => (guards_zip_broken c).use fun _ _ => .done Effect.Guards.unit) 80)
    (Resource.composed_zip composed_plain composed_broken) hdone
  exact ⟨during, o, hdone, hfails, st, lost, htold, hperm, hdies⟩

/-- Whether an event acquires something. -/
def tellsReserved (e : Event) : Bool := e.episodes.any (·.reserved?.isSome)

/-- Whether an event releases something. -/
def tellsCalled (e : Event) : Bool := e.episodes.any (·.called?.isSome)

theorem reserved_of_tells {e : Event} (h : tellsReserved e = true) :
    ∃ v id release, .reserved v id release ∈ e.episodes := by
  obtain ⟨episode, hmem, hreserved⟩ := List.any_eq_true.mp h
  cases episode with
  | reserved v id release => exact ⟨v, id, release, hmem⟩
  | ran _ _ | called _ _ | started _ => cases hreserved

/-- **Not everything that has been acquired is released** when code has panicked that should have
transformed it: a fiber that does nothing but use such a resource may end without a release. -/
theorem Run.not_every_panic_releases :
    ¬ ∀ (budget minted : Nat) (s : Workshop) (record : List (FiberId × Event)) (fiber : FiberId)
        (f : Value → Action Value) (w : World) (environment : Value) (o : Outcome),
      Run budget (init minted) record s →
      (eventsOf fiber record).head? = some (.iterated w (.start environment true)
        (.eval ((plain.map f).use fun _ => pure unit))) →
      Ended record fiber o →
        ∀ e ∈ eventsOf fiber record, ∀ v id release, .reserved v id release ∈ e.episodes →
          ∃ e' ∈ eventsOf fiber record, ∃ x, .called id x ∈ e'.episodes := by
  intro hall
  obtain ⟨w, hfirst⟩ : ∃ w, (eventsOf ⟨1⟩ (recordBegun (broken.use fun _ => pure unit) 60)).head? =
    some (.iterated w (.start .unit true) (.eval (broken.use fun _ => pure unit))) := ⟨_, rfl⟩
  obtain ⟨o, hended, -⟩ := ended_of_endsSo ⟨1⟩ isFailure
    (by decide +kernel : (recordBegun (broken.use fun _ => pure unit) 60).any _ = true)
  have hacquired : (eventsOf ⟨1⟩ (recordBegun (broken.use fun _ => pure unit) 60)).any
      tellsReserved = true := by
    decide +kernel
  have hnone : (eventsOf ⟨1⟩ (recordBegun (broken.use fun _ => pure unit) 60)).any
      tellsCalled = false := by
    decide +kernel
  obtain ⟨e, he, htells⟩ := List.any_eq_true.mp hacquired
  obtain ⟨v, id, release, hreserved⟩ := reserved_of_tells htells
  obtain ⟨e', he', x, hcalled⟩ := hall 16 0 _ _ ⟨1⟩ _ w _ o (run_begun _ 60) hfirst hended e he v id
    release hreserved
  exact List.any_eq_false.mp hnone e' he' (List.any_eq_true.mpr ⟨_, hcalled, rfl⟩)

end Workshop

end Fibers
