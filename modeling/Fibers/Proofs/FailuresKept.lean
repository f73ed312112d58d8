import Fibers.Proofs.Confiding
import Fibers.Proofs.RaceContainment
import Fibers.Resource

/-!
# What becomes of the failures of children

Effects that run others at once end with a failure if one of the others does, and what the others
have failed with is kept beside it.  A failure that only says that its fiber has been stopped is
left out.  Whether it says so is read off its primary cause alone: what a fiber has failed with
besides, such as the failure of a finalizer that it ran because it was stopped, is left out with it.
So a leaf of a child's exit is lost only where the primary cause of that exit is a cancellation and
nothing else.

## Main definitions

* `Exit.StopsCleanly` — an exit that tells of nothing but a cancellation if its primary cause does.
* `Halt.Keeps` — a failure that has all that an exit has failed with.
* `Gathers` — the effects that run others at once and want the values of all.
* `Settles.Gathered` — what such an effect has done, and how it ends.

## Main results

* `Settles.gathers` — what an effect that gathers others has done when it settles.
* `Workshop.Run.keeps_failures` — **in every run the failure of such an effect keeps the failures of
  all children that stop cleanly.**
* `Workshop.Run.not_every_failure_kept` — the failure of a finalizer of a child that has been stopped
  is lost.
-/

namespace Fibers

open Effect

theorem exists_mem_of_forall₂ {α β : Type} {R : α → β → Prop} {as : List α} {bs : List β}
    (h : List.Forall₂ R as bs) {a : α} (ha : a ∈ as) : ∃ b ∈ bs, R a b := by
  induction h with
  | nil => cases ha
  | @cons a' b' as bs hb _ ih =>
    rcases List.mem_cons.mp ha with rfl | hmem
    · exact ⟨b', List.mem_cons_self, hb⟩
    · obtain ⟨b, hmem', hb'⟩ := ih hmem
      exact ⟨b, List.mem_cons_of_mem _ hmem', hb'⟩

/-! ### Leaves that are kept -/

/-- An exit that tells of nothing but cancellations if its primary cause does. -/
def Exit.StopsCleanly (x : Exit Value Value) : Prop :=
  ∀ h, x = .halt h → h.cause.isInterruptedOnly = true →
    ∀ leaf ∈ h.leaves, leaf.isInterrupt = true

/-- A failure has every leaf of an exit but for cancellations. -/
def Halt.Keeps (h : Halt Value) (x : Exit Value Value) : Prop :=
  ∀ leaf ∈ x.leaves, leaf.isInterrupt = false → leaf ∈ h.leaves

namespace Cause

variable {ε ε' : Type}

/-- Failures that are handed on as they are leave the same leaves. -/
theorem leaves_flatMap_fail (c : Cause ε) : (c.flatMap .fail).leaves = c.leaves := by
  rw [leaves_flatMap]
  refine (List.flatMap_congr fun leaf _ => ?_).trans (List.flatMap_singleton' c.leaves)
  cases leaf <;> rfl

end Cause

namespace Halt

variable {h g : Halt Value} {x y : Exit Value Value}

/-- A failure that is tagged is seen at its type as it was. -/
theorem leaves_untag_tag (type : ErrorType) (h : Halt Value) :
    ((h.tag type).untag type).leaves = h.leaves := by
  rw [untag_tag_eq]
  simp only [leaves, causes, flatMap, List.flatMap_cons, List.flatMap_map,
    Cause.leaves_flatMap_fail]

theorem keeps_done (h : Halt Value) (v : Value) : h.Keeps (.done v) := nofun

theorem keeps_self (h : Halt Value) : h.Keeps (.halt h) := fun _ hleaf _ => hleaf

theorem Keeps.of_subset (hx : h.Keeps x) (hsub : h.leaves ⊆ g.leaves) : g.Keeps x :=
  fun leaf hleaf hreal => hsub (hx leaf hleaf hreal)

theorem Keeps.untag_tag (hx : h.Keeps x) (type : ErrorType) : ((h.tag type).untag type).Keeps x := by
  refine hx.of_subset fun leaf hleaf => ?_
  rwa [leaves_untag_tag]

theorem subset_append_left (h g : Halt Value) : h.leaves ⊆ (h.append g).leaves := by
  rw [leaves_append]
  exact List.subset_append_left _ _

theorem subset_append_right (h g : Halt Value) : g.leaves ⊆ (h.append g).leaves := by
  rw [leaves_append]
  exact List.subset_append_right _ _

/-- An exit that says that its fiber has been stopped cleanly has nothing that could be lost. -/
theorem keeps_of_isInterruptedOnly (h : Halt Value) (hclean : (Exit.halt g).StopsCleanly)
    (honly : g.cause.isInterruptedOnly = true) : h.Keeps (.halt g) := by
  intro leaf hleaf hreal
  rw [hclean g rfl honly leaf hleaf] at hreal
  cases hreal

theorem subset_keepSibling (h : Halt Value) (y : Exit Value Value) :
    h.leaves ⊆ (h.keepSibling y).leaves := by
  cases y with
  | done v => exact List.Subset.refl _
  | halt g =>
    simp only [keepSibling]
    split
    · exact List.Subset.refl _
    · exact h.subset_append_left g

/-- **What is put beside a failure is kept.** -/
theorem keeps_keepSibling (h : Halt Value) (hclean : y.StopsCleanly) :
    (h.keepSibling y).Keeps y := by
  cases y with
  | done v => exact keeps_done _ v
  | halt g =>
    simp only [keepSibling]
    split
    · next honly => exact keeps_of_isInterruptedOnly h hclean honly
    · exact g.keeps_self.of_subset (h.subset_append_right g)

/-- Several exits are put beside a failure, one after the other. -/
theorem subset_foldl_keepSibling (ys : List (Exit Value Value)) (h : Halt Value) :
    h.leaves ⊆ (ys.foldl keepSibling h).leaves := by
  induction ys generalizing h with
  | nil => exact List.Subset.refl _
  | cons y ys ih => exact List.Subset.trans (h.subset_keepSibling y) (ih (h.keepSibling y))

theorem keeps_foldl_keepSibling {ys : List (Exit Value Value)} (hy : y ∈ ys)
    (hclean : y.StopsCleanly) (h : Halt Value) : (ys.foldl keepSibling h).Keeps y := by
  induction ys generalizing h with
  | nil => cases hy
  | cons z ys ih =>
    rcases List.mem_cons.mp hy with rfl | hlater
    · exact (h.keeps_keepSibling hclean).of_subset (subset_foldl_keepSibling ys (h.keepSibling y))
    · exact ih hlater (h.keepSibling z)

theorem keeps_failureOf (x : Exit Value Value) : (failureOf x).Keeps x := by
  cases x with
  | done v => exact keeps_done _ v
  | halt h => exact h.keeps_self

end Halt

/-! ### Both at once -/

/-- The failure with which two others end keeps what both have failed with, if their values are as
wanted. -/
def KeepsBoth (ε : ErrorType) (wanted : Value → Prop) (x y : Exit Value Value) (o : Outcome) : Prop :=
  ∀ failure, o = .halt failure → (∀ v, x = .done v ∨ y = .done v → wanted v) →
    (x.StopsCleanly → (failure.untag ε).Keeps x) ∧ (y.StopsCleanly → (failure.untag ε).Keeps y)

/-- **A pair keeps the failures of both sides.** -/
theorem Settles.PairEnds.keepsBoth {ε : ErrorType} {f : Value → Value → Action Value}
    {x y : Exit Value Value} {o : Outcome} (h : PairEnds ε f x y o) (wanted : Value → Prop) :
    KeepsBoth ε wanted x y o := by
  rintro failure rfl -
  cases h with
  | done => exact ⟨fun _ => Halt.keeps_done _ _, fun _ => Halt.keeps_done _ _⟩
  | @left h y =>
    exact ⟨fun _ => (h.keeps_self.of_subset (h.subset_keepSibling y)).untag_tag ε,
      fun hclean => (h.keeps_keepSibling hclean).untag_tag ε⟩
  | @right a h => exact ⟨fun _ => Halt.keeps_done _ _, fun _ => h.keeps_self.untag_tag ε⟩
  | @both first h =>
    exact ⟨fun _ => (first.keeps_self.of_subset (first.subset_append_left h)).untag_tag ε,
      fun _ => (h.keeps_self.of_subset (first.subset_append_right h)).untag_tag ε⟩
  | @cancelled first h honly =>
    exact ⟨fun hclean => Halt.keeps_of_isInterruptedOnly _ hclean honly,
      fun _ => h.keeps_self.untag_tag ε⟩

/-- A value that stands for something acquired. -/
def IsReservation (v : Value) : Prop := ∃ r : Reservation, Carried.ofValue? v = some r

namespace Settles

variable {fiber : FiberId} {p : Prospect} {run base : RunState} {ε : ErrorType}

/-- Of two that have been acquired at once one is released if the other has failed, and the failure
of the other is kept. -/
theorem releaseInto {h : Halt Value} {r : Reservation} {Q : Outcome → List Act → Prop}
    (hrun : run.interruptible = false)
    (hQ : ∀ failure as, h.leaves ⊆ (failure.untag ε).leaves → Q (.halt failure) as) :
    Settles fiber p run
      (.active run (.eval (r.release.runInto (.halt h) : Effect ε))) Q := by
  refine finishWith (P := fun _ _ => True) hrun (fun _ _ _ _ _ _ _ _ _ _ => trivial) ?_
  rintro o as -
  cases o with
  | done v =>
    refine hQ (h.tag ε) as ?_
    rw [Halt.leaves_untag_tag]
    exact List.Subset.refl _
  | halt cleanup =>
    refine hQ ((h.append (cleanup.untag ε)).tag ε) as ?_
    rw [Halt.leaves_untag_tag]
    exact h.subset_append_left _

/-- What follows on two acquisitions keeps the failures of both. -/
theorem settleBoth {f : Value → Value → Action Value} (x y : Exit Value Value)
    (hrun : run.interruptible = false) (w : World) :
    Settles fiber p run
      (.active run (.ofBuilt ((Resource.settleBoth f x y : Action (Effect ε)).run w).1))
      fun o _ => KeepsBoth ε IsReservation x y o := by
  have hreserved : ∀ {a : Value} {h : Halt Value} {x y : Exit Value Value},
      (x = .done a ∨ y = .done a) →
      (∀ failure : Halt Failure, h.leaves ⊆ (failure.untag ε).leaves →
        KeepsBoth ε IsReservation x y (.halt failure)) →
      Settles fiber p run (.active run (.ofBuilt ((expecting
        (fun r : Reservation => pure (r.release.runInto (.halt h) : Effect ε)) a).run w).1))
        fun o _ => KeepsBoth ε IsReservation x y o := by
    intro a h x y hdone hkeeps
    unfold expecting
    cases hvalue : (Carried.ofValue? a : Option Reservation) with
    | none =>
      -- what has been acquired is no reservation, which is not wanted
      intro es o after c _ _ _ _ failure _ hwanted
      obtain ⟨r, hr⟩ := hwanted a hdone
      rw [hvalue] at hr
      cases hr
    | some r => exact releaseInto hrun fun failure as hsub => hkeeps failure hsub
  cases x with
  | done a =>
    cases y with
    | done b =>
      exact fun _ _ _ _ _ _ _ _ _ _ _ => ⟨fun _ => Halt.keeps_done _ _, fun _ => Halt.keeps_done _ _⟩
    | halt h =>
      refine hreserved (Or.inl rfl) ?_
      rintro failure hsub failure' heq -
      obtain rfl := Exit.halt.inj heq
      exact ⟨fun _ => Halt.keeps_done _ _, fun _ => h.keeps_self.of_subset hsub⟩
  | halt h =>
    cases y with
    | done b =>
      refine hreserved (Or.inr rfl) ?_
      rintro failure hsub failure' heq -
      obtain rfl := Exit.halt.inj heq
      exact ⟨fun _ => h.keeps_self.of_subset hsub, fun _ => Halt.keeps_done _ _⟩
    | halt second =>
      exact done (Or.inl hrun) ((PairEnds.left (f := f)).keepsBoth _)

/-- **What two acquisitions at once have done when they settle, and how they end.** -/
theorem parZipWith {a b : Resource ε} {f : Value → Value → Action Value} :
    Settles fiber p run (.active run (.eval (a.parZipWith b f).reserve))
      (RaceSettles p ⟨false⟩ [a.reserve, b.reserve] fun l r o _ =>
        ∃ x y, p.Exits ε l x ∧ p.Exits ε r y ∧ KeepsBoth ε IsReservation x y o) := by
  have hrun : (run.enterStatus false).handling.interruptible = false := rfl
  refine region (bears_of_asked fun hasked source => Or.inl ⟨rfl, hasked, source, rfl⟩)
    (Or.inl rfl) (@raceFold fiber p (run.enterStatus false) ε ε ε _ _ _ _ _ (Or.inl hrun)
      (fun l other x hx => ⟨_, rfl, ?_⟩) fun r other y hy => ⟨_, rfl, ?_⟩)
  · refine chain_value (d := [.awaits ε other.id])
      (R := fun v => ∃ y, v = .exit y ∧ p.Exits ε other.id y) (Or.inl hrun) (Or.inl hrun)
      (awaitExit (Or.inl hrun) fun y hy => ⟨_, rfl, rfl, y, rfl, hy⟩) ?_
    rintro v ⟨y, rfl, hy⟩ w
    exact (settleBoth x y hrun w).mono fun o as hkeeps => ⟨x, y, hx, hy, hkeeps⟩
  · refine chain_value (d := [.awaits ε other.id])
      (R := fun v => ∃ x, v = .exit x ∧ p.Exits ε other.id x) (Or.inl hrun) (Or.inl hrun)
      (awaitExit (Or.inl hrun) fun x hx => ⟨_, rfl, rfl, x, rfl, hx⟩) ?_
    rintro v ⟨x, rfl, hx⟩ w
    exact (settleBoth x y hrun w).mono fun o as hkeeps => ⟨x, y, hx, hy, hkeeps⟩

end Settles

/-! ### Effects that want the values of all -/

/-- The effects that run others at once and want the values of all: with which interrupt status they
start them, and which values they can use. -/
inductive Gathers {ε : ErrorType} (base : RunState) :
    Effect ε → Restore → List Instruction → (Value → Prop) → Prop where
  | zipParWith (left right : Effect ε) (f : Value → Value → Action Value) :
      Gathers base (left.zipParWith right f) ⟨base.interruptible⟩ [left, right] fun _ => True
  | zipPar (left right : Effect ε) :
      Gathers base (left.zipPar right) ⟨base.interruptible⟩ [left, right] fun _ => True
  | collectAllPar (es : List (Effect ε)) :
      Gathers base (collectAllPar es) ⟨base.interruptible⟩ es fun _ => True
  | parZipWith (a b : Resource ε) (f : Value → Value → Action Value) :
      Gathers base (a.parZipWith b f).reserve ⟨false⟩ [a.reserve, b.reserve] IsReservation
  | parZip (a b : Resource ε) :
      Gathers base (a.parZip b).reserve ⟨false⟩ [a.reserve, b.reserve] IsReservation

/-- A failure keeps what a child is seen to have failed with, if the children that are seen to have
succeeded have done so as is wanted. -/
def KeepsExit (p : Prospect) (ε : ErrorType) (wanted : Value → Prop) (children : List FiberId)
    (failure : Halt Failure) (c : FiberId) : Prop :=
  ∃ x, p.Exits ε c x ∧ ((∀ c ∈ children, ∀ v, p.Exits ε c (.done v) → wanted v) →
    x.StopsCleanly → (failure.untag ε).Keeps x)

namespace Settles

variable {fiber : FiberId} {p : Prospect} {run : RunState} {ε : ErrorType} {wanted : Value → Prop}

/-- With which wait an effect that gathers others begins, and how it ends with a failure. -/
structure Gathered (p : Prospect) (ε : ErrorType) (wanted : Value → Prop)
    (children : List FiberId) (first : Registration) (o : Outcome) (later : List Act) : Prop where
  begins : (waited later).head? = some first
  /-- It fails although it has been told that no child has, or keeps what the children have failed
  with. -/
  ends : ∀ failure, o = .halt failure →
    (first = .firstFailure children ∧ p.Answers first (.done .none) ∧
        ∃ c ∈ children, ∃ g, p.Exits ε c (.halt g)) ∨
      ∀ c ∈ children, KeepsExit p ε wanted children failure c

/-- A pair that has learnt both exits, and keeps the failures of both, has gathered both. -/
theorem gathered_of_keepsBoth {l r : FiberId} {o : Outcome} {more : List Act}
    {x y : Exit Value Value} (hx : p.Exits ε l x) (hy : p.Exits ε r y)
    (hkeeps : KeepsBoth ε wanted x y o) :
    Gathered p ε wanted [l, r] (.firstDone l r) o (.waits (.firstDone l r) :: more) where
  begins := rfl
  ends failure ho := by
    refine Or.inr fun c hc => ?_
    have hboth : (∀ c ∈ [l, r], ∀ v, p.Exits ε c (.done v) → wanted v) →
        ∀ v, x = .done v ∨ y = .done v → wanted v := by
      rintro hall v (rfl | rfl)
      · exact hall l (by simp) v hx
      · exact hall r (by simp) v hy
    rcases List.mem_pair.mp hc with rfl | rfl
    · exact ⟨x, hx, fun hall => (hkeeps failure ho (hboth hall)).1⟩
    · exact ⟨y, hy, fun hall => (hkeeps failure ho (hboth hall)).2⟩

/-- **A nursery keeps the failures of all children.** -/
theorem NurseryEnds.gathered {children : List FiberId} {o : Outcome} {later : List Act}
    (h : NurseryEnds p ε children o later) :
    Gathered p ε (fun _ => True) children (.firstFailure children) o later := by
  cases h with
  | succeeded htold _ hends =>
    refine ⟨rfl, fun failure ho => ?_⟩
    subst ho
    rcases hends with ⟨vs, heq, -⟩ | ⟨c, hc, g, hfails, -⟩
    · cases heq
    · exact Or.inl ⟨rfl, htold, c, hc, g, hfails⟩
  | @failed i culprit x xs _ hculprit hx hxs =>
    obtain ⟨hi, rfl⟩ := List.getElem?_eq_some_iff.mp hculprit
    refine ⟨rfl, fun failure heq => Or.inr fun c hc => ?_⟩
    obtain rfl := Exit.halt.inj heq
    obtain ⟨j, hj, rfl⟩ := List.getElem_of_mem hc
    by_cases hij : j = i
    · subst hij
      exact ⟨x, hx, fun _ _ => ((Halt.keeps_failureOf x).of_subset
        (Halt.subset_foldl_keepSibling xs _)).untag_tag ε⟩
    · obtain ⟨y, hy, hexit⟩ := exists_mem_of_forall₂ hxs
        (List.mem_eraseIdx_iff_getElem.mpr ⟨j, hj, hij, rfl⟩)
      exact ⟨y, hexit, fun _ hclean => (Halt.keeps_foldl_keepSibling hy hclean _).untag_tag ε⟩

/-- **What an effect that gathers others has done when it settles**, and has not been asked to
stop. -/
theorem gathers {i : Effect ε} {restore : Restore} {effects : List Instruction}
    (h : Gathers run i restore effects wanted) (hasked : ¬ p.asked) :
    Settles fiber p run (.active run (.eval i)) fun o as =>
      (∃ v, o = .done v) ∨ ∃ children later first,
        as = (startAll restore children effects).map .deals ++ later ∧
          children.length = effects.length ∧ Gathered p ε wanted children first o later := by
  have hpair : ∀ (left right : Effect ε) (f : Value → Value → Action Value),
      Settles fiber p run (.active run (.eval (left.zipParWith right f))) fun o as =>
        (∃ v, o = .done v) ∨ ∃ children later first,
          as = (startAll ⟨run.interruptible⟩ children [left, right]).map .deals ++ later ∧
            children.length = [left, right].length ∧
              Gathered p ε (fun _ => True) children first o later := by
    intro left right f
    refine (pair (quiet_of_unasked hasked _)).mono ?_
    rintro o as (⟨-, hcut, -⟩ | ⟨l, r, later, rfl, ⟨hcut, -⟩ |
      ⟨more, rfl, -, hcut | ⟨x, y, hx, hy, hends⟩⟩⟩)
    · exact absurd hcut hasked
    · exact absurd hcut hasked
    · exact absurd hcut hasked
    · exact Or.inr ⟨[l, r], _, _, rfl, rfl, gathered_of_keepsBoth hx hy (hends.keepsBoth _)⟩
  have hacquired : ∀ (a b : Resource ε) (f : Value → Value → Action Value),
      Settles fiber p run (.active run (.eval (a.parZipWith b f).reserve)) fun o as =>
        (∃ v, o = .done v) ∨ ∃ children later first,
          as = (startAll ⟨false⟩ children [a.reserve, b.reserve]).map .deals ++ later ∧
            children.length = [a.reserve, b.reserve].length ∧
              Gathered p ε IsReservation children first o later := by
    intro a b f
    refine parZipWith.mono ?_
    rintro o as (⟨-, hcut, -⟩ | ⟨l, r, later, rfl, ⟨hcut, -⟩ |
      ⟨more, rfl, x, y, hx, hy, hkeeps⟩⟩)
    · exact absurd hcut hasked
    · exact absurd hcut hasked
    · exact Or.inr ⟨[l, r], _, _, rfl, rfl, gathered_of_keepsBoth hx hy hkeeps⟩
  cases h with
  | zipParWith left right f => exact hpair left right f
  | zipPar left right => exact hpair left right _
  | parZipWith a b f => exact hacquired a b f
  | parZip a b => exact hacquired a b _
  | collectAllPar =>
    refine (nursery effects).mono ?_
    rintro o as (⟨-, ⟨-, hdone⟩ | ⟨hcut, -⟩⟩ | ⟨children, later, rfl, hlength, -, hcut | hends⟩)
    · exact Or.inl ⟨_, hdone⟩
    · exact absurd hcut hasked
    · exact absurd hcut hasked
    · exact Or.inr ⟨children, later, _, rfl, hlength, hends.gathered⟩

end Settles

/-! ### Runs -/

namespace Workshop

variable {budget minted : Nat} {s : Workshop} {record : List (FiberId × Event)}

/-- A fiber ends once. -/
theorem Run.ended_eq (h : Run budget (init minted) record s) {c : FiberId} {o o' : Outcome}
    (hended : Ended record c o) (hended' : Ended record c o') : o = o' := by
  obtain ⟨l, rfl, hbooks⟩ := h.books c
  have ho := (hbooks.result o).mpr hended
  rw [(hbooks.result o').mpr hended'] at ho
  exact (Option.some.inj ho).symm

/-- **In every run an effect that runs others at once keeps what they have failed with**, if the
fiber that runs it is not asked to stop: when it ends with a failure, every child has ended, and
every leaf of its exit but for cancellations is in that failure, if the exit tells of nothing else
when its primary cause is a cancellation.  This is so of children for which nobody else waits: the
exit of a fiber is there for one taker. -/
theorem Run.keeps_failures (h : Run budget (init minted) record s) {fiber : FiberId}
    {base : RunState} {ε : ErrorType} {i : Effect ε} {restore : Restore}
    {effects : List Instruction} {wanted : Value → Prop}
    (hgathers : Gathers base i restore effects wanted) {during : List Event}
    {failure : Halt Failure} (hdone : Evaluated s record fiber base i during (.halt failure))
    (hfree : s.world.store.isInterrupted fiber = false) :
    ∃ children later first, acts during = (startAll restore children effects).map .deals ++ later ∧
      children.length = effects.length ∧ (waited later).head? = some first ∧
      ((∀ c ∈ children, Confides s record fiber c first ε) →
        (∀ c ∈ children, ∀ v, Ended record c (.done v) → wanted v) →
          ∀ c ∈ children, ∃ o, Ended record c o ∧
            ((o.untag ε).StopsCleanly → (failure.untag ε).Keeps (o.untag ε))) := by
  have hspares : Spares fiber (fun _ => False) (.active base (.eval i)) during :=
    fun _ _ _ _ _ _ _ _ => id
  rcases hdone.foreseen h (h.foresees_confided hfree) hspares id (Settles.gathers hgathers id) with
    ⟨v, heq⟩ | ⟨children, later, first, hacts, hlength, hgathered⟩
  · cases heq
  refine ⟨children, later, first, hacts, hlength, hgathered.begins, fun hconfides hwanted => ?_⟩
  -- what is told of a child is how it has ended
  have hexit : ∀ {c x}, c ∈ children → (confided s record fiber).Exits ε c x →
      ∃ o, Ended record c o ∧ x = o.untag ε :=
    fun hc hx => hx.2.exit rfl rfl (hconfides _ hc)
  rcases hgathered.ends failure rfl with ⟨rfl, htold, c, hc, g, hg⟩ | hkeeps
  · obtain ⟨v, hv⟩ := htold.2.verdict rfl rfl hc (hconfides c hc)
    obtain ⟨o, ho, heq⟩ := hexit hc hg
    obtain rfl := h.ended_eq hv ho
    cases heq
  · intro c hc
    obtain ⟨x, hx, hkept⟩ := hkeeps c hc
    obtain ⟨o, ho, rfl⟩ := hexit hc hx
    refine ⟨o, ho, hkept fun c' hc' v hv => ?_⟩
    obtain ⟨o', ho', heq⟩ := hexit hc' hv
    refine hwanted c' hc' v ?_
    cases o' with
    | done v' => exact Exit.done.inj heq ▸ ho'
    | halt g => cases heq

/-! ### A fiber that is left to run -/

/-- The workshop after a fiber has been started that runs an effect, and some moves. -/
def afterBegun (i : Instruction) (n : Nat) : Workshop := (begun i n).workshop

/-- What has been done until then. -/
def recordBegun (i : Instruction) (n : Nat) : List (FiberId × Event) := (begun i 0).record none n

theorem run_begun (i : Instruction) (n : Nat) :
    Run 16 (init 0) (recordBegun i n) (afterBegun i n) :=
  .idle (.start i .unit none) (Machine.moves_run none n (begun i 0))

/-- Whether a fiber ends with an event, and with which outcome. -/
def endsSo (c : FiberId) (check : Outcome → Bool) : FiberId × Event → Bool
  | (f, .iterated w run step) =>
    f = c && match step.plan (w.pending f) f run with
      | .finish o => check o
      | _ => false
  | _ => false

theorem ended_of_endsSo (c : FiberId) (check : Outcome → Bool)
    (h : record.any (endsSo c check) = true) : ∃ o, Ended record c o ∧ check o = true := by
  obtain ⟨⟨f, e⟩, hmem, hends⟩ := List.any_eq_true.mp h
  cases e with
  | started _ _ _ | stopped _ | resumed _ | cancelled _ => cases hends
  | iterated w run step =>
    obtain ⟨hself, hcheck⟩ := (Bool.and_eq_true ..).mp hends
    obtain rfl : f = c := of_decide_eq_true hself
    split at hcheck
    · next o hplan => exact ⟨o, ⟨w, run, step, hmem, hplan⟩, hcheck⟩
    · cases hcheck

/-- Who has ended in the course of a record has ended so. -/
theorem History.eq_of_ended {fiber : FiberId} {es : List Event} {o o' : Outcome}
    (h : History s record fiber es (.ended o)) (hended : Ended record fiber o') : o' = o := by
  obtain ⟨w, run, step, hmem, hplan⟩ := hended
  obtain ⟨before, after, rfl⟩ := List.append_of_mem ((h.mem_iff rfl).mpr hmem)
  obtain ⟨b, -, hlast⟩ := Course.of_append h.life
  cases hlast with
  | go _ hgoes hrest =>
    cases hgoes with
    | iterated _ =>
      rw [hplan] at hrest
      change Life fiber (.ended o') after (.ended o) at hrest
      cases hrest with
      | rest => rfl
      | go _ hgoes _ => cases hgoes

/-- A fiber that has not been asked to stop, and has ended, has evaluated its effect with the outcome
with which it has ended. -/
theorem Run.evaluated_of_isFinished (h : Run budget (init minted) record s) {fiber : FiberId}
    {base : RunState} {i : Instruction} (check : Outcome → Bool)
    (hfirst : ∃ w, (eventsOf fiber record).head? = some (.iterated w base (.eval i)))
    (hroot : base.stack = []) (hfinished : s.world.store.isFinished fiber = true)
    (hfree : s.world.store.isInterrupted fiber = false)
    (hends : record.any (endsSo fiber check) = true) :
    ∃ during o, Evaluated s record fiber base i during o ∧ check o = true ∧
      acts during = acts (eventsOf fiber record) := by
  obtain ⟨w, hfirst⟩ := hfirst
  obtain ⟨es, o, hhistory⟩ := h.ended_of_isFinished hfinished
  obtain ⟨during, o', hdone, hsame | ⟨w', hstopped⟩, hacts, -⟩ := hhistory.evaluated hfirst hroot
  · obtain ⟨o'', hended, hcheck⟩ := ended_of_endsSo _ _ hends
    obtain rfl := hhistory.eq_of_ended hended
    exact ⟨during, o', hdone, hsame ▸ hcheck, hacts⟩
  · have hmem := (hhistory.mem_iff rfl).mpr (mem_eventsOf.mp hstopped)
    rw [hhistory.asked_of_stopped h hmem] at hfree
    cases hfree

/-- So has a fiber that is left to run. -/
theorem exists_evaluated {i : Instruction} {n : Nat} (check : Outcome → Bool)
    (hfirst : ∃ w, (eventsOf ⟨1⟩ (recordBegun i n)).head? =
      some (.iterated w (.start .unit true) (.eval i)))
    (hfinished : (afterBegun i n).world.store.isFinished ⟨1⟩ = true)
    (hfree : (afterBegun i n).world.store.isInterrupted ⟨1⟩ = false)
    (hends : (recordBegun i n).any (endsSo ⟨1⟩ check) = true) :
    ∃ during o, Evaluated (afterBegun i n) (recordBegun i n) ⟨1⟩ (.start .unit true) i during o ∧
      check o = true ∧ acts during = acts (eventsOf ⟨1⟩ (recordBegun i n)) :=
  (run_begun i n).evaluated_of_isFinished check hfirst rfl hfinished hfree hends

/-- Whether nobody but one fiber waits for another one. -/
def awaitsOnly (fiber c : FiberId) (record : List (FiberId × Event)) : Bool :=
  record.all fun e => e.1 = fiber || (waitsFor c [e.2]).isEmpty

theorem nobody_of_awaitsOnly {fiber c f : FiberId} (h : awaitsOnly fiber c record = true)
    (hne : f ≠ fiber) : waitsFor c (eventsOf f record) = [] := by
  induction record with
  | nil => rfl
  | cons e record ih =>
    obtain ⟨hfirst, hlater⟩ := (Bool.and_eq_true ..).mp h
    have hrest := ih hlater
    rw [eventsOf, List.filterMap_cons]
    split
    · exact hrest
    · next e' heq =>
      split at heq
      · next hself =>
        obtain rfl := Option.some.inj heq
        rw [← List.singleton_append, waitsFor_append, ← eventsOf, hrest, List.append_nil]
        rcases (Bool.or_eq_true ..).mp hfirst with hfiber | hnone
        · exact absurd (hself ▸ of_decide_eq_true hfiber) hne
        · exact List.isEmpty_iff.mp hnone
      · cases heq

/-- A pair both of whose sides fail. -/
def failingPair : Effect ⟨"E"⟩ := (fail (.text "a") : Effect ⟨"E"⟩).zipPar (fail (.text "b"))

/-- Whether an outcome is a failure. -/
def isFailure : Outcome → Bool
  | .done _ => false
  | .halt _ => true

/-- Two children have been started at first. -/
theorem eq_of_startAll {restore : Restore} {children : List FiberId} {i j i' j' : Instruction}
    {l r : FiberId} {first : Registration} {later more : List Act}
    (hacts : .forks l i :: .forks r j :: .waits first :: more =
      (startAll restore children [i', j']).map .deals ++ later)
    (hlength : children.length = 2) : children = [l, r] ∧ later = .waits first :: more := by
  match children, hlength with
  | [a, b], _ =>
    obtain ⟨hl, hlater⟩ := List.cons.inj hacts
    obtain ⟨hr, rfl⟩ := List.cons.inj hlater
    obtain ⟨rfl, -⟩ := Dealing.forks.inj (Act.deals.inj hl)
    obtain ⟨rfl, -⟩ := Dealing.forks.inj (Act.deals.inj hr)
    exact ⟨rfl, rfl⟩

/-- Both failures of a pair are kept. -/
theorem Run.keeps_failures_failingPair :
    ∃ during failure, Evaluated (afterBegun failingPair 60) (recordBegun failingPair 60) ⟨1⟩
        (.start .unit true) failingPair during (.halt failure) ∧
      (afterBegun failingPair 60).world.store.isInterrupted ⟨1⟩ = false ∧
      ∀ c ∈ [(⟨2⟩ : FiberId), ⟨3⟩],
        Confides (afterBegun failingPair 60) (recordBegun failingPair 60) ⟨1⟩ c
          (.firstDone ⟨2⟩ ⟨3⟩) ⟨"E"⟩ ∧
        ∃ o, Ended (recordBegun failingPair 60) c o ∧
          ((o.untag ⟨"E"⟩).StopsCleanly → (failure.untag ⟨"E"⟩).Keeps (o.untag ⟨"E"⟩)) := by
  have hfree : (afterBegun failingPair 60).world.store.isInterrupted ⟨1⟩ = false := by
    decide +kernel
  obtain ⟨during, o, hdone, hfails, hacts⟩ := exists_evaluated isFailure ⟨_, rfl⟩
    (by decide +kernel) hfree (by decide +kernel : (recordBegun failingPair 60).any _ = true)
  cases o with
  | done v => cases hfails
  | halt failure =>
    have hsilent : (afterBegun failingPair 60).world.store.reports.isEmpty = true := by
      decide +kernel
    have hnobody : ∀ c ∈ [(⟨2⟩ : FiberId), ⟨3⟩],
        awaitsOnly ⟨1⟩ c (recordBegun failingPair 60) = true := by decide +kernel
    have hown : ∀ c ∈ [(⟨2⟩ : FiberId), ⟨3⟩],
        waitsFor c (eventsOf ⟨1⟩ (recordBegun failingPair 60)) =
          [.firstDone ⟨2⟩ ⟨3⟩, .awaitExit c ⟨"E"⟩] := by
      intro c hc
      rcases List.mem_pair.mp hc with rfl | rfl <;> rfl
    have hconfides : ∀ c ∈ [(⟨2⟩ : FiberId), ⟨3⟩], Confides (afterBegun failingPair 60)
        (recordBegun failingPair 60) ⟨1⟩ c (.firstDone ⟨2⟩ ⟨3⟩) ⟨"E"⟩ := by
      refine fun c hc => ⟨hown c hc ▸ List.prefix_refl _,
        fun f => nobody_of_awaitsOnly (hnobody c hc), fun x => ?_, fun _ => nofun⟩
      rw [List.isEmpty_iff.mp hsilent]
      exact List.not_mem_nil
    obtain ⟨children, later, first, hstart, hlength, hbegins, hkept⟩ :=
      Run.keeps_failures (run_begun failingPair 60) (.zipPar _ _) hdone hfree
    obtain ⟨i, j, more, heq⟩ : ∃ i j more, acts (eventsOf ⟨1⟩ (recordBegun failingPair 60)) =
      .forks ⟨2⟩ i :: .forks ⟨3⟩ j :: .waits (.firstDone ⟨2⟩ ⟨3⟩) :: more := ⟨_, _, _, rfl⟩
    rw [hacts, heq] at hstart
    obtain ⟨rfl, rfl⟩ := eq_of_startAll hstart hlength
    obtain rfl := Option.some.inj hbegins
    exact ⟨during, failure, hdone, hfree, fun c hc =>
      ⟨hconfides c hc, hkept hconfides (fun _ _ _ _ => trivial) c hc⟩⟩

/-! ### A failure that is lost -/

/-- A pair one side of which fails, and the other one when it is stopped. -/
def lossyPair : Effect ⟨"E"⟩ :=
  (fail (.text "a") : Effect ⟨"E"⟩).zipPar (never.ensuring (fail (.text "fin")))

/-- Whether a failure has the leaf of the finalizer. -/
def hasLeaf : Outcome → Bool
  | .done _ => false
  | .halt h => (h.untag ⟨"E"⟩).leaves.any fun
    | .fail (.text "fin") => true
    | _ => false

/-- **Not every failure is kept**: what the finalizer of a child has failed with that has been
stopped is lost. -/
theorem Run.not_every_failure_kept :
    ¬ ∀ (budget minted : Nat) (s : Workshop) (record : List (FiberId × Event)) (fiber : FiberId)
        (base : RunState) (i : Effect ⟨"E"⟩) (restore : Restore) (effects : List Instruction)
        (wanted : Value → Prop) (during : List Event) (failure : Halt Failure),
      Run budget (init minted) record s → Gathers base i restore effects wanted →
      Evaluated s record fiber base i during (.halt failure) →
      s.world.store.isInterrupted fiber = false →
        ∃ children later, acts during = (startAll restore children effects).map .deals ++ later ∧
          children.length = effects.length ∧ ∀ c ∈ children, ∀ o, Ended record c o →
            (failure.untag ⟨"E"⟩).Keeps (o.untag ⟨"E"⟩) := by
  intro hall
  have hfree : (afterBegun lossyPair 80).world.store.isInterrupted ⟨1⟩ = false := by
    decide +kernel
  obtain ⟨during, o, hdone, hfails, hacts⟩ :=
    exists_evaluated (fun o => isFailure o && !hasLeaf o) ⟨_, rfl⟩
      (by decide +kernel) hfree (by decide +kernel : (recordBegun lossyPair 80).any _ = true)
  obtain ⟨o', hended, hleaf⟩ := ended_of_endsSo ⟨3⟩ hasLeaf
    (by decide +kernel : (recordBegun lossyPair 80).any _ = true)
  cases o with
  | done v => cases hfails
  | halt failure =>
    cases o' with
    | done v => cases hleaf
    | halt h =>
      obtain ⟨children, later, hstart, hlength, hkept⟩ := hall 16 0 _ _ ⟨1⟩ _ _ _ _ _ _ _
        (run_begun lossyPair 80) (.zipPar _ _) hdone hfree
      obtain ⟨i, j, more, heq⟩ : ∃ i j more, acts (eventsOf ⟨1⟩ (recordBegun lossyPair 80)) =
        .forks ⟨2⟩ i :: .forks ⟨3⟩ j :: .waits (.firstDone ⟨2⟩ ⟨3⟩) :: more := ⟨_, _, _, rfl⟩
      rw [hacts, heq] at hstart
      obtain ⟨rfl, -⟩ := eq_of_startAll hstart hlength
      obtain ⟨leaf, hmem, hfin⟩ := List.any_eq_true.mp hleaf
      have hreal : leaf.isInterrupt = false := by
        cases leaf with
        | interrupt source => cases hfin
        | fail _ | die _ => rfl
      have hlost := hkept ⟨3⟩ (by simp) _ hended leaf hmem hreal
      have hnone : hasLeaf (.halt failure) = true := List.any_eq_true.mpr ⟨leaf, hlost, hfin⟩
      rw [hnone] at hfails
      cases hfails

end Workshop

end Fibers
