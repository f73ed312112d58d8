import Fibers.Proofs.FailuresKept
import Fibers.Proofs.Origins

/-!
# Defects that never come up

The runtime keeps account of its own doings, and has defects to say that an account does not hold:
that a wait has been completed twice while it was registered, that a fiber whose exit is taken has
not finished, that a child has succeeded of which a nursery has been told that it has failed.  Each
of them is found in one place, and ruled out by what others do.  Whatever is called while a wait is
registered, it is completed once at most.  Nobody is told of a fiber before its exit is there.  And
whoever has been told that a child has failed finds its failure when it asks for the exit, or that
somebody else has taken it.

A program may die of whichever defect it likes, and hand it on.  What is said of these defects is
therefore that they are handed on only: a fiber ends with one that the program has given it, an exit
that somebody gets or that is kept has one with which the fiber has ended, and a nursery fails with
one that is in the exit of a child.

## Main definitions

* `Defect.IsInternal` — the defects by which the runtime would say that it has lost account.
* `Workshop.HandedOn` — a defect is handed on only.

## Main results

* `Workshop.Run.defect_of_learns`, `Workshop.Run.defect_of_exit?` — what is told and kept of the end
  of a fiber.
* `Workshop.Run.halt_of_failed` — the exit of a fiber that is known to have failed.
* `Workshop.Run.die_of_nursery` — a defect of a nursery is one that it has been told.
* `Workshop.Run.hands_on_internal_defects` — **no internal defect comes up by itself in any run.**
-/

namespace Fibers

open Effect

/-! ### What is told of the end of a fiber -/

namespace Workshop

variable {budget minted : Nat} {s : Workshop} {record : List (FiberId × Event)} {fiber f c : FiberId}

namespace Books

variable {l : Ledger}

/-- What is given is the end of the fiber, or the defect. -/
theorem seen_or_observed (h : Books l record s) {who : Option SuspensionId}
    {x : Exit Value Value} (hgiven : (who, x) ∈ l.given) :
    (∃ o type, Ended record l.fiber o ∧ Seen record l.fiber o type x) ∨
      x = s.world.store.names.observed l.fiber := by
  cases h.holds.shelf with
  | going _ _ _ hnil | kept _ _ _ _ hnil =>
    rw [hnil] at hgiven
    cases hgiven
  | @taken o types type _ rest hresult _ _ htypes _ hall hrest =>
    rw [hall] at hgiven
    rcases List.mem_cons.mp hgiven with heq | hmem
    · exact Or.inl ⟨o, type, (h.result o).mp hresult, types, h.awaits_of_types htypes,
        (Prod.mk.inj heq).2⟩
    · exact Or.inr (hrest _ hmem)

end Books

/-- **Whoever gets the exit of a fiber** gets the end of that fiber, or the defect that says that
somebody else has got it. -/
theorem Run.of_learns (h : Run budget (init minted) record s) {a : Observation}
    {x : Exit Value Value} (hlearns : Learns s record f a x) :
    (∃ o type, Ended record f o ∧ Seen record f o type x) ∨
      x = s.world.store.names.observed f := by
  obtain ⟨l, rfl, hbooks⟩ := h.books f
  obtain ⟨who, hgiven⟩ := hbooks.exists_given hlearns
  exact hbooks.seen_or_observed hgiven

/-- **What is kept in the place of the exit of a fiber** is the end of that fiber, or the defect that
says that somebody has got it. -/
theorem Run.of_exit? (h : Run budget (init minted) record s) {x : Outcome}
    (hexit : s.world.store.exit? f = some x) :
    (∃ o types, Ended record f o ∧ x = o.passed types) ∨ x = s.world.exitTaken f := by
  obtain ⟨l, rfl, hbooks⟩ := h.books f
  rcases hbooks.given_eq_nil_of_exit? hexit with htaken | ⟨-, o, types, hresult, -, hx⟩
  · exact Or.inr htaken
  · exact Or.inl ⟨o, types, (hbooks.result o).mp hresult, hx⟩

/-! ### Who is known to have failed -/

/-- The fiber is at a point of a run before one of its iterations, and what it has done before is what
it had done then. -/
theorem Run.until_iteration (h : Run budget (init minted) record s) {n : Nat} {w : World}
    {run : RunState} {step : Step}
    (he : (eventsOf fiber record)[n]? = some (.iterated w run step)) :
    ∃ s₁ first rest, record = first ++ rest ∧ Run budget (init minted) first s₁ ∧
      Run budget s₁ rest s ∧ s₁.world = w ∧ ∀ {k w' run' step'}, k < n →
        (eventsOf fiber record)[k]? = some (.iterated w' run' step') →
          (eventsOf fiber first)[k]? = some (.iterated w' run' step') := by
  obtain ⟨before, after, hrecord, hbefore⟩ := exists_record_of_doing he
  rw [hrecord] at h
  obtain ⟨s₁, s₂, first, stops, rfl, hfirst, hmove, hlater⟩ := h.at_iteration
  obtain ⟨hworld, -, -, hstops⟩ := hmove.world_of_iterated (hfirst.valid (valid_init minted))
  refine ⟨s₁, first, stops ++ [(fiber, .iterated w run step)] ++ after, by simp [hrecord], hfirst,
    .move hmove hlater, hworld, fun {k w' run' step'} hk hget => ?_⟩
  have hearly : (eventsOf fiber (first ++ stops))[k]? = some (.iterated w' run' step') := by
    rw [hbefore, List.getElem?_take, if_pos hk, hget]
  rw [eventsOf_append] at hearly
  rcases Nat.lt_or_ge k (eventsOf fiber first).length with hlt | hge
  · rwa [List.getElem?_append_left hlt] at hearly
  · -- what comes after that is that it stops
    rw [List.getElem?_append_right hge] at hearly
    cases (hstops (mem_eventsOf.mp (List.mem_of_getElem? hearly))).2

namespace Books

variable {l l₁ : Ledger} {s₁ : Workshop} {first rest : List (FiberId × Event)}
  {x : Exit Value Value}

/-- Whoever begins to wait for a fiber that has ended with a failure, or whose exit has been given
away, is not given a success. -/
theorem halt_of_given (h₁ : Books l₁ first s₁) (h : Books l (first ++ rest) s)
    (hfiber : l.fiber = l₁.fiber) (hgiven : l₁.given <+: l.given) (hfailed : l₁.Failed)
    {place : SuspensionId} (hmem : (some place, x) ∈ l.given)
    (hfresh : s₁.world.isOver place = false) : ∃ g, x = .halt g := by
  have hold : (some place, x) ∉ l₁.given := fun hmem₁ => by
    have hover := (h₁.holds.places.served hmem₁).1
    rw [hfresh] at hover
    cases hover
  cases h.holds.shelf with
  | going _ _ _ hnil | kept _ _ _ _ hnil =>
    rw [hnil] at hmem
    cases hmem
  | @taken o types type who others hresult _ _ _ _ hall hothers =>
    rw [hall] at hmem
    rcases List.mem_cons.mp hmem with heq | hother
    · by_cases hnone : l₁.given = []
      · -- the failure itself
        obtain ⟨g, hg⟩ := hfailed hnone
        obtain ⟨v, run, step, hended, hplan⟩ := (h₁.result _).mp hg
        have hl := (h.result (.halt g)).mpr
          ⟨v, run, step, by rw [hfiber]; exact List.mem_append_left _ hended, by rwa [hfiber]⟩
        obtain rfl := Option.some.inj (hresult.symm.trans hl)
        obtain ⟨g', hg'⟩ := Exit.passed_halt types g
        rw [hg'] at heq
        exact ⟨_, (Prod.mk.inj heq).2⟩
      · -- somebody else has been given it
        obtain ⟨e, more, hcons⟩ := List.exists_cons_of_ne_nil hnone
        obtain ⟨tail, htail⟩ := hgiven
        rw [hcons, hall] at htail
        exact absurd (hcons ▸ (List.cons.inj htail).1 ▸ heq ▸ List.mem_cons_self) hold
    · exact ⟨_, hothers _ hother⟩

end Books

/-- **The exit of a fiber that is known to have failed is a failure**: whoever has been told that one
of several children has failed, and waits for that one then, is not told that it has succeeded. -/
theorem Run.halt_of_failed (h : Run budget (init minted) record s) {children : List FiberId}
    {n m i : Nat} {w : World} {run : RunState} {x : Exit Value Value}
    (hwait : (eventsOf fiber record)[n]? =
      some (.iterated w run (.eval (.wait (.firstFailure children)))))
    (hhears : Hears s record fiber n run (.done (.some (.int i)))) (hc : children[i]? = some c)
    (hlt : n < m) (hlearns : Learns s record c (.waiter fiber m) x) : ∃ g, x = .halt g := by
  obtain ⟨type, w', run', hawaits⟩ := hlearns.awaits
  -- it has gone on with the verdict before it waits for the exit
  obtain ⟨v, hnext⟩ : ∃ v, (eventsOf fiber record)[n + 1]? =
      some (.iterated v run (.value (.some (.int i)))) := by
    cases hhears with
    | goesOn hnext => exact ⟨_, hnext⟩
    | ready hlast _ =>
      have hm := (List.getElem?_eq_some_iff.mp hawaits).1
      omega
  have hlt' : n + 1 < m := by
    rcases Nat.lt_or_eq_of_le hlt with hlt' | rfl
    · exact hlt'
    · cases Option.some.inj (hnext.symm.trans hawaits)
  obtain ⟨s₁, first, rest, rfl, hfirst, hlater, rfl, hearly⟩ := h.until_iteration hawaits
  -- the books at the time when it begins to wait for the exit, and in the end
  have hvalid := hfirst.valid (valid_init minted)
  have hw := (hfirst.exists_chronicle (valid_init minted) (World.orderly_init minted)).orderly
    (World.orderly_init minted)
  obtain ⟨l₁, hfiber₁, hbooks₁⟩ := hfirst.books c
  obtain ⟨l, hfiber, hgiven, hbooks⟩ := hlater.extends_books hvalid hw hbooks₁
  have hfailed : l₁.Failed := by
    cases hbooks₁.after_wait (hearly hlt hwait) rfl (hearly hlt' hnext) with
    | iterated hgo =>
      exact hgo.told_of_value.failed children i rfl rfl (hfiber₁ ▸ hc)
  have hc' : c = l.fiber := by rw [hfiber, hfiber₁]
  subst hc'
  refine hbooks₁.halt_of_given hbooks hfiber hgiven hfailed
    (hbooks.given_of_learns hawaits hlearns) ?_
  have hnew : s₁.world.suspension? ⟨s₁.world.suspensions.next⟩ = none := Numbered.get?_next _
  rw [World.isOver, hnew]
  rfl

end Workshop

/-! ### What a nursery fails with -/

namespace Halt

variable {ε : Type} {d : Defect}

/-- What is recorded after an exit has been put beside a failure has been recorded by one of them. -/
theorem mem_keepSibling {h : Halt Value} {y : Exit Value Value} {leaf : Leaf Value}
    (hleaf : leaf ∈ (h.keepSibling y).leaves) : leaf ∈ h.leaves ∨ leaf ∈ y.leaves := by
  cases y with
  | done v => exact Or.inl hleaf
  | halt g =>
    simp only [keepSibling] at hleaf
    split at hleaf
    · exact Or.inl hleaf
    · rw [leaves_append] at hleaf
      exact List.mem_append.mp hleaf

theorem mem_foldl_keepSibling {ys : List (Exit Value Value)} {h : Halt Value} {leaf : Leaf Value}
    (hleaf : leaf ∈ (ys.foldl keepSibling h).leaves) :
    leaf ∈ h.leaves ∨ ∃ y ∈ ys, leaf ∈ y.leaves := by
  induction ys generalizing h with
  | nil => exact Or.inl hleaf
  | cons y ys ih =>
    rcases ih hleaf with hmem | ⟨z, hz, hmem⟩
    · exact (mem_keepSibling hmem).imp_right fun hy => ⟨y, List.mem_cons_self, hy⟩
    · exact Or.inr ⟨z, List.mem_cons_of_mem _ hz, hmem⟩

end Halt

namespace Settles.NurseryEnds

variable {p : Prospect} {ε : ErrorType} {children : List FiberId} {failure : Halt Failure}
  {later : List Act} {d : Defect}

/-- **A defect with which a nursery ends is in the exit of a child**, unless a child that is said to
have failed has succeeded. -/
theorem of_die (h : NurseryEnds p ε children (.halt failure) later) (hd : .die d ∈ failure.leaves) :
    (∃ c ∈ children, ∃ x, p.Exits ε c x ∧ x.HasDefect d) ∨
      ∃ (i : Nat) (culprit : FiberId) (v : Value),
        p.Answers (.firstFailure children) (.done (.some (.int i))) ∧
        children[i]? = some culprit ∧ p.Exits ε culprit (.done v) ∧
        later = .waits (.firstFailure children) ::
          stopSiblings ε culprit (children.eraseIdx i) := by
  generalize ho : Exit.halt failure = o at h
  cases h with
  | succeeded _ _ hends =>
    obtain ⟨vs, heq, -⟩ | ⟨c, hc, g, hexit, heq⟩ := hends
    · cases ho.trans heq
    · obtain rfl := Exit.halt.inj (ho.trans heq)
      exact Or.inl ⟨c, hc, _, hexit, Halt.die_mem_of_tag hd⟩
  | @failed i culprit x xs htold hculprit hx hxs =>
    obtain rfl := Exit.halt.inj ho
    rcases Halt.mem_foldl_keepSibling (Halt.die_mem_of_tag hd) with hfirst | ⟨y, hy, hleaf⟩
    · cases x with
      | halt g => exact Or.inl ⟨culprit, List.mem_of_getElem? hculprit, _, hx, hfirst⟩
      | done v => exact Or.inr ⟨i, culprit, v, htold, hculprit, hx, rfl⟩
    · obtain ⟨c, hc, hexit⟩ := exists_mem_of_forall₂ (List.Forall₂.flip hxs) hy
      exact Or.inl ⟨c, List.mem_of_mem_eraseIdx hc, y, hexit, hleaf⟩

end Settles.NurseryEnds

/-- The first wait for a fiber begins before all others. -/
theorem lt_of_waitsFor {c : FiberId} {es : List Event} {n m : Nat} {w w' : World}
    {run run' : RunState} {first registration : Registration} {rest : List Registration}
    (hwaits : waitsFor c es = first :: rest) (hrest : first ∉ rest)
    (hn : es[n]? = some (.iterated w run (.eval (.wait first))))
    (hm : es[m]? = some (.iterated w' run' (.eval (.wait registration))))
    (hfor : registration.isFor c = true) (hne : registration ≠ first) : n < m := by
  have hself : first.isFor c = true := by
    have hmem : first ∈ waitsFor c es := hwaits ▸ List.mem_cons_self
    exact (List.mem_filter.mp hmem).2
  have hindex : (waitsFor c (es.take n)).length = 0 := by
    have hget := getElem?_waitsFor hn hself
    rw [hwaits] at hget
    generalize (waitsFor c (es.take n)).length = k at hget
    cases k with
    | zero => rfl
    | succ k =>
      rw [List.getElem?_cons_succ] at hget
      exact absurd (List.mem_of_getElem? hget) hrest
  rcases Nat.lt_trichotomy n m with hlt | rfl | hlt
  · exact hlt
  · obtain ⟨-, -, hstep⟩ := Event.iterated.inj (Option.some.inj (hm.symm.trans hn))
    injection hstep with hwait
    injection hwait with hsame
    exact absurd hsame hne
  · have := length_waitsFor_lt hm hfor hlt
    omega

theorem waited_map_deals (ds : List Dealing) : waited (ds.map .deals) = [] := by
  induction ds with
  | nil => rfl
  | cons d ds ih => exact ih

theorem waited_map_waits (registrations : List Registration) :
    waited (registrations.map .waits) = registrations := by
  induction registrations with
  | nil => rfl
  | cons registration registrations ih => exact congrArg (registration :: ·) ih

/-- A nursery that stops the others waits for them, and for the one that has failed. -/
theorem waited_stopSiblings (ε : ErrorType) (culprit : FiberId) (siblings : List FiberId) :
    waited (Settles.stopSiblings ε culprit siblings) =
      (siblings ++ [culprit]).map (.awaitExit · ε) := by
  have hsignals : (siblings.map .signals : List Act) = (siblings.map .signals).map .deals := by
    rw [List.map_map]
    rfl
  have hawaits : (siblings.map (.awaits ε) : List Act) =
      (siblings.map (.awaitExit · ε)).map .waits := by
    rw [List.map_map]
    rfl
  rw [Settles.stopSiblings, waited_append, waited_append, hsignals, waited_map_deals, hawaits,
    waited_map_waits, List.map_append]
  rfl

/-- A nursery waits for one of its children alone after it has waited for all. -/
theorem waitsFor_stopSiblings {restore : Restore} {children : List FiberId}
    {effects : List Instruction} {ε : ErrorType} {culprit : FiberId} {siblings : List FiberId}
    {es : List Event} (hculprit : culprit ∈ children)
    (hacts : acts es = (startAll restore children effects).map .deals ++
      .waits (.firstFailure children) :: Settles.stopSiblings ε culprit siblings) :
    ∃ rest, waitsFor culprit es = .firstFailure children :: rest ∧
      .firstFailure children ∉ rest := by
  have hfor : (Registration.firstFailure children).isFor culprit = true :=
    List.contains_iff_mem.mpr hculprit
  refine ⟨_, by rw [waitsFor, hacts, waited_append, waited_map_deals, List.nil_append, waited_waits,
    List.filter_cons_of_pos hfor], fun hmem => ?_⟩
  have hmem := (List.mem_filter.mp hmem).1
  rw [waited_stopSiblings] at hmem
  obtain ⟨c, -, heq⟩ := List.mem_map.mp hmem
  cases heq

/-! ### Internal defects -/

namespace Defect

/-- The defects that say that the runtime has lost account of its own doings: that a wait has been
completed twice while it was registered, that a fiber whose exit is taken has not finished, or that
a child of which a nursery has been told that it has failed has succeeded. -/
inductive IsInternal : Defect → Prop where
  | completedTwice : IsInternal (.runtime "suspension completed twice during registration")
  | notFinished (names : FiberNames) (f : FiberId) :
      IsInternal (.runtime s!"{names.display f} has not finished")
  | reportedSuccess : IsInternal (.runtime "failed child reported success")

/-- Such a defect is known by how its message begins. -/
theorem IsInternal.start {message : String} (h : (Defect.runtime message).IsInternal) :
    message.toList.take 6 = ['s', 'u', 's', 'p', 'e', 'n'] ∨
      message.toList.take 6 = ['f', 'i', 'b', 'e', 'r', ':'] ∨
        message.toList.take 6 = ['f', 'a', 'i', 'l', 'e', 'd'] := by
  generalize hd : Defect.runtime message = d at h
  cases h with
  | completedTwice =>
    obtain rfl : message = _ := (Defect.mk.inj hd).2
    exact Or.inl (by simp)
  | notFinished names f =>
    obtain rfl : message = _ := (Defect.mk.inj hd).2
    exact Or.inr (Or.inl (by simp [toString, FiberNames.display]))
  | reportedSuccess =>
    obtain rfl : message = _ := (Defect.mk.inj hd).2
    exact Or.inr (Or.inr (by simp))

/-- The defect that says that somebody else has got the exit of a fiber. -/
def alreadyObserved (names : FiberNames) (f : FiberId) : Defect :=
  .runtime s!"exit of {names.display f} was already observed"

theorem not_isInternal_alreadyObserved (names : FiberNames) (f : FiberId) :
    ¬ (alreadyObserved names f).IsInternal := by
  intro h
  simpa [toString] using h.start

/-- No internal defect takes the place of a failure. -/
theorem Replaces.not_isInternal {d : Defect} (h : d.Replaces) : ¬ d.IsInternal := by
  intro hinternal
  cases h with
  | mismatch type => simpa [toString] using hinternal.start
  | skipped => simpa using hinternal.start

/-- What holds but for the defects that the interpreter puts in holds of the internal ones. -/
theorem IsInternal.resolve {d : Defect} (hd : d.IsInternal) {p : Prop} {names : FiberNames}
    {f : FiberId} (h : p ∨ d.Replaces ∨ d = alreadyObserved names f) : p := by
  rcases h with hp | hreplaces | rfl
  · exact hp
  · exact absurd hd hreplaces.not_isInternal
  · exact absurd hd (not_isInternal_alreadyObserved names f)

end Defect

/-! ### Runs -/

namespace Workshop

variable {budget minted : Nat} {s : Workshop} {record : List (FiberId × Event)} {fiber f c : FiberId}

/-- A fiber is told the exit of another one when it waits for it in the course of an evaluation. -/
def ToldDuring (s : Workshop) (record : List (FiberId × Event)) (fiber : FiberId)
    (during : List Event) (x : Exit Value Value) : Prop :=
  ∃ c type n w run, Awaits record c type fiber n w run ∧
    .iterated w run (.eval (.wait (.awaitExit c type))) ∈ during ∧
      Learns s record c (.waiter fiber n) x

/-- What is known of the waits that a fiber begins with some of its doings in a row. -/
def heardWithin (s : Workshop) (record : List (FiberId × Event)) (fiber : FiberId)
    (first size : Nat) : Prospect where
  final := s.world.store
  tells registration o := ∃ k w run, k < size ∧
    (eventsOf fiber record)[first + k]? = some (.iterated w run (.eval (.wait registration))) ∧
      Hears s record fiber (first + k) run o
  asked := s.world.store.isInterrupted fiber = true
  spared _ := False

/-- What is heard of a fiber that is waited for alone is its exit. -/
theorem learns_of_hears {type : ErrorType} {n : Nat} {w : World} {run : RunState}
    {x : Exit Value Value} (hawaits : Awaits record c type fiber n w run)
    (hhears : Hears s record fiber n run (.done (.exit x))) :
    Learns s record c (.waiter fiber n) x := by
  cases hhears with
  | goesOn hnext => exact .goesOn hawaits hnext
  | ready hlast hstands => exact .ready hawaits hlast hstands

/-- **A defect with which a nursery ends is in an exit that it has been told.** -/
theorem Run.die_of_nursery (h : Run budget (init minted) record s) {base : RunState} {ε : ErrorType}
    {es : List (Effect ε)} {during : List Event} {failure : Halt Failure} {d : Defect}
    (hdone : Evaluated s record fiber base (collectAllPar es) during (.halt failure))
    (hd : .die d ∈ failure.leaves) : ∃ x, ToldDuring s record fiber during x ∧ x.HasDefect d := by
  obtain ⟨past, later, hevents, hforeseen⟩ := hdone.foreseen_during h
  generalize hdoings : during.filter Event.isDoing = doings at hevents hforeseen
  have hget : ∀ {k e}, k < doings.length →
      ((eventsOf fiber record)[past.length + k]? = some e ↔ doings[k]? = some e) := by
    intro k e hk
    rw [hevents, List.getElem?_append_right (Nat.le_add_right _ _), Nat.add_sub_cancel_left,
      List.getElem?_append_left hk]
  have hspares : Spares fiber (fun _ => False) (.active base (.eval (collectAllPar es))) during :=
    fun _ _ _ _ _ _ _ _ => id
  have hends := @hforeseen (heardWithin s record fiber past.length doings.length) _ rfl id
    (fun {n w run registration o} hle hlt hwait hhears => by
      obtain ⟨k, rfl⟩ := Nat.exists_eq_add_of_le hle
      exact ⟨k, w, run, by omega, hwait, hhears⟩) hspares id (Settles.nursery_cut es)
  -- what is heard of a child is told in the course of the evaluation
  have htold : ∀ {c x}, (heardWithin s record fiber past.length doings.length).Exits ε c x →
      ToldDuring s record fiber during x := by
    rintro c x ⟨-, k, w, run, hk, hwait, hhears⟩
    refine ⟨c, ε, _, w, run, hwait, ?_, learns_of_hears hwait hhears⟩
    have hmem := List.mem_of_getElem? ((hget hk).mp hwait)
    rw [← hdoings] at hmem
    exact (List.mem_filter.mp hmem).1
  have hcut : ∀ source, failure ≠ .of (.interrupt source) := by
    rintro source rfl
    cases List.mem_singleton.mp hd
  rcases hends with ⟨-, ⟨-, heq⟩ | ⟨-, source, heq⟩⟩ |
    ⟨children, acts', hacts, -, -, ⟨-, source, heq⟩ | hends⟩
  · cases heq
  · exact absurd (Exit.halt.inj heq) (hcut source)
  · exact absurd (Exit.halt.inj heq) (hcut source)
  rcases hends.of_die hd with ⟨c, -, x, hexit, hdefect⟩ |
    ⟨i, culprit, v, ⟨-, k, w, run, hk, hwait, hhears⟩, hculprit, ⟨-, m, w', run', hm, hwait', hhears'⟩,
      rfl⟩
  · exact ⟨x, htold hexit, hdefect⟩
  · -- the child that has failed is waited for after it has been told to have failed
    rw [← acts_filter, hdoings] at hacts
    obtain ⟨rest, hwaits, hrest⟩ := waitsFor_stopSiblings (List.mem_of_getElem? hculprit) hacts
    have hlt := lt_of_waitsFor hwaits hrest ((hget hk).mp hwait) ((hget hm).mp hwait')
      (decide_eq_true rfl) nofun
    obtain ⟨g, hg⟩ := h.halt_of_failed hwait hhears hculprit (Nat.add_lt_add_left hlt _)
      (learns_of_hears hwait' hhears')
    cases hg

/-! ### Defects that are handed on -/

/-- A defect in an exit that somebody gets is one with which the fiber has ended, unless a failure is
found to be of another type, or somebody else has got the exit. -/
theorem Run.defect_of_learns (h : Run budget (init minted) record s) {a : Observation}
    {x : Exit Value Value} {d : Defect} (hlearns : Learns s record f a x) (hd : x.HasDefect d) :
    (∃ o, Ended record f o ∧ o.HasDefect d) ∨ d.Replaces ∨
      d = .alreadyObserved s.world.store.names f := by
  rcases h.of_learns hlearns with ⟨o, type, ho, types, -, rfl⟩ | rfl
  · rcases Exit.hasDefect_of_untag hd with hpassed | hreplaces
    · rcases Exit.hasDefect_of_passed hpassed with hended | hreplaces
      · exact Or.inl ⟨o, ho, hended⟩
      · exact Or.inr (Or.inl hreplaces)
    · exact Or.inr (Or.inl hreplaces)
  · exact Or.inr (Or.inr (Leaf.die.inj (List.mem_singleton.mp hd)))

/-- So is one that is kept in the place of the exit. -/
theorem Run.defect_of_exit? (h : Run budget (init minted) record s) {x : Outcome} {d : Defect}
    (hexit : s.world.store.exit? f = some x) (hd : x.HasDefect d) :
    (∃ o, Ended record f o ∧ o.HasDefect d) ∨ d.Replaces ∨
      d = .alreadyObserved s.world.store.names f := by
  rcases h.of_exit? hexit with ⟨o, types, ho, rfl⟩ | rfl
  · rcases Exit.hasDefect_of_passed hd with hended | hreplaces
    · exact Or.inl ⟨o, ho, hended⟩
    · exact Or.inr (Or.inl hreplaces)
  · exact Or.inr (Or.inr (Leaf.die.inj (List.mem_singleton.mp hd)))

/-- `HandedOn s record d` says that a defect is handed on only in a run: whoever has it has got it
from the program, or from somebody else who has it. -/
structure HandedOn (s : Workshop) (record : List (FiberId × Event)) (d : Defect) : Prop where
  /-- A fiber that ends with the defect has been given it by the program. -/
  ended {f : FiberId} {o : Outcome} : Ended record f o → o.HasDefect d → BroughtIn record f d
  /-- The exit of a fiber that somebody gets has the defect only if the fiber has ended with it. -/
  told {f : FiberId} {a : Observation} {x : Exit Value Value} : Learns s record f a x →
    x.HasDefect d → ∃ o, Ended record f o ∧ o.HasDefect d
  /-- So does what is kept in the place of the exit. -/
  kept {f : FiberId} {x : Outcome} : s.world.store.exit? f = some x → x.HasDefect d →
    ∃ o, Ended record f o ∧ o.HasDefect d
  /-- A nursery that fails with the defect has got an exit with it in the course of its evaluation. -/
  gathered {fiber : FiberId} {base : RunState} {ε : ErrorType} {es : List (Effect ε)}
    {during : List Event} {failure : Halt Failure} :
    Evaluated s record fiber base (collectAllPar es) during (.halt failure) →
    .die d ∈ failure.leaves → ∃ x, ToldDuring s record fiber during x ∧ x.HasDefect d

/-- **No internal defect comes up by itself in any run.**  Under every schedule, with every budget and
whichever fibers are interrupted, a fiber ends with such a defect only if the program has given it the
defect, nobody is told and nothing is kept of a fiber that has not ended with it, and no nursery fails
with it but for the exit of a child. -/
theorem Run.hands_on_internal_defects (h : Run budget (init minted) record s) {d : Defect}
    (hd : d.IsInternal) : HandedOn s record d where
  ended hended hdefect := by
    rcases h.origin hended hdefect with hgiven | hreplaces
    · exact hgiven
    · exact absurd hd hreplaces.not_isInternal
  told hlearns hdefect := hd.resolve (h.defect_of_learns hlearns hdefect)
  kept hexit hdefect := hd.resolve (h.defect_of_exit? hexit hdefect)
  gathered hdone hleaf := h.die_of_nursery hdone hleaf

/-- A nursery whose only child dies of what a nursery would say if it had lost account. -/
def dyingNursery : Effect ⟨"E"⟩ :=
  collectAllPar [(die (.runtime "failed child reported success") : Effect ⟨"E"⟩)]

/-- Whether an outcome records a defect. -/
def hasDefect (d : Defect) : Outcome → Bool
  | .done _ => false
  | .halt h => h.leaves.any fun
    | .die d' => d' = d
    | _ => false

theorem exists_halt_of_hasDefect {d : Defect} {o : Outcome} (h : hasDefect d o = true) :
    ∃ failure, o = .halt failure ∧ .die d ∈ failure.leaves := by
  cases o with
  | done v => cases h
  | halt failure =>
    obtain ⟨leaf, hmem, hleaf⟩ := List.any_eq_true.mp h
    cases leaf with
    | die d' =>
      obtain rfl := of_decide_eq_true hleaf
      exact ⟨failure, rfl, hmem⟩
    | fail _ | interrupt _ => cases hleaf

/-- The nursery fails with what the program has given to its child. -/
theorem Run.hands_on_internal_defects_dyingNursery :
    (Defect.runtime "failed child reported success").IsInternal ∧
      ∃ during failure c o,
        Evaluated (afterBegun dyingNursery 60) (recordBegun dyingNursery 60) ⟨1⟩
          (.start .unit true) dyingNursery during (.halt failure) ∧
        .die (.runtime "failed child reported success") ∈ failure.leaves ∧
        Ended (recordBegun dyingNursery 60) c o ∧
        o.HasDefect (.runtime "failed child reported success") ∧
        BroughtIn (recordBegun dyingNursery 60) c (.runtime "failed child reported success") := by
  obtain ⟨during, o, hdone, hdies, -⟩ :=
    exists_evaluated (hasDefect (.runtime "failed child reported success")) ⟨_, rfl⟩
      (by decide +kernel) (by decide +kernel)
      (by decide +kernel : (recordBegun dyingNursery 60).any _ = true)
  obtain ⟨failure, rfl, hleaf⟩ := exists_halt_of_hasDefect hdies
  have hhanded := Run.hands_on_internal_defects (run_begun dyingNursery 60) .reportedSuccess
  obtain ⟨x, ⟨c, type, n, w, run, -, -, hlearns⟩, hx⟩ := hhanded.gathered hdone hleaf
  obtain ⟨o, hended, ho⟩ := hhanded.told hlearns hx
  exact ⟨.reportedSuccess, during, failure, c, o, hdone, hleaf, hended, ho,
    hhanded.ended hended ho⟩

end Workshop

end Fibers
