import Fibers.Proofs.Confiding
import Fibers.Proofs.Lasting

/-!
# Who has ended first

A fiber that waits for the first one of several is told of one of them.  If one of them ends while
it waits, it is told of that one, so nobody has ended before.  If some of them have ended by the time
at which it begins to wait, it is told of the first one of these in the order in which it asks them,
whichever of them has ended first.  So what it is told is in the order of the ends unless it passes
over one of them: somebody whom it asks earlier has ended when it begins to wait, though later.

## Main definitions

* `Registration.Ends` — how a fiber has to end in order to decide a wait.
* `Workshop.HasEnded`, `Workshop.Precedes`, `Workshop.IsFirst` — the order in which fibers end.
* `Workshop.Unpassed` — nobody has been passed over.

## Main results

* `Workshop.Hears.eq_of_active` — a wait is answered once.
* `Workshop.Run.decides_iff` — who has decided a wait when it begins.
* `Workshop.Run.ended_of_hears` — who is told to have decided a wait has ended so.
* `Workshop.Run.not_parked`, `Workshop.Run.not_parked_for_exit` — nobody stays parked for a wait
  that somebody has decided, or for the exit of a child that has ended.
* `Workshop.Run.elects` — **who waits for the first one of several is told of the one that has ended
  first, unless it has been passed over.**
-/

namespace Fibers

/-- How a fiber has to end in order to decide a wait: in any way if the first one to finish is
waited for, and with a failure if the first one to fail is. -/
def Registration.Ends : Registration → Outcome → Prop
  | .firstDone _ _, _ => True
  | .firstFailure _, o => ∃ h, o = .halt h
  | .callback _, _ | .sleep _, _ | .awaitExit _ _, _ | .offer _ _, _ | .take _, _
  | .awaitClose _, _ => False

theorem Registration.isFor_of_mem {registration : Registration} {c : FiberId}
    (hc : c ∈ registration.candidates) : registration.isFor c = true := by
  cases registration with
  | firstDone left right => rcases List.mem_pair.mp hc with rfl | rfl <;> simp [isFor]
  | firstFailure children => simpa [isFor, candidates] using hc
  | callback _ | sleep _ | awaitExit _ _ | offer _ _ | take _ | awaitClose _ => cases hc

/-- A fiber that does not have to wait goes on. -/
theorem World.after_of_park {w : World} {fiber : FiberId} {run : RunState}
    {registration : Registration} {step : Step}
    (h : (w.park fiber run registration).1 = some step) :
    w.after fiber (.wait run registration) = .active run step := by
  simp only [after, carryOut]
  generalize w.park fiber run registration = parked at h
  obtain ⟨next, w'⟩ := parked
  obtain rfl : next = some step := h
  rfl

namespace Workshop

variable {budget minted : Nat} {s middle : Workshop} {record before after : List (FiberId × Event)}
  {fiber c c' : FiberId} {registration : Registration} {ends : Outcome → Prop} {daemon : Bool}

/-! ### The order of the ends -/

/-- A fiber has ended in the course of a record, in one of some ways. -/
def HasEnded (record : List (FiberId × Event)) (ends : Outcome → Prop) (c : FiberId) : Prop :=
  ∃ o, Ended record c o ∧ ends o

/-- At some time one fiber has ended so, and another one has not. -/
def Precedes (record : List (FiberId × Event)) (ends : Outcome → Prop) (c c' : FiberId) : Prop :=
  ∃ before, before <+: record ∧ HasEnded before ends c ∧ ¬ HasEnded before ends c'

/-- Of several fibers the one at a position is the first one to end so. -/
structure IsFirst (record : List (FiberId × Event)) (ends : Outcome → Prop)
    (candidates : List FiberId) (i : Nat) (c : FiberId) : Prop where
  position : candidates[i]? = some c
  ended : HasEnded record ends c
  precedes : ∀ {j c'}, candidates[j]? = some c' → j ≠ i → Precedes record ends c c'

/-- Nobody has been passed over for the one at a position: when the fiber has begun to wait, none
before that position had ended so. -/
def Unpassed (record : List (FiberId × Event)) (fiber : FiberId) (registration : Registration)
    (i : Nat) : Prop :=
  ∀ before w run after,
    record = before ++ (fiber, .iterated w run (.eval (.wait registration))) :: after →
      ∀ j < i, ∀ c, registration.candidates[j]? = some c → ¬ HasEnded before registration.Ends c

theorem Ended.append {o : Outcome} (h : Ended before c o) (after : List (FiberId × Event)) :
    Ended (before ++ after) c o := by
  obtain ⟨w, run, step, hmem, hplan⟩ := h
  exact ⟨w, run, step, List.mem_append_left _ hmem, hplan⟩

theorem HasEnded.append (h : HasEnded before ends c) (after : List (FiberId × Event)) :
    HasEnded (before ++ after) ends c := by
  obtain ⟨o, hended, ho⟩ := h
  exact ⟨o, hended.append after, ho⟩

theorem Precedes.ended (h : Precedes record ends c c') : HasEnded record ends c := by
  obtain ⟨before, ⟨after, rfl⟩, hended, -⟩ := h
  exact hended.append after

theorem isFirst_left (h : Precedes record ends c c') : IsFirst record ends [c, c'] 0 c where
  position := rfl
  ended := h.ended
  precedes {j c''} hj hne := by
    match j, hj with
    | 0, _ => exact absurd rfl hne
    | 1, hj => exact Option.some.inj hj ▸ h

theorem isFirst_right (h : Precedes record ends c' c) : IsFirst record ends [c, c'] 1 c' where
  position := rfl
  ended := h.ended
  precedes {j c''} hj hne := by
    match j, hj with
    | 0, hj => exact Option.some.inj hj ▸ h
    | 1, _ => exact absurd rfl hne

/-- Nobody is asked before the first one. -/
theorem unpassed_zero (record : List (FiberId × Event)) (fiber : FiberId)
    (registration : Registration) : Unpassed record fiber registration 0 :=
  fun _ _ _ _ _ j hj => absurd hj (Nat.not_lt_zero j)

/-- **A run can be cut where a fiber has ended.** -/
theorem Run.cut_ended {s' : Workshop} (h : Run budget s record s') (hinitial : before <+: record)
    (hended : HasEnded before ends c) : ∃ first rest middle, record = first ++ rest ∧
      first <+: before ∧ HasEnded first ends c ∧ Run budget s first middle ∧
        Run budget middle rest s' := by
  obtain ⟨o, ⟨w, run, step, hmem, hplan⟩, ho⟩ := hended
  obtain ⟨after, rfl⟩ := hinitial
  obtain ⟨early, late, rfl⟩ := List.append_of_mem hmem
  rw [List.append_assoc, List.cons_append] at h
  obtain ⟨middle, hfirst, hrest⟩ := h.cut
  refine ⟨early ++ [(c, .iterated w run step)], late ++ after, middle, by simp, ⟨late, by simp⟩, ?_,
    hfirst, hrest⟩
  exact ⟨o, ⟨w, run, step, List.mem_append_right _ (List.mem_singleton_self _), hplan⟩, ho⟩

/-! ### What is heard -/

/-- **A wait is answered once**: a fiber that goes on from it with a step has heard that. -/
theorem Hears.eq_of_active {n : Nat} {run : RunState} {o : Outcome} {step : Step} {es : List Event}
    {a : Standing} (h : Hears s record fiber n run o) (hlife : Life fiber (.active run step) es a)
    (hes : es.filter Event.isDoing = (eventsOf fiber record).drop (n + 1))
    (hstands : s.Stands fiber a) : step = .ofOutcome o := by
  cases h with
  | goesOn hnext =>
    obtain ⟨hlt, hget⟩ := List.getElem?_eq_some_iff.mp hnext
    rw [← List.getElem_cons_drop hlt, hget] at hes
    cases hlife with
    | rest => cases hes
    | go _ hgoes _ =>
      cases hgoes with
      | stopped _ _ => cases (List.cons.inj hes).1
      | iterated _ => exact (Event.iterated.inj (List.cons.inj hes).1).2.2
  | ready hlength hready =>
    rw [hlength, List.drop_length] at hes
    cases hlife with
    | rest =>
      have htokens := hstands.tokens.symm.trans hready.tokens
      exact (Standing.active.inj (List.cons.inj htokens).1).2
    | go _ hgoes _ => cases hgoes <;> cases hes

/-- A fiber that has been answered later has been answered by some time, or was parked then. -/
theorem Hears.by_then {n : Nat} {run : RunState} {o : Outcome} {w : World}
    (h : Hears s (before ++ after) fiber n run o) (hfirst : Run budget (init minted) before middle)
    (hlater : Run budget middle after s)
    (hwait : (eventsOf fiber before)[n]? = some (.iterated w run (.eval (.wait registration)))) :
    Hears middle before fiber n run o ∨
      n + 1 = (eventsOf fiber before).length ∧ middle.Stands fiber (.waiting run) := by
  have hn := (List.getElem?_eq_some_iff.mp hwait).1
  rcases Nat.lt_or_eq_of_le (Nat.succ_le_of_lt hn) with hlt | hlength
  · cases h with
    | goesOn hnext =>
      rw [eventsOf_append, List.getElem?_append_left hlt] at hnext
      exact Or.inl (.goesOn hnext)
    | ready hlength hready =>
      rw [eventsOf_append, List.length_append] at hlength
      omega
  · obtain ⟨es, a, hhistory⟩ := hfirst.history fiber
    rcases hhistory.standing_of_wait hwait hlength with ⟨step, rfl⟩ | rfl
    · obtain ⟨es', b, hb, hlife, hes'⟩ :=
        hlater.extends_history (hfirst.valid (valid_init minted)) hhistory.stands
      have hdrop : es'.filter Event.isDoing =
          (eventsOf fiber (before ++ after)).drop (n + 1) := by
        rw [eventsOf_append, hes', List.drop_append_of_le_length (Nat.le_of_eq hlength), hlength,
          List.drop_length, List.nil_append]
      obtain rfl := h.eq_of_active hlife hdrop hb
      exact Or.inl (.ready hlength hhistory.stands)
    · exact Or.inr ⟨hlength, hhistory.stands⟩

/-! ### Who has ended -/

/-- A ledger knows an end exactly when its fiber has finished. -/
theorem Books.ended_iff {l : Ledger} (h : Books l record s) :
    (∃ o, Ended record l.fiber o) ↔ s.world.store.isFinished l.fiber = true := by
  have hresult : ∀ o, Ended record l.fiber o ↔ l.result = some o := fun o => (h.result o).symm
  simp only [hresult]
  cases h.holds.shelf with
  | going hresult hgoing _ _ => simp [hresult, hgoing]
  | kept hresult hdone _ _ _ | taken hresult hdone _ _ _ _ _ => simp [hresult, hdone]

/-- **Who has decided a wait has ended so**, as long as nobody has been given its exit. -/
theorem Books.decides_iff {l : Ledger} (h : Books l record s)
    (hc : l.fiber ∈ registration.candidates)
    (hnil : ∀ children, registration = .firstFailure children → l.given = []) :
    s.world.Decides l.fiber registration ↔ HasEnded record registration.Ends l.fiber := by
  cases registration with
  | firstDone _ _ =>
    refine h.ended_iff.symm.trans ⟨?_, ?_⟩
    · rintro ⟨o, ho⟩
      exact ⟨o, ho, trivial⟩
    · rintro ⟨o, ho, -⟩
      exact ⟨o, ho⟩
  | firstFailure children =>
    have hnil := hnil children rfl
    constructor
    · rintro ⟨hdone, hfailed⟩
      obtain ⟨g, hg⟩ := h.holds.shelf.failed hdone hfailed hnil
      exact ⟨_, (h.result _).mp hg, g, rfl⟩
    · rintro ⟨o, ho, g, rfl⟩
      have hdone := h.ended_iff.mp ⟨_, ho⟩
      refine ⟨hdone, ?_⟩
      by_contra hfailed
      obtain ⟨v, hv⟩ := h.holds.shelf.succeeded hdone (Bool.eq_false_iff.mpr hfailed) hnil
      cases hv.symm.trans ((h.result _).mpr ho)
  | callback _ | sleep _ | awaitExit _ _ | offer _ _ | take _ | awaitClose _ => cases hc

/-- Nobody else waits for those whose failure decides a wait. -/
def Trusts (s : Workshop) (record : List (FiberId × Event)) (fiber : FiberId)
    (registration : Registration) : Prop :=
  ∀ children, registration = .firstFailure children → ∀ c ∈ children, ∃ type,
    Confides s record fiber c registration type

/-- Who alone waits for another one has done so from the beginning. -/
theorem Confides.initial {first : Registration} {type : ErrorType}
    (h : Confides s (before ++ after) fiber c first type)
    (hfirst : Run budget (init minted) before middle) (hlater : Run budget middle after s) :
    Confides middle before fiber c first type where
  own := by
    refine List.IsPrefix.trans ?_ h.own
    rw [eventsOf_append, waitsFor_append]
    exact List.prefix_append _ _
  nobody f hne := by
    have hnone := h.nobody f hne
    rw [eventsOf_append, waitsFor_append] at hnone
    exact (List.append_eq_nil_iff.mp hnone).1
  unreported x hx := by
    obtain ⟨l, rfl, hbooks⟩ := hfirst.books c
    obtain ⟨l', hfiber, hgiven, hbooks'⟩ := hlater.extends_books (hfirst.valid (valid_init minted))
      ((hfirst.exists_chronicle (valid_init minted) (World.orderly_init minted)).orderly
        (World.orderly_init minted)) hbooks
    have hmem : x ∈ l.given.filterMap fun e => if e.1 = none then some e.2 else none := by
      rw [← hbooks.holds.reports]
      exact List.mem_filterMap.mpr ⟨_, hx, if_pos rfl⟩
    obtain ⟨⟨who, y⟩, hy, heq⟩ := List.mem_filterMap.mp hmem
    split at heq
    · next hnone =>
      obtain rfl : who = none := hnone
      have hunreported := h.unreported
      rw [← hfiber] at hunreported
      exact hbooks'.given_of_unreported hunreported y (hgiven.subset hy)
    · cases heq
  among := h.among

/-- A run has come to the world in which a fiber iterates, with everything that had been done. -/
theorem Run.before_iteration {w : World} {run : RunState} {step : Step}
    (h : Run budget (init minted) (before ++ (fiber, .iterated w run step) :: after) s) :
    ∃ first rest middle, before ++ (fiber, .iterated w run step) :: after = first ++ rest ∧
      middle.world = w ∧ Run budget (init minted) first middle ∧ Run budget middle rest s ∧
        first <+: before ∧ ∀ {f e}, (f, e) ∈ before → (f, e) ∈ first ∨ ∃ w, e = .stopped w := by
  obtain ⟨s₁, s₂, first, stops, rfl, hfirst, hmove, hlater⟩ := h.at_iteration
  obtain ⟨hworld, -, -, hstops⟩ := hmove.world_of_iterated (hfirst.valid (valid_init minted))
  refine ⟨first, (stops ++ [(fiber, .iterated w run step)]) ++ after, s₁, by simp, hworld, hfirst,
    .move hmove hlater, List.prefix_append _ _, fun hmem => ?_⟩
  exact (List.mem_append.mp hmem).imp_right fun hstop => ⟨w, (hstops hstop).2⟩

/-- **Who has decided a wait when it begins** has ended so before. -/
theorem Run.decides_iff {w : World} {run : RunState}
    (h : Run budget (init minted)
      (before ++ (fiber, .iterated w run (.eval (.wait registration))) :: after) s)
    (htrusts : Trusts s (before ++ (fiber, .iterated w run (.eval (.wait registration))) :: after)
      fiber registration) (hc : c ∈ registration.candidates) :
    w.Decides c registration ↔ HasEnded before registration.Ends c := by
  obtain ⟨first, rest, middle, hrecord, rfl, hfirst, hlater, hinitial, hmem⟩ := h.before_iteration
  have hwait : (eventsOf fiber (before ++ (fiber, .iterated middle.world run
      (.eval (.wait registration))) :: after))[(eventsOf fiber before).length]? =
        some (.iterated middle.world run (.eval (.wait registration))) := by
    rw [eventsOf_append, List.getElem?_append_right (Nat.le_refl _), Nat.sub_self,
      ← List.singleton_append, eventsOf_append, eventsOf_self]
    rfl
  obtain ⟨l, rfl, hbooks⟩ := hfirst.books c
  refine (hbooks.decides_iff hc ?_).trans ⟨fun hended => ?_, ?_⟩
  · rintro children rfl
    obtain ⟨type, hconfides⟩ := htrusts children rfl _ hc
    refine hbooks.given_of_confides hfirst hlater (hrecord ▸ hconfides) fun type' m w' run' ha => ?_
    -- the exit is waited for later
    have hm := (List.getElem?_eq_some_iff.mp ha).1
    have hlt := hconfides.lt_of_awaits hwait (Registration.isFor_of_mem hc)
      (hrecord ▸ getElem?_eventsOf_append ha rest : Awaits _ l.fiber type' fiber m w' run')
    obtain ⟨stops, rfl⟩ := hinitial
    rw [eventsOf_append, List.length_append] at hlt
    omega
  · obtain ⟨stops, rfl⟩ := hinitial
    exact hended.append stops
  · rintro ⟨o, ⟨w', run', step, hended, hplan⟩, ho⟩
    rcases hmem hended with hearly | ⟨w'', heq⟩
    · exact ⟨o, ⟨w', run', step, hearly, hplan⟩, ho⟩
    · cases heq

/-- What a wait is told is so. -/
theorem Run.answered_of_hears (h : Run budget (init minted) record s) {n : Nat} {w : World}
    {run : RunState} {v : Value}
    (hwait : (eventsOf fiber record)[n]? = some (.iterated w run (.eval (.wait registration))))
    (hhears : Hears s record fiber n run (.done v)) :
    registration.Answered s.world.store (.done v) := by
  obtain ⟨l, -, hbooks⟩ := h.books fiber
  cases hhears with
  | ready hlength hstands =>
    exact ((hbooks.standing (hbooks.last_of_length hwait rfl hlength) hstands).1 _ _
      rfl).told_of_value.answered
  | goesOn hnext =>
    cases hbooks.after_wait hwait rfl hnext with
    | iterated hgo =>
      exact hgo.told_of_value.answered.mono
        (hbooks.earlier (mem_eventsOf.mp (List.mem_of_getElem? hnext)) rfl).remembers.finished

/-- **Who is told to have decided a wait has ended so.** -/
theorem Run.ended_of_hears (h : Run budget (init minted) record s)
    (htrusts : Trusts s record fiber registration) {n k : Nat} {w : World} {run : RunState}
    (hk : registration.candidates[k]? = some c)
    (hwait : (eventsOf fiber record)[n]? = some (.iterated w run (.eval (.wait registration))))
    (hhears : Hears s record fiber n run (.done (registration.verdict k))) :
    HasEnded record registration.Ends c := by
  cases registration with
  | firstDone left right =>
    obtain ⟨b, heq, hfinished⟩ := h.answered_of_hears hwait hhears
    have hb : b = decide (k = 0) := (Value.bool.inj (Exit.done.inj heq)).symm
    have hwho : (if b then left else right) = c := by
      rw [hb]
      match k, hk with
      | 0, hk => exact Option.some.inj hk
      | 1, hk => exact Option.some.inj hk
    obtain ⟨l, rfl, hbooks⟩ := h.books c
    obtain ⟨o, ho⟩ := hbooks.ended_iff.mpr (hwho ▸ hfinished)
    exact ⟨o, ho, trivial⟩
  | firstFailure children =>
    have hc : c ∈ children := List.mem_of_getElem? hk
    obtain ⟨type, hconfides⟩ := htrusts children rfl c hc
    obtain ⟨g, hg⟩ := h.failed_of_confides hk hconfides hwait hhears
    exact ⟨_, hg, g, rfl⟩
  | callback _ | sleep _ | awaitExit _ _ | offer _ _ | take _ | awaitClose _ => cases hk

/-- Whom a fiber has started is there when it does what it has done last. -/
theorem Run.born_of_forked {w : World} {run : RunState} {step : Step} {n : Nat}
    (h : Run budget (init minted) record s)
    (hlast : (eventsOf fiber record)[n]? = some (.iterated w run step))
    (hlength : n + 1 = (eventsOf fiber record).length) (hforked : Forked record daemon fiber c)
    (hother : (Event.iterated w run step).starts? = none) : (w.store.fiber? c).isSome := by
  obtain ⟨before, after, rfl, hbefore⟩ := exists_record_of_doing hlast
  obtain ⟨e, hmem, hstarts⟩ := hforked
  obtain ⟨first, rest, middle, -, rfl, hfirst, -, -, hearly⟩ := h.before_iteration
  -- it has been started before that
  have hnone : eventsOf fiber after = [] := by
    have hbound := (List.getElem?_eq_some_iff.mp hlast).1
    have hn : (eventsOf fiber before).length = n := by
      rw [hbefore, List.length_take, Nat.min_eq_left (Nat.le_of_lt hbound)]
    rw [eventsOf_append, List.length_append, hn, ← List.singleton_append, eventsOf_append,
      eventsOf_self, List.length_append, List.length_singleton] at hlength
    exact List.eq_nil_of_length_eq_zero (by omega)
  have hbefore : (fiber, e) ∈ before := by
    rcases List.mem_append.mp hmem with hmem | hmem
    · exact hmem
    · rcases List.mem_cons.mp hmem with heq | hmem
      · rw [(Prod.mk.inj heq).2, hother] at hstarts
        cases hstarts
      · rw [← mem_eventsOf, hnone] at hmem
        cases hmem
  rcases hearly hbefore with hmem | ⟨w', rfl⟩
  · exact hfirst.supervised.born ⟨e, hmem, hstarts⟩
  · cases hstarts

/-- Who stays parked for somebody who has ended waits for a failure, and that one has succeeded. -/
theorem Run.waives_of_parked {l : Ledger} {w : World} {run : RunState} {n : Nat} {o : Observer}
    {outcome : Outcome} (h : Run budget (init minted) record s) (hbooks : Books l record s)
    (hforked : Forked record daemon fiber l.fiber) (hended : Ended record l.fiber outcome)
    (ho : o ∈ registration.observers ⟨w.suspensions.next⟩ l.fiber)
    (hwait : (eventsOf fiber record)[n]? = some (.iterated w run (.eval (.wait registration))))
    (hlength : n + 1 = (eventsOf fiber record).length) (hstands : s.Stands fiber (.waiting run)) :
    l.Waives o := by
  obtain ⟨p, onInterrupt, hp, hstate, hregistration⟩ :=
    (hbooks.standing (hbooks.last_of_length hwait rfl hlength) hstands).2 _ rfl
  have hasked : o ∈ p.registration.observers ⟨w.suspensions.next⟩ l.fiber := by rwa [hregistration]
  rcases hbooks.holds.attends hp hstate hasked with hpending | ⟨r, hr, hgoing, -⟩ | hwaives
  · -- it was there when it was asked
    obtain ⟨fiber', w', run', registration', hmem, ho', hnone⟩ := hbooks.pending _ hpending
    obtain ⟨n', hn', hget⟩ := List.getElem_of_mem (mem_eventsOf.mpr hmem)
    have hwait' := List.getElem?_eq_some_iff.mpr ⟨hn', hget⟩
    obtain ⟨rfl, rfl⟩ :=
      hbooks.eq_of_place hwait rfl hwait' rfl (Registration.place_eq_of_mem ho ho')
    obtain ⟨rfl, -⟩ := Event.iterated.inj (Option.some.inj (hwait.symm.trans hwait'))
    have hborn := h.born_of_forked hwait hlength hforked rfl
    rw [hnone] at hborn
    cases hborn
  · have hfinished := hbooks.ended_iff.mp ⟨_, hended⟩
    rw [Store.isFinished, hr, Option.any_some, hgoing] at hfinished
    cases hfinished
  · exact hwaives

/-- **Nobody stays parked for a wait that somebody has decided.** -/
theorem Run.not_parked {w : World} {run : RunState} {n : Nat}
    (h : Run budget (init minted) record s) (htrusts : Trusts s record fiber registration)
    (hc : c ∈ registration.candidates) (hforked : Forked record daemon fiber c)
    (hended : HasEnded record registration.Ends c)
    (hwait : (eventsOf fiber record)[n]? = some (.iterated w run (.eval (.wait registration))))
    (hlength : n + 1 = (eventsOf fiber record).length) : ¬ s.Stands fiber (.waiting run) := by
  intro hstands
  obtain ⟨l, rfl, hbooks⟩ := h.books c
  obtain ⟨o, ho, hkind⟩ := World.exists_observer hc ⟨w.suspensions.next⟩
  obtain ⟨outcome, houtcome, hends⟩ := hended
  obtain ⟨hsucceeded, hwho⟩ :=
    h.waives_of_parked hbooks hforked houtcome ho hwait hlength hstands
  rcases hkind with ⟨t, b, rfl⟩ | ⟨children, rfl⟩
  · obtain ⟨_, _, _, heq⟩ := hwho
    cases heq
  · -- it has failed, and nobody has been given its exit
    obtain ⟨g, rfl⟩ := hends
    obtain ⟨type, hconfides⟩ := htrusts children rfl _ hc
    have hwhole : Confides s (record ++ []) fiber l.fiber (.firstFailure children) type := by
      rwa [List.append_nil]
    obtain ⟨v, hv⟩ := hsucceeded (hbooks.given_of_confides h .rest hwhole
      fun type' m w' run' hawaits => by
        have hm := (List.getElem?_eq_some_iff.mp hawaits).1
        have := hconfides.lt_of_awaits hwait (Registration.isFor_of_mem hc) hawaits
        omega)
    cases hv.symm.trans ((hbooks.result _).mpr houtcome)

/-- **Nobody stays parked for the exit of a child that has ended.** -/
theorem Run.not_parked_for_exit {w : World} {run : RunState} {n : Nat} {type : ErrorType}
    (h : Run budget (init minted) record s) (hforked : Forked record daemon fiber c)
    (hfinished : s.world.store.isFinished c = true)
    (hwait : (eventsOf fiber record)[n]? =
      some (.iterated w run (.eval (.wait (.awaitExit c type)))))
    (hlength : n + 1 = (eventsOf fiber record).length) : ¬ s.Stands fiber (.waiting run) := by
  intro hstands
  obtain ⟨l, rfl, hbooks⟩ := h.books c
  obtain ⟨outcome, houtcome⟩ := hbooks.ended_iff.mpr hfinished
  obtain ⟨-, _, _, _, heq⟩ := h.waives_of_parked hbooks hforked houtcome
    (Registration.mem_observers_awaitExit.mpr ⟨rfl, rfl⟩) hwait hlength hstands
  cases heq

/-! ### Who is told of -/

/-- A child that has ended in the course of a record has been started in it, and not later. -/
theorem Run.forked_of_ended (hfirst : Run budget (init minted) before middle)
    (hlater : Run budget middle after s) (hended : HasEnded before ends c)
    (hforked : Forked (before ++ after) daemon fiber c) : Forked before daemon fiber c := by
  rcases forked_append.mp hforked with hearly | ⟨e, hmem, hstarts⟩
  · exact hearly
  · obtain ⟨w, run, i, rfl, rfl⟩ := Event.of_starts hstarts
    obtain ⟨l, hfiber, hbooks⟩ := hfirst.books w.store.nextFiber
    obtain ⟨o, ho, -⟩ := hended
    have hfinished : middle.world.store.isFinished w.store.nextFiber = true := by
      rw [← hfiber] at ho ⊢
      exact hbooks.ended_iff.mp ⟨o, ho⟩
    obtain ⟨r, hr, -⟩ := (Option.any_eq_true ..).mp hfinished
    have hborn := (hlater.lasts (hfirst.valid (valid_init minted)) (lasting_born _)
      (Option.isSome_iff_exists.mpr ⟨r, hr⟩)).2 hmem rfl
    rw [show w.store.fiber? w.store.nextFiber = none from Numbered.get?_next _] at hborn
    cases hborn

/-- **Who waits for the first one of several is told of the one that has ended first**, unless that
has been passed over. -/
theorem Run.elects {w : World} {run : RunState} {n i k : Nat}
    (h : Run budget (init minted) record s) (htrusts : Trusts s record fiber registration)
    (hisFirst : IsFirst record registration.Ends registration.candidates i c)
    (hunpassed : Unpassed record fiber registration i) (hforked : Forked record daemon fiber c)
    (hk : k < registration.candidates.length)
    (hwait : (eventsOf fiber record)[n]? = some (.iterated w run (.eval (.wait registration))))
    (hhears : Hears s record fiber n run (.done (registration.verdict k))) : k = i := by
  by_contra hne
  have hc := List.mem_of_getElem? hisFirst.position
  obtain ⟨c', hc'⟩ : ∃ c', registration.candidates[k]? = some c' :=
    ⟨_, List.getElem?_eq_getElem hk⟩
  obtain ⟨early, hearly, hended, hnot⟩ := hisFirst.precedes hc' hne
  obtain ⟨first, rest, middle, rfl, ⟨more, rfl⟩, hended, hfirst, hrest⟩ := h.cut_ended hearly hended
  replace hnot : ¬ HasEnded first registration.Ends c' := fun hended' => hnot (hended'.append more)
  by_cases hthen : n < (eventsOf fiber first).length
  · -- it has begun to wait before the first one has ended
    rw [eventsOf_append, List.getElem?_append_left hthen] at hwait
    have htrusts' : Trusts middle first fiber registration := fun children heq c hc => by
      obtain ⟨type, hconfides⟩ := htrusts children heq c hc
      exact ⟨type, hconfides.initial hfirst hrest⟩
    rcases hhears.by_then hfirst hrest hwait with hhears' | ⟨hlength, hparked⟩
    · exact hnot (hfirst.ended_of_hears htrusts' hc' hwait hhears')
    · exact hfirst.not_parked htrusts' hc (hfirst.forked_of_ended hrest hended hforked) hended hwait
        hlength hparked
  · -- the first one has ended before it has begun to wait
    have hlater := hwait
    rw [eventsOf_append, List.getElem?_append_right (Nat.le_of_not_lt hthen)] at hlater
    obtain ⟨between, after, rfl, -⟩ := exists_record_of_doing hlater
    rw [← List.append_assoc] at *
    have hdecides := (h.decides_iff htrusts hc).mpr (hended.append between)
    obtain ⟨es, a, hhistory⟩ := h.history fiber
    obtain ⟨es', hlife, hes'⟩ := hhistory.of_iterated hwait
    cases hpark : (w.park fiber run registration).1 with
    | none => exact World.not_decides_of_park hc hpark hdecides
    | some step =>
      change Life fiber (w.after fiber (.wait run registration)) es' a at hlife
      rw [World.after_of_park hpark] at hlife
      obtain rfl := hhears.eq_of_active hlife hes' hhistory.stands
      obtain ⟨⟨c'', hc'', hdecides'⟩, hbefore⟩ := World.first_of_park hk hpark
      obtain rfl := Option.some.inj (hc'.symm.trans hc'')
      rcases Nat.lt_or_gt_of_ne hne with hlt | hlt
      · exact hunpassed _ _ _ _ rfl k hlt c' hc'
          ((h.decides_iff htrusts (List.mem_of_getElem? hc')).mp hdecides')
      · exact hbefore i hlt c hisFirst.position hdecides

end Workshop

end Fibers
