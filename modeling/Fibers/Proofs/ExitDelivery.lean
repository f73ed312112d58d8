import Fibers.Proofs.Observers

/-!
# The delivery of exits

The exit of a fiber is there for one taker.  Among those who wait for the fiber, and the one who has
started it, one at most learns how it has ended; whoever goes on later finds the defect that says
that the exit has been observed before.  As long as nobody has been given the exit it stays on the
shelf, whatever becomes of those who wait: who is interrupted while it is parked takes nothing with
it.

A waiter that has been given the exit, and is interrupted before it runs, drops it.  That exit is
lost: nobody has learnt it, and nobody will.

## Main definitions

* `Observation` — who is to learn how a fiber ends.
* `Workshop.Learns`, `Workshop.Drops` — somebody has got an exit, or drops it.
* `Workshop.Seen` — the end of a fiber, as it is seen by those who ask for it.
* `Workshop.DeliversOnce`, `Workshop.Keeps` — what becomes of an exit.

## Main results

* `Workshop.Run.delivers_exit_once` — **an exit is delivered at most once.**
* `Workshop.Run.keeps_exit` — **an exit that nobody drops is kept for the next one who asks.**
* `Workshop.Run.not_every_exit_kept` — an exit that is dropped is lost.
-/

namespace Fibers

/-- Whoever is to learn how a fiber ends: a fiber that begins to wait for it, with the number of
this doing in its record, or the one who has started it, with the number of the report. -/
inductive Observation where
  | waiter (fiber : FiberId) (n : Nat)
  | starter (n : Nat)

namespace Workshop

section Definitions

variable (s : Workshop) (record : List (FiberId × Event)) (f : FiberId)

/-- A fiber begins to wait for another one with its `n`th doing. -/
def Awaits (type : ErrorType) (fiber : FiberId) (n : Nat) (w : World) (run : RunState) : Prop :=
  (eventsOf fiber record)[n]? = some (.iterated w run (.eval (.wait (.awaitExit f type))))

/-- A fiber ends in the course of a record. -/
def Ended (o : Outcome) : Prop :=
  ∃ w run step, (f, .iterated w run step) ∈ record ∧
    Step.plan (w.pending f) f run step = .finish o

/-- The end of a fiber as it is seen at a type of failures, after some of those who wait for it may
have seen it at theirs. -/
def Seen (o : Outcome) (type : ErrorType) (x : Exit Value Value) : Prop :=
  ∃ types : List ErrorType, (∀ t ∈ types, ∃ fiber n w run, Awaits record f t fiber n w run) ∧
    x = (o.passed types).untag type

/-- Somebody has got an exit: it goes on with it, or is about to. -/
inductive Learns : Observation → Exit Value Value → Prop where
  | goesOn {type : ErrorType} {fiber : FiberId} {n : Nat} {w w' : World} {run : RunState}
      {x : Exit Value Value} : Awaits record f type fiber n w run →
      (eventsOf fiber record)[n + 1]? = some (.iterated w' run (.value (.exit x))) →
      Learns (.waiter fiber n) x
  | ready {type : ErrorType} {fiber : FiberId} {n : Nat} {w : World} {run : RunState}
      {x : Exit Value Value} : Awaits record f type fiber n w run →
      n + 1 = (eventsOf fiber record).length →
      s.Stands fiber (.active run (.value (.exit x))) → Learns (.waiter fiber n) x
  | reported {n : Nat} {x : Exit Value Value} : s.world.store.reports[n]? = some (f, x) →
      Learns (.starter n) x

/-- A waiter drops the exit that it has got, for a cancellation that it finds before it runs. -/
def Drops : Observation → Prop
  | .waiter fiber n => ∃ type w run w', Awaits record f type fiber n w run ∧
      (eventsOf fiber record)[n + 1]? = some (.stopped w')
  | .starter _ => False

/-- The type of failures at which somebody asks for the end of a fiber. -/
def AsksAt (type : ErrorType) : Observation → Prop
  | .waiter fiber n => ∃ w run, Awaits record f type fiber n w run
  | .starter _ => True

/-- Somebody has got the exit with which a fiber has ended. -/
def LearnsEnd (o : Outcome) (a : Observation) : Prop :=
  ∃ type x, AsksAt record f type a ∧ Seen record f o type x ∧ Learns s record f a x

/-- How a fiber goes on that has waited for another one. -/
inductive AfterWait (run : RunState) : Event → Prop where
  /-- With an exit. -/
  | exit {w : World} {x : Exit Value Value} : w.store.isFinished f = true →
      AfterWait run (.iterated w run (.value (.exit x)))
  /-- It has got an exit, and drops it. -/
  | dropped {w : World} : w.store.isFinished f = true → AfterWait run (.stopped w)
  /-- With the cancellation that has ended its wait. -/
  | cancelled {w : World} (source : FiberId) : run.interruptible = true →
      AfterWait run (.iterated w run (.interrupt source))

end Definitions

/-- A waiter that has got an exit has waited for it. -/
theorem Learns.awaits {s : Workshop} {record : List (FiberId × Event)} {f fiber : FiberId} {n : Nat}
    {x : Exit Value Value} (h : Learns s record f (.waiter fiber n) x) :
    ∃ type w run, Awaits record f type fiber n w run := by
  cases h with
  | goesOn hawaits _ | ready hawaits _ _ => exact ⟨_, _, _, hawaits⟩

/-- Where all ask at one type, the end of a fiber is seen as it is. -/
theorem Seen.eq_untag {record : List (FiberId × Event)} {f : FiberId} {o : Outcome}
    {type : ErrorType} {x : Exit Value Value} (h : Seen record f o type x)
    (hone : ∀ {t fiber n w run}, Awaits record f t fiber n w run → t = type) :
    x = o.untag type := by
  obtain ⟨types, htypes, rfl⟩ := h
  refine Exit.untag_passed (fun t ht => ?_) o
  obtain ⟨fiber, n, w, run, hawaits⟩ := htypes t ht
  exact hone hawaits

end Workshop

/-! ### What is given, and what is learnt -/

/-- The first of those elements of a list that stand for something. -/
theorem exists_first_of_filterMap {α β : Type} {f : α → Option β} {as : List α} {b : β}
    {rest : List β} (h : as.filterMap f = b :: rest) :
    ∃ n a, as[n]? = some a ∧ f a = some b ∧
      ∀ {n' : Nat} {a' b'}, as[n']? = some a' → f a' = some b' → n' = n ∨ b' ∈ rest := by
  obtain ⟨before, a, after, rfl, hbefore, ha, rfl⟩ := List.filterMap_eq_cons_iff.mp h
  refine ⟨before.length, a, by simp, ha, fun {n' a' b'} ha' hb' => ?_⟩
  rcases Nat.lt_trichotomy n' before.length with hlt | heq | hlt
  · rw [List.getElem?_append_left hlt] at ha'
    rw [hbefore a' (List.mem_of_getElem? ha')] at hb'
    cases hb'
  · exact Or.inl heq
  · rw [List.getElem?_append_right (Nat.le_of_lt hlt)] at ha'
    obtain ⟨k, hk⟩ := Nat.exists_eq_add_of_lt (Nat.sub_pos_of_lt hlt)
    rw [hk, Nat.zero_add, List.getElem?_cons_succ] at ha'
    exact Or.inr (List.mem_filterMap.mpr ⟨a', List.mem_of_getElem? ha', hb'⟩)

namespace Ledger

variable {l : Ledger} {w : World} {wait : Wait} {type : ErrorType} {x : Exit Value Value}

/-- A place is given one exit only. -/
theorem Places.eq_of_given (h : l.Places w) {t : SuspensionId} {y : Exit Value Value}
    (hx : (some t, x) ∈ l.given) (hy : (some t, y) ∈ l.given) : x = y := by
  have hone := h.once
  rw [List.Nodup, List.pairwise_filterMap] at hone
  by_contra hne
  have hdistinct := List.Pairwise.forall_of_forall_of_flip (R := fun a b =>
    a = b ∨ ∀ t, a.1 = some t → ∀ t', b.1 = some t' → t ≠ t') (l := l.given) (fun a _ => Or.inl rfl)
    (hone.imp fun hab => Or.inr hab) (hone.imp fun hab => Or.inr fun t ht t' ht' heq =>
      hab t' ht' t ht heq.symm) hx hy
  rcases hdistinct with heq | hdistinct
  · exact hne (congrArg Prod.snd heq)
  · exact hdistinct t rfl t rfl rfl

/-- Whoever goes on with an exit has been given it. -/
theorem GoesOn.given_of_exit {run : RunState} (h : l.GoesOn w wait run (.value (.exit x)))
    (hwait : wait.registration = .awaitExit l.fiber type) : (some wait.place, x) ∈ l.given := by
  generalize hstep : Step.value (.exit x) = step at h
  cases h with
  | @told o htold =>
    cases o with
    | done v =>
      obtain rfl := Step.value.inj hstep
      exact htold.2 type x hwait rfl
    | halt failure => cases hstep
  | interrupted source _ _ => cases hstep

/-- Whoever has been given an exit goes on with it. -/
theorem GoesOn.eq_of_given {run : RunState} {step : Step} (h : l.GoesOn w wait run step)
    (hw : ∀ {y}, (some wait.place, y) ∈ l.given → y = x)
    (hwait : wait.registration = .awaitExit l.fiber type)
    (hgiven : (some wait.place, x) ∈ l.given) :
    run = wait.run ∧ step = .value (.exit x) := by
  cases h with
  | told htold =>
    have hanswered := htold.1
    rw [hwait] at hanswered
    obtain ⟨-, y, rfl⟩ := hanswered
    rw [hw (htold.2 type y hwait rfl)]
    exact ⟨rfl, rfl⟩
  | interrupted source _ hlost => exact absurd hgiven (hlost.2 x)

end Ledger

namespace World

variable {w : World} {f : FiberId} {o : Outcome}

/-- Whoever begins to wait for a fiber that has finished goes on at once with the exit that is
there. -/
theorem park_awaitExit (fiber : FiberId) (run : RunState) (type : ErrorType)
    (hdone : w.store.isFinished f = true) (hexit : w.store.exit? f = some o) :
    (w.park fiber run (.awaitExit f type)).1 = some (.value (.exit (o.untag type))) := by
  have hquiet := w.quiet_newSuspension fiber run.interruptible (.awaitExit f type)
  have hplace := suspension?_newSuspension w fiber run.interruptible (.awaitExit f type)
    (w.newSuspension fiber run.interruptible (.awaitExit f type)).1
  rw [if_pos rfl] at hplace
  have hexit' : (w.newSuspension fiber run.interruptible (.awaitExit f type)).2.store.exit? f =
      some o := by
    refine (exit?_modifyFiber _ fiber f _).trans ?_
    split
    · next heq => exact heq ▸ hexit
    · exact hexit
  have hdone' := (hquiet.isFinished f).trans hdone
  simp only [park]
  generalize w.newSuspension fiber run.interruptible (.awaitExit f type) = new at *
  obtain ⟨s, w₁⟩ := new
  have hplace' : (w₁.takeExit f).2.suspension? s =
      some ⟨fiber, run.interruptible, .awaitExit f type, .registering⟩ := by
    rw [suspension?, (w₁.quiet_takeExit f).suspensions]
    exact hplace
  simp only [register, observe, hdone', if_true, notify]
  rw [takeExit_of_some hexit'] at hplace' ⊢
  simp only [resume, hplace']
  simp [suspension?_setSuspension, hplace', Step.ofOutcome]

/-- Whoever asks for the exit of a fiber that has finished gets it at once, unless it must stop. -/
theorem iterate_awaitExit {fiber : FiberId} {run : RunState} (type : ErrorType)
    (hdone : w.store.isFinished f = true) (hexit : w.store.exit? f = some o)
    (hgoes : w.mustStop fiber run = false) :
    (w.iterate fiber run (.eval (.wait (.awaitExit f type)))).1 =
      some (run, .value (.exit (o.untag type))) := by
  have hstays : w.divert fiber run (.eval (.wait (.awaitExit f type))) =
      .eval (.wait (.awaitExit f type)) := by simp [divert, hgoes]
  have hpark := park_awaitExit fiber run type hdone hexit
  simp only [iterate, hstays, evaluate]
  generalize w.park fiber run (.awaitExit f type) = parked at hpark
  obtain ⟨step, w'⟩ := parked
  obtain rfl : step = _ := hpark
  rfl

end World

namespace Workshop

/-! ### The ledger and the record -/

namespace Books

variable {l : Ledger} {record : List (FiberId × Event)} {s : Workshop} {type : ErrorType}
  {fiber : FiberId} {n : Nat} {w : World} {run : RunState}

/-- Whoever has got an exit has been given it at its place. -/
theorem given_of_learns (h : Books l record s) (hawaits : Awaits record l.fiber type fiber n w run)
    {x : Exit Value Value} (hlearns : Learns s record l.fiber (.waiter fiber n) x) :
    (some ⟨w.suspensions.next⟩, x) ∈ l.given := by
  cases hlearns with
  | goesOn _ hnext =>
    cases h.after_wait hawaits rfl hnext with
    | iterated hgo => exact hgo.given_of_exit rfl
  | ready _ hlast hstands =>
    exact ((h.standing (h.last_of_length hawaits rfl hlast) hstands).1 _ _ rfl).given_of_exit rfl

/-- Whoever has been given an exit has asked for it. -/
theorem awaits_of_given (h : Books l record s) {t : SuspensionId} {x : Exit Value Value}
    (hgiven : (some t, x) ∈ l.given) : ∃ type fiber n w run,
      Awaits record l.fiber type fiber n w run ∧ t = ⟨w.suspensions.next⟩ := by
  obtain ⟨-, p, type, hp, hregistration⟩ := h.holds.places.served hgiven
  obtain ⟨fiber, w, run, hmem, heq⟩ := h.asked (h.holds.places.asked hp hregistration)
  obtain ⟨n, hn, heq'⟩ := List.getElem_of_mem (mem_eventsOf.mpr hmem)
  exact ⟨type, fiber, n, w, run, List.getElem?_eq_some_iff.mpr ⟨hn, heq'⟩, heq⟩

/-- Whoever has been given an exit and does not drop it has got it. -/
theorem learns_of_given (h : Books l record s) {es : List Event} {a : Standing}
    (hhistory : History s record fiber es a) (hawaits : Awaits record l.fiber type fiber n w run)
    {x : Exit Value Value} (hgiven : (some ⟨w.suspensions.next⟩, x) ∈ l.given) :
    Drops record l.fiber (.waiter fiber n) ∨ Learns s record l.fiber (.waiter fiber n) x := by
  have hone : ∀ {y}, (some ⟨w.suspensions.next⟩, y) ∈ l.given → y = x := fun hy =>
    h.holds.places.eq_of_given hy hgiven
  cases he : (eventsOf fiber record)[n + 1]? with
  | some e =>
    cases h.after_wait hawaits rfl he with
    | stopped _ => exact Or.inl ⟨type, w, run, _, hawaits, he⟩
    | @iterated v run' step hgo =>
      obtain ⟨rfl, rfl⟩ := hgo.eq_of_given hone rfl hgiven
      exact Or.inr (.goesOn hawaits he)
  | none =>
    have hlength : n + 1 = (eventsOf fiber record).length :=
      Nat.le_antisymm (List.getElem?_eq_some_iff.mp hawaits).1 (List.getElem?_eq_none_iff.mp he)
    obtain ⟨hactive, hwaiting⟩ := h.standing (h.last_of_length hawaits rfl hlength) hhistory.stands
    rcases hhistory.standing_of_wait hawaits hlength with ⟨step, rfl⟩ | rfl
    · obtain ⟨-, rfl⟩ := (hactive _ _ rfl).eq_of_given hone rfl hgiven
      exact Or.inr (.ready hawaits hlength hhistory.stands)
    · -- whoever is parked has not been given anything
      obtain ⟨p, onInterrupt, hp, hstate, -⟩ := hwaiting _ rfl
      have hover := (h.holds.places.served hgiven).1
      rw [World.isOver, hp, Option.any_some, hstate] at hover
      cases hover

/-- Whoever has started the fiber has been given what has been reported. -/
theorem given_of_report (h : Books l record s) {x : Exit Value Value}
    (hreport : s.world.store.reports[n]? = some (l.fiber, x)) :
    x ∈ l.given.filterMap fun e => if e.1 = none then some e.2 else none := by
  rw [← h.holds.reports]
  exact List.mem_filterMap.mpr ⟨_, List.mem_of_getElem? hreport, if_pos rfl⟩

/-- **Of those who are given an exit the first one gets one, and all others the same.** -/
theorem exists_first (h : Books l record s)
    (hhistory : ∀ fiber, ∃ es a, History s record fiber es a) {who : Option SuspensionId}
    {x y : Exit Value Value} {rest : List (Option SuspensionId × Exit Value Value)}
    (hgiven : l.given = (who, x) :: rest) (hrest : ∀ e ∈ rest, e.2 = y)
    (hwho : ∀ t, who = some t → ∃ p, s.world.suspension? t = some p ∧
      p.registration = .awaitExit l.fiber type) :
    ∃ first, AsksAt record l.fiber type first ∧
      (Drops record l.fiber first ∨ Learns s record l.fiber first x) ∧
      ∀ {a z}, Learns s record l.fiber a z → a = first ∧ z = x ∨ a ≠ first ∧ z = y := by
  have hgiven' : (who, x) ∈ l.given := hgiven ▸ List.mem_cons_self
  have hlater : ∀ {e}, e ∈ l.given → e.1 ≠ who → e.2 = y := by
    intro e he hne
    rw [hgiven] at he
    rcases List.mem_cons.mp he with rfl | hmem
    · exact absurd rfl hne
    · exact hrest e hmem
  cases who with
  | some t =>
    -- it has been given to a place, which belongs to a wait
    obtain ⟨type', fiber, n, w, run, hawaits, rfl⟩ := h.awaits_of_given hgiven'
    obtain ⟨p, hp, hregistration⟩ := hwho _ rfl
    obtain ⟨p', hp', -, hregistration'⟩ :=
      h.placed (mem_eventsOf.mp (List.mem_of_getElem? hawaits)) rfl
    obtain rfl := Option.some.inj (hp.symm.trans hp')
    obtain ⟨-, rfl⟩ := Registration.awaitExit.inj (hregistration.symm.trans hregistration')
    obtain ⟨es, a, hlife⟩ := hhistory fiber
    refine ⟨.waiter fiber n, ⟨w, run, hawaits⟩, h.learns_of_given hlife hawaits hgiven',
      fun {a z} hlearns => ?_⟩
    cases a with
    | starter k =>
      cases hlearns with
      | reported hreport =>
        obtain ⟨e, he, heq⟩ := List.mem_filterMap.mp (h.given_of_report hreport)
        split at heq
        · next hnone =>
          obtain rfl := Option.some.inj heq
          exact Or.inr ⟨nofun, hlater he (by rw [hnone]; exact nofun)⟩
        · cases heq
    | waiter fiber' n' =>
      obtain ⟨type', w', run', hawaits'⟩ := hlearns.awaits
      have hentry := h.given_of_learns hawaits' hlearns
      by_cases hplace : w'.suspensions.next = w.suspensions.next
      · obtain ⟨rfl, rfl⟩ := h.eq_of_place hawaits' rfl hawaits rfl (congrArg SuspensionId.mk hplace)
        rw [hplace] at hentry
        exact Or.inl ⟨rfl, h.holds.places.eq_of_given hentry hgiven'⟩
      · refine Or.inr ⟨fun heq => hplace ?_, hlater hentry fun heq => hplace ?_⟩
        · obtain ⟨rfl, rfl⟩ := Observation.waiter.inj heq
          obtain ⟨rfl, -⟩ := Event.iterated.inj (Option.some.inj (hawaits'.symm.trans hawaits))
          rfl
        · exact congrArg SuspensionId.index (Option.some.inj heq)
  | none =>
    -- it has been reported to the one who started the fiber
    have hreports := h.holds.reports
    rw [hgiven] at hreports
    change _ = x :: rest.filterMap (fun e => if e.1 = none then some e.2 else none) at hreports
    obtain ⟨n, r, hr, hx, hother⟩ := exists_first_of_filterMap hreports
    have hreport : ∀ {r : FiberId × Exit Value Value} {z},
        (if r.1 = l.fiber then some r.2 else none) = some z → r = (l.fiber, z) := by
      rintro ⟨f, z'⟩ z heq
      split at heq
      · next hself => rw [← hself, ← Option.some.inj heq]
      · cases heq
    obtain rfl := hreport hx
    refine ⟨.starter n, trivial, Or.inr (.reported hr), fun {a z} hlearns => ?_⟩
    cases a with
    | starter k =>
      cases hlearns with
      | reported hz =>
        by_cases hk : k = n
        · subst hk
          exact Or.inl ⟨rfl, congrArg Prod.snd (Option.some.inj (hz.symm.trans hr))⟩
        · obtain hsame | hmem := hother hz (if_pos rfl)
          · exact absurd hsame hk
          · obtain ⟨e, he, heq⟩ := List.mem_filterMap.mp hmem
            refine Or.inr ⟨fun heq => hk (Observation.starter.inj heq), ?_⟩
            split at heq
            · exact (Option.some.inj heq).symm.trans (hrest e he)
            · cases heq
    | waiter fiber n =>
      obtain ⟨type', w, run, hawaits⟩ := hlearns.awaits
      exact Or.inr ⟨nofun, hlater (h.given_of_learns hawaits hlearns) nofun⟩

end Books

/-! ### Who has got an exit -/

/-- At most one of those who are to learn how a fiber ends gets its exit. -/
structure DeliversOnce (s : Workshop) (record : List (FiberId × Event)) (f : FiberId) : Prop where
  /-- Nobody goes on from a wait for the fiber before it has finished, but for a cancellation. -/
  waits : ∀ {type fiber n w run e}, Awaits record f type fiber n w run →
    (eventsOf fiber record)[n + 1]? = some e → AfterWait f run e
  /-- Nobody gets anything before the fiber has finished. -/
  finished : ∀ {a x}, Learns s record f a x → s.world.store.isFinished f = true
  /-- A fiber has finished with one outcome. -/
  ended : s.world.store.isFinished f = true →
    ∃ o, Ended record f o ∧ ∀ o', Ended record f o' → o' = o
  /-- One at most gets the exit with which the fiber has ended; all others get the defect. -/
  once : ∀ {o}, Ended record f o → ∃ first, ∀ {a x}, Learns s record f a x →
    (a = first ∧ ∃ type, AsksAt record f type a ∧ Seen record f o type x) ∨
      (a ≠ first ∧ x = s.world.store.names.observed f)
  /-- What is found in the place of the exit of a fiber that has finished is nothing, the defect, or
  the exit if nobody has got anything. -/
  held : ∀ {x}, s.world.store.exit? f = some x → x = s.world.exitTaken f ∨
    (∀ a y, ¬ Learns s record f a y) ∧ ∃ o types, Ended record f o ∧
      (∀ t ∈ types, ∃ fiber n w run, Awaits record f t fiber n w run) ∧ x = o.passed types
  /-- Whoever hands an exit back does not replace one that is there. -/
  restored : ∀ {x}, s.world.store.exit? f = some x → ∀ y,
    (s.world.restoreExit f y).store.exit? f = some x

/-- The exit of a fiber that has ended is there for the next one who asks. -/
structure Keeps (s : Workshop) (record : List (FiberId × Event)) (f : FiberId) (o : Outcome) :
    Prop where
  /-- It is where it has been put down. -/
  held : ∃ types, (∀ t ∈ types, ∃ fiber n w run, Awaits record f t fiber n w run) ∧
    s.world.store.exit? f = some (o.passed types)
  /-- Whoever asks for it next gets it at once, unless it must stop. -/
  next : ∀ {fiber run} type, s.world.mustStop fiber run = false → ∃ x, Seen record f o type x ∧
    (s.world.iterate fiber run (.eval (.wait (.awaitExit f type)))).1 = some (run, .value (.exit x))
  /-- Nobody waits any longer who has asked when there was such a fiber. -/
  nobody : ∀ {type fiber n w run run'}, Awaits record f type fiber n w run →
    n + 1 = (eventsOf fiber record).length → s.Stands fiber (.waiting run') →
      w.store.fiber? f = none

namespace Books

variable {l : Ledger} {record : List (FiberId × Event)} {s : Workshop}

/-- What has been given is not there any longer. -/
theorem given_eq_nil_of_exit? (h : Books l record s) {x : Outcome}
    (hexit : s.world.store.exit? l.fiber = some x) : x = s.world.exitTaken l.fiber ∨ l.given = [] ∧
      ∃ o types, l.result = some o ∧ types ⊆ l.types ∧ x = o.passed types := by
  cases h.holds.shelf with
  | going _ _ hnone _ =>
    rw [hnone] at hexit
    cases hexit
  | @kept o types hresult _ hsome htypes hgiven =>
    rw [hsome] at hexit
    exact Or.inr ⟨hgiven, o, types, hresult, htypes, (Option.some.inj hexit).symm⟩
  | taken _ _ hgone _ _ _ _ =>
    rcases hgone with hnone | hsome
    · rw [hnone] at hexit
      cases hexit
    · rw [hsome] at hexit
      exact Or.inl (Option.some.inj hexit).symm

/-- The types at which a fiber has been waited for. -/
theorem awaits_of_types (h : Books l record s) {types : List ErrorType} (htypes : types ⊆ l.types) :
    ∀ t ∈ types, ∃ fiber n w run, Awaits record l.fiber t fiber n w run := by
  intro t ht
  obtain ⟨⟨place, t⟩, hasked, rfl⟩ := List.mem_map.mp (htypes ht)
  obtain ⟨fiber, w, run, hmem, -⟩ := h.asked hasked
  obtain ⟨n, hn, heq⟩ := List.getElem_of_mem (mem_eventsOf.mpr hmem)
  exact ⟨fiber, n, w, run, List.getElem?_eq_some_iff.mpr ⟨hn, heq⟩⟩

/-- Whoever has got an exit has been given it. -/
theorem exists_given (h : Books l record s) {a : Observation} {x : Exit Value Value}
    (hlearns : Learns s record l.fiber a x) : ∃ who, (who, x) ∈ l.given := by
  cases a with
  | waiter fiber n =>
    obtain ⟨type, w, run, hawaits⟩ := hlearns.awaits
    exact ⟨_, h.given_of_learns hawaits hlearns⟩
  | starter n =>
    cases hlearns with
    | reported hreport =>
      obtain ⟨⟨who, x'⟩, hmem, heq⟩ := List.mem_filterMap.mp (h.given_of_report hreport)
      split at heq
      · exact ⟨who, Option.some.inj heq ▸ hmem⟩
      · cases heq

/-- Somebody has been given something when somebody has got something. -/
theorem given_ne_nil_of_learns (h : Books l record s) {a : Observation} {x : Exit Value Value}
    (hlearns : Learns s record l.fiber a x) : l.given ≠ [] := by
  obtain ⟨who, hgiven⟩ := h.exists_given hlearns
  exact List.ne_nil_of_mem hgiven

end Books

/-! ### A fiber that waits for another one -/

namespace HandedExit

/-- A world in which nothing but fibers has been made. -/
def scene (fibers : Array FiberRecord) (places : Array Suspension) (ready : List Task) : World where
  store := { Store.init 0 with fibers := ⟨1, fibers⟩ }
  suspensions := ⟨0, places⟩
  tasks := ⟨[], ready⟩

/-- The type of failures with which all wait. -/
def errors : ErrorType := ⟨"error"⟩

/-- What the fiber does that ends. -/
def ending : Instruction := .done (.done .unit)

/-- What those do who wait for it. -/
def waiting : Instruction := .wait (.awaitExit ⟨1⟩ errors)

/-- The beginning of all fibers. -/
def start : RunState := .start .unit true

/-- What is known of the fiber when another one waits for it. -/
def awaited : FiberRecord := { observers := [.exitTo ⟨0⟩ errors] }

/-- What is known of the waiter. -/
def waiter : FiberRecord := { suspension := some ⟨0⟩ }

/-- The place of the waiter. -/
def placeAt (state : SuspensionState) : Suspension := ⟨⟨2⟩, true, .awaitExit ⟨1⟩ errors, state⟩

/-- The fiber that ends, before it has run. -/
def first : Task := ⟨⟨1⟩, start, .eval ending⟩

/-- Both fibers have been started. -/
def begun (ready : List Task) : World := scene #[{}, {}] #[] ready

/-- The waiter is parked. -/
def parked (ready : List Task) : World :=
  scene #[awaited, waiter] #[placeAt (.waiting start .nothing)] ready

/-- The waiter has been handed the exit. -/
def handed (ready : List Task) : World :=
  scene #[{ finished := true }, waiter] #[placeAt .over] ready

/-- The waiter as it is ready to go on with the exit. -/
def woken : Task := ⟨⟨2⟩, start, .value (.exit (.done .unit))⟩

/-- The doing with which the waiter begins to wait. -/
def asking : Event := .iterated (begun [first]) start (.eval waiting)

end HandedExit

open HandedExit in
/-- The waiter is parked first. -/
theorem Run.of_waiting {record : List (FiberId × Event)} {s : Workshop}
    (h : Run 8 ⟨parked [first], []⟩ record s) : Run 8 (init 0) ((⟨2⟩, asking) :: record) s := by
  have hfirst : Move 8 (init 0) [] ⟨scene #[{}] #[] [first], []⟩ := .start ending .unit none
  have hstart : Move 8 ⟨scene #[{}] #[] [first], []⟩ []
      ⟨begun [⟨⟨2⟩, start, .eval waiting⟩, first], []⟩ := .start waiting .unit none
  have hpick : Move 8 ⟨begun [⟨⟨2⟩, start, .eval waiting⟩, first], []⟩ []
      ⟨begun [first], [⟨⟨2⟩, start, .eval waiting, 0⟩]⟩ :=
    @Move.pick 8 _ [] ⟨[], [first]⟩ [first] [] ⟨⟨2⟩, start, .eval waiting⟩ rfl rfl
  have hpark : Move 8 ⟨begun [first], [⟨⟨2⟩, start, .eval waiting, 0⟩]⟩ [(⟨2⟩, asking)]
      ⟨parked [first], []⟩ := .advance_one _ _ _
  exact .move hfirst (.move hstart (.move hpick (.move hpark h)))

/-- The doings of the fiber that ends, in a world in which it finds nothing else to do. -/
def HandedExit.doings (w : World) (record : List (FiberId × Event)) : List (FiberId × Event) :=
  (⟨1⟩, .iterated w start (.eval ending)) :: (⟨1⟩, .iterated w start (.value .unit)) :: record

/-- Where nobody else waits, the waiter is the only one. -/
theorem HandedExit.eq_of_awaits {rest : List (FiberId × Event)}
    (hrest : ∀ e ∈ rest, e.2.wait? = none) {f fiber : FiberId} {type : ErrorType} {n : Nat}
    {w : World} {run : RunState} (h : Awaits ((⟨2⟩, asking) :: rest) f type fiber n w run) :
    fiber = ⟨2⟩ ∧ n = 0 := by
  have hnone : ∀ {fiber},
      (fiber, Event.iterated w run (.eval (.wait (.awaitExit f type)))) ∉ rest := by
    intro fiber hmem
    cases hrest _ hmem
  rcases List.mem_cons.mp (mem_eventsOf.mp (List.mem_of_getElem? h)) with heq | hmem
  · obtain rfl := congrArg Prod.fst heq
    refine ⟨rfl, ?_⟩
    cases n with
    | zero => rfl
    | succ n =>
      exact absurd (mem_eventsOf.mp (List.mem_of_getElem? (l := eventsOf ⟨2⟩ rest) h)) hnone
  · exact absurd hmem hnone

open HandedExit in
/-- The fiber ends, and the waiter is handed its exit. -/
theorem Run.of_handed {record : List (FiberId × Event)} {s : Workshop}
    (h : Run 8 ⟨handed [woken], []⟩ record s) :
    Run 8 (init 0) ((⟨2⟩, asking) :: doings (parked []) record) s := by
  have hpick : Move 8 ⟨parked [first], []⟩ [] ⟨parked [], [⟨⟨1⟩, start, .eval ending, 0⟩]⟩ :=
    @Move.pick_first 8 _ [] .empty first rfl
  have hvalue : Move 8 ⟨parked [], [⟨⟨1⟩, start, .eval ending, 0⟩]⟩
      [(⟨1⟩, .iterated (parked []) start (.eval ending))]
      ⟨parked [], [⟨⟨1⟩, start, .value .unit, 1⟩]⟩ := .advance_one _ _ _
  have hfinish : Move 8 ⟨parked [], [⟨⟨1⟩, start, .value .unit, 1⟩]⟩
      [(⟨1⟩, .iterated (parked []) start (.value .unit))] ⟨handed [woken], []⟩ := .advance_one _ _ _
  have hrest : Run 8 ⟨parked [first], []⟩ (doings (parked []) record) s := by
    unfold doings
    exact .move hpick (.move hvalue (.move hfinish h))
  exact .of_waiting hrest

/-! ### Runs -/

/-- **An exit is delivered at most once**, in every run: whoever waits for a fiber, and whoever has
started it, one of them at most gets the exit of the fiber, and all others get the defect. -/
theorem Run.delivers_exit_once {budget minted : Nat} {s : Workshop}
    {record : List (FiberId × Event)} (h : Run budget (init minted) record s) (f : FiberId) :
    s.DeliversOnce record f := by
  obtain ⟨l, rfl, hbooks⟩ := h.books f
  have hhistory := fun fiber => h.history fiber
  refine ⟨fun {type fiber n w run e} hawaits he => ?_, fun {a x} hlearns => ?_, fun hdone => ?_,
    fun {o} hended => ?_, fun {x} hexit => ?_, fun {x} hexit y => ?_⟩
  · cases hbooks.after_wait hawaits rfl he with
    | stopped htold => exact .dropped htold.1.1
    | iterated hgo =>
      cases hgo with
      | interrupted source hallowed _ => exact .cancelled source hallowed
      | told htold =>
        obtain ⟨hdone, x, rfl⟩ := htold.1
        exact .exit hdone
  · have hgiven := hbooks.given_ne_nil_of_learns hlearns
    cases hbooks.holds.shelf with
    | going _ _ _ hnil => exact absurd hnil hgiven
    | kept _ hdone _ _ _ | taken _ hdone _ _ _ _ _ => exact hdone
  · cases hbooks.holds.shelf with
    | going _ hgoing _ _ =>
      rw [hdone] at hgoing
      cases hgoing
    | kept hresult _ _ _ _ | taken hresult _ _ _ _ _ _ =>
      refine ⟨_, (hbooks.result _).mp hresult, fun o' ho' => ?_⟩
      exact Option.some.inj (((hbooks.result o').mpr ho').symm.trans hresult)
  · have hresult := (hbooks.result o).mpr hended
    cases hbooks.holds.shelf with
    | going hnone _ _ _ =>
      rw [hresult] at hnone
      cases hnone
    | kept _ _ _ _ hgiven =>
      exact ⟨.starter 0, fun {a x} hlearns => absurd hgiven (hbooks.given_ne_nil_of_learns hlearns)⟩
    | @taken o' types type who rest hresult' _ _ htypes hwho hgiven hrest =>
      obtain rfl := Option.some.inj (hresult.symm.trans hresult')
      obtain ⟨first, hasks, -, hfirst⟩ := hbooks.exists_first hhistory hgiven hrest hwho
      refine ⟨first, fun {a x} hlearns => (hfirst hlearns).imp_left fun ⟨heq, hx⟩ => ?_⟩
      exact ⟨heq, type, heq ▸ hasks, types, hbooks.awaits_of_types htypes, hx⟩
  · refine (hbooks.given_eq_nil_of_exit? hexit).imp_right
      fun ⟨hnil, o, types, hresult, htypes, hx⟩ => ?_
    exact ⟨fun a y hlearns => hbooks.given_ne_nil_of_learns hlearns hnil, o, types,
      (hbooks.result o).mp hresult, hbooks.awaits_of_types htypes, hx⟩
  · rw [World.exit?_restoreExit, if_pos rfl]
    obtain ⟨r, hr, hx⟩ := Option.bind_eq_some_iff.mp hexit
    rw [hr, Option.bind_some, hx, Option.some_or]

open HandedExit in
/-- A waiter that has been handed the exit. -/
theorem Run.delivers_exit_once_handed :
    ∃ s record, Run 8 (init 0) record s ∧
      Learns s record ⟨1⟩ (.waiter ⟨2⟩ 0) (.done .unit) ∧ s.DeliversOnce record ⟨1⟩ := by
  have hrun : Run 8 (init 0) _ _ := .of_handed .rest
  refine ⟨_, _, hrun, ?_, Run.delivers_exit_once hrun ⟨1⟩⟩
  have hawaits : Awaits ((⟨2⟩, asking) :: doings (parked []) []) ⟨1⟩ errors ⟨2⟩ 0 (begun [first])
    start := rfl
  exact .ready hawaits rfl ⟨rfl, rfl⟩

/-- **An exit that nobody drops is kept**, in every run: as long as nobody has got the exit of a
fiber that has ended, and nobody who has got it has dropped it, the next one who asks gets it. -/
theorem Run.keeps_exit {budget minted : Nat} {s : Workshop} {record : List (FiberId × Event)}
    {f : FiberId} {o : Outcome} (h : Run budget (init minted) record s) (hended : Ended record f o)
    (hdropped : ∀ a, ¬ Drops record f a) (hnobody : ∀ a, ¬ LearnsEnd s record f o a) :
    s.Keeps record f o := by
  obtain ⟨l, rfl, hbooks⟩ := h.books f
  have hresult := (hbooks.result o).mpr hended
  cases hbooks.holds.shelf with
  | going hnone _ _ _ =>
    rw [hresult] at hnone
    cases hnone
  | @taken o' types type who rest hresult' _ _ htypes hwho hgiven hrest =>
    obtain rfl := Option.some.inj (hresult.symm.trans hresult')
    obtain ⟨first, hasks, hgot, -⟩ :=
      hbooks.exists_first (fun fiber => h.history fiber) hgiven hrest hwho
    rcases hgot with hdrops | hlearns
    · exact absurd hdrops (hdropped first)
    · exact absurd ⟨type, _, hasks, ⟨types, hbooks.awaits_of_types htypes, rfl⟩, hlearns⟩
        (hnobody first)
  | @kept o' types hresult' hdone hexit htypes hgiven =>
    obtain rfl := Option.some.inj (hresult.symm.trans hresult')
    have hawaits := hbooks.awaits_of_types htypes
    refine ⟨⟨types, hawaits, hexit⟩, fun {fiber run} type hgoes => ?_,
      fun {type fiber n w run run'} hwaits hlast hstands => ?_⟩
    · exact ⟨_, ⟨types, hawaits, rfl⟩, World.iterate_awaitExit type hdone hexit hgoes⟩
    · obtain ⟨p, onInterrupt, hp, hstate, hregistration⟩ :=
        (hbooks.standing (hbooks.last_of_length hwaits rfl hlast) hstands).2 _ rfl
      have hasks : .exitTo ⟨w.suspensions.next⟩ type ∈
          p.registration.observers ⟨w.suspensions.next⟩ l.fiber := by
        rw [hregistration]
        exact Registration.mem_observers_awaitExit.mpr ⟨rfl, rfl⟩
      rcases hbooks.holds.attends hp hstate hasks with hpending | ⟨r, hr, hgoing, -⟩ |
        ⟨-, _, _, _, heq⟩
      · obtain ⟨fiber', w', run'', registration, hmem, hasks', hnone⟩ := hbooks.pending _ hpending
        obtain ⟨n', hn', hget⟩ := List.getElem_of_mem (mem_eventsOf.mpr hmem)
        have hwaits' := List.getElem?_eq_some_iff.mpr ⟨hn', hget⟩
        obtain ⟨rfl, rfl⟩ := hbooks.eq_of_place hwaits rfl hwaits' rfl
          (Registration.place_eq_of_mem hasks hasks')
        obtain ⟨rfl, -⟩ := Event.iterated.inj (Option.some.inj (hwaits.symm.trans hwaits'))
        exact hnone
      · rw [Store.isFinished, hr, Option.any_some, hgoing] at hdone
        cases hdone
      · cases heq

namespace HandedExit

/-- What is known of the waiter when its interruption has been requested. -/
def interrupted : FiberRecord := { waiter with interruptors := [⟨0⟩] }

/-- The waiter as it is ready to go on with the cancellation. -/
def gone : Task := ⟨⟨2⟩, start, .interrupt ⟨0⟩⟩

/-- The waiter has been interrupted while it was parked. -/
def abandoned (ready : List Task) : World := scene #[awaited, interrupted] #[placeAt .over] ready

/-- The fiber has ended after its waiter has gone. -/
def kept : World :=
  scene #[{ finished := true, exit := some (.done .unit) }, interrupted] #[placeAt .over] [gone]

/-- What has been done until then. -/
def keptRecord : List (FiberId × Event) := (⟨2⟩, asking) :: doings (abandoned [gone]) []

/-- The waiter is interrupted while it is parked, and the fiber ends. -/
theorem run_kept : Run 8 (init 0) keptRecord ⟨kept, []⟩ := by
  have hinterrupt : Move 8 ⟨parked [first], []⟩ [] ⟨abandoned [gone, first], []⟩ :=
    .interrupt ⟨2⟩ ⟨0⟩
  have hpick : Move 8 ⟨abandoned [gone, first], []⟩ []
      ⟨abandoned [gone], [⟨⟨1⟩, start, .eval ending, 0⟩]⟩ :=
    @Move.pick 8 _ [] ⟨[], [gone]⟩ [] [gone] first rfl rfl
  have hvalue : Move 8 ⟨abandoned [gone], [⟨⟨1⟩, start, .eval ending, 0⟩]⟩
      [(⟨1⟩, .iterated (abandoned [gone]) start (.eval ending))]
      ⟨abandoned [gone], [⟨⟨1⟩, start, .value .unit, 1⟩]⟩ := .advance_one _ _ _
  have hfinish : Move 8 ⟨abandoned [gone], [⟨⟨1⟩, start, .value .unit, 1⟩]⟩
      [(⟨1⟩, .iterated (abandoned [gone]) start (.value .unit))] ⟨kept, []⟩ := .advance_one _ _ _
  have hrest : Run 8 ⟨parked [first], []⟩ (doings (abandoned [gone]) []) ⟨kept, []⟩ := by
    unfold doings
    exact .move hinterrupt (.move hpick (.move hvalue (.move hfinish .rest)))
  exact .of_waiting hrest

end HandedExit

open HandedExit in
/-- A waiter that is interrupted while it is parked. -/
theorem Run.keeps_exit_abandoned :
    Run 8 (init 0) keptRecord ⟨kept, []⟩ ∧ Ended keptRecord ⟨1⟩ (.done .unit) ∧
      (∀ a, ¬ Drops keptRecord ⟨1⟩ a) ∧
      (∀ a, ¬ LearnsEnd ⟨kept, []⟩ keptRecord ⟨1⟩ (.done .unit) a) ∧
      Keeps ⟨kept, []⟩ keptRecord ⟨1⟩ (.done .unit) := by
  have hended : Ended keptRecord ⟨1⟩ (.done .unit) := by
    refine ⟨abandoned [gone], start, .value .unit, ?_, rfl⟩
    simp [keptRecord, doings]
  have hone : ∀ {type fiber n w run},
      Awaits keptRecord ⟨1⟩ type fiber n w run → fiber = ⟨2⟩ ∧ n = 0 :=
    eq_of_awaits (by simp [doings, Event.wait?, ending])
  have hdropped : ∀ a, ¬ Drops keptRecord ⟨1⟩ a := by
    rintro (⟨fiber, n⟩ | n) hdrops
    · obtain ⟨type, w, run, w', hawaits, hnext⟩ := hdrops
      obtain ⟨rfl, rfl⟩ := hone hawaits
      cases hnext
    · exact hdrops
  have hnobody : ∀ a, ¬ LearnsEnd ⟨kept, []⟩ keptRecord ⟨1⟩ (.done .unit) a := by
    rintro a ⟨type, x, -, -, hlearns⟩
    cases hlearns with
    | goesOn hawaits hnext =>
      obtain ⟨rfl, rfl⟩ := hone hawaits
      cases hnext
    | ready hawaits _ hstands =>
      -- it is about to go on with the cancellation
      obtain ⟨rfl, rfl⟩ := hone hawaits
      have htokens := hstands.tokens
      cases htokens
    | reported hreport => cases hreport
  exact ⟨run_kept, hended, hdropped, hnobody, Run.keeps_exit run_kept hended hdropped hnobody⟩

namespace HandedExit

/-- The interruption of the waiter has been requested after it has been handed the exit. -/
def requested (ready : List Task) : World :=
  scene #[{ finished := true }, interrupted, {}] #[placeAt .over] ready

/-- The waiter has ended, and somebody else asks. -/
def lost (ready : List Task) : World :=
  scene #[{ finished := true },
    { interrupted with
      suspension := none
      exit := some (.halt (.of (.interrupt ⟨0⟩)))
      finished := true },
    {}] #[placeAt .over] ready

/-- The one who asks then. -/
def other : Task := ⟨⟨3⟩, start, .eval waiting⟩

/-- The one who asks, in hand. -/
def asker : Slice := ⟨⟨3⟩, start, .eval waiting, 0⟩

/-- What has been done until then. -/
def lostRecord : List (FiberId × Event) :=
  (⟨2⟩, asking) :: doings (parked []) [(⟨2⟩, .stopped (requested [other])),
    (⟨2⟩, .iterated (requested [other]) start (.interrupt ⟨0⟩))]

/-- The waiter is interrupted after it has been handed the exit and before it runs. -/
theorem run_lost : Run 8 (init 0) lostRecord ⟨lost [], [asker]⟩ := by
  have hinterrupt : Move 8 ⟨handed [woken], []⟩ []
      ⟨scene #[{ finished := true }, interrupted] #[placeAt .over] [woken], []⟩ :=
    .interrupt ⟨2⟩ ⟨0⟩
  have hstart : Move 8 ⟨scene #[{ finished := true }, interrupted] #[placeAt .over] [woken], []⟩ []
      ⟨requested [other, woken], []⟩ := .start waiting .unit none
  have hpick : Move 8 ⟨requested [other, woken], []⟩ []
      ⟨requested [other], [⟨⟨2⟩, start, .value (.exit (.done .unit)), 0⟩]⟩ :=
    @Move.pick 8 _ [] ⟨[], [other]⟩ [] [other] woken rfl rfl
  have hstop : Move 8 ⟨requested [other], [⟨⟨2⟩, start, .value (.exit (.done .unit)), 0⟩]⟩
      [(⟨2⟩, .stopped (requested [other])),
       (⟨2⟩, .iterated (requested [other]) start (.interrupt ⟨0⟩))]
      ⟨lost [other], []⟩ := .advance_one _ _ _
  have hpick' : Move 8 ⟨lost [other], []⟩ [] ⟨lost [], [asker]⟩ :=
    @Move.pick 8 _ [] ⟨[], []⟩ [] [] other rfl rfl
  exact .of_handed
    (.move hinterrupt (.move hstart (.move hpick (.move hstop (.move hpick' .rest)))))

end HandedExit

/-- What has ended with a value is seen so by all. -/
theorem Seen.eq_done {record : List (FiberId × Event)} {f : FiberId} {v : Value} {type : ErrorType}
    {x : Exit Value Value} (h : Seen record f (.done v) type x) : x = .done v := by
  obtain ⟨types, -, rfl⟩ := h
  have hpassed : Exit.passed types (.done v) = .done v := by
    induction types with
    | nil => rfl
    | cons type types ih => exact ih
  rw [hpassed]
  rfl

open HandedExit in
/-- **Not every exit is kept**: it is lost if the waiter that has been handed it is interrupted
before it runs. -/
theorem Run.not_every_exit_kept :
    ¬ ∀ budget minted s record f o, Run budget (init minted) record s → Ended record f o →
      (∀ a, ¬ LearnsEnd s record f o a) → ∀ slice ∈ s.running, ∀ type,
        slice.step = .eval (.wait (.awaitExit f type)) →
        s.world.mustStop slice.fiber slice.run = false → ∃ x, Seen record f o type x ∧
          (s.world.iterate slice.fiber slice.run slice.step).1 =
            some (slice.run, .value (.exit x)) := by
  intro hall
  have hended : Ended lostRecord ⟨1⟩ (.done .unit) := by
    refine ⟨parked [], start, .value .unit, ?_, rfl⟩
    simp [lostRecord, doings]
  have hone : ∀ {type fiber n w run},
      Awaits lostRecord ⟨1⟩ type fiber n w run → fiber = ⟨2⟩ ∧ n = 0 :=
    eq_of_awaits (by simp [doings, Event.wait?, ending, Step.interrupt])
  have hnobody : ∀ a, ¬ LearnsEnd ⟨lost [], [asker]⟩ lostRecord ⟨1⟩ (.done .unit) a := by
    rintro a ⟨type, x, -, -, hlearns⟩
    cases hlearns with
    | goesOn hawaits hnext =>
      obtain ⟨rfl, rfl⟩ := hone hawaits
      cases hnext
    | ready hawaits hlast _ =>
      obtain ⟨rfl, rfl⟩ := hone hawaits
      cases hlast
    | reported hreport => cases hreport
  obtain ⟨x, hseen, hnext⟩ := hall 8 0 _ _ ⟨1⟩ _ run_lost hended hnobody asker
    (List.mem_singleton_self _) errors rfl rfl
  obtain rfl := hseen.eq_done
  -- but what is there is the defect
  have hdefect : ((lost []).iterate asker.fiber asker.run asker.step).1 =
      some (start, .value (.exit ((lost []).store.names.observed ⟨1⟩))) := rfl
  cases hdefect.symm.trans hnext

end Workshop

end Fibers
