import Mathlib.Data.List.Forall2
import Fibers.Proofs.Likeness
import Fibers.Proofs.Workshop

/-!
# Uninterruptible regions are blind

A run is determined by what is chosen to happen next: which fiber is picked up or iterates, and what
somebody outside does.  Two runs that begin in the same workshop are compared whose choices differ in
nothing but the requests for the interruption of one fiber, which may be any number in each of them,
at any time and from any source.  As long as that fiber is inside of a region in which interruption
is not allowed, and enters none in which it is, the two runs are the same, but for who has asked it to
stop.  The fiber does the same things in the same order: it calls the same code with the same
arguments, waits for the same, starts the same fibers, and is handed the same outcome in the end; it
does not drop anything, passes no handler by, and no wait of it ends early.

## Main definitions

* `Choice`, `Workshop.Follows` — what is chosen to happen, and the run that comes of it.
* `Standing.InRegion` — a fiber has not left a region, and has entered none inside of it in which
  interruption is allowed.
* `Event.Alike`, `Workshop.Alike` — what is done, and workshops, but for requests.

## Main results

* `Workshop.Makes.alike` — what is chosen happens alike.
* `Workshop.Run.inRegion` — a fiber that stays inside is not touched by any interruption.
* `Workshop.Follows.blind` — **runs that differ in requests for a fiber are the same while it is
  inside.**
-/

namespace Fibers

/-! ### Choices -/

/-- What may be chosen to happen next. -/
inductive Choice : Type 1 where
  /-- The ready fiber at a position is picked up. -/
  | pick (n : Nat)
  /-- The running fiber at a position iterates. -/
  | advance (n : Nat)
  /-- The interruption of a fiber is requested. -/
  | interrupt (target source : FiberId)
  /-- An action is carried out. -/
  | act {α : Type} (a : Action α)
  /-- An alarm rings. -/
  | ring
  /-- A fiber without a parent is started. -/
  | start (effect : Instruction) (environment : Value) (report : Option ErrorType)

/-- Whether something else than a request for the interruption of a fiber is chosen. -/
def Choice.spares (f : FiberId) : Choice → Bool
  | .interrupt target _ => target ≠ f
  | _ => true

namespace Workshop

/-- `Makes budget c s events s'` says what comes of a choice. -/
inductive Makes (budget : Nat) : Choice → Workshop → List (FiberId × Event) → Workshop → Prop where
  | pick {w : World} {running : List Slice} {tasks : Fifo Task} {before after : List Task}
      {task : Task} :
      w.tasks.toList = before ++ task :: after → tasks.toList = before ++ after →
      Makes budget (.pick before.length) ⟨w, running⟩ []
        ⟨{ w with tasks }, ⟨task.fiber, task.run, task.step, 0⟩ :: running⟩
  | advance {w : World} {before after : List Slice} {slice : Slice} {m : Machine} :
      m = Machine.advance { budget, world := w } slice →
      Makes budget (.advance before.length) ⟨w, before ++ slice :: after⟩
        ((slice.doings budget w).map (slice.fiber, ·))
        ⟨m.world, before ++ m.running.toList ++ after⟩
  | interrupt {w : World} {running : List Slice} (target source : FiberId) :
      Makes budget (.interrupt target source) ⟨w, running⟩ [] ⟨w.interrupt target source, running⟩
  | act {w : World} {running : List Slice} {α : Type} (a : Action α) :
      Makes budget (.act a) ⟨w, running⟩ [] ⟨(a.run w).2, running⟩
  | ring {w : World} {running : List Slice} {m : Machine} :
      Machine.ring { budget, world := w } = some m →
      Makes budget .ring ⟨w, running⟩ [] ⟨m.world, running⟩
  | start {w : World} {running : List Slice} (effect : Instruction) (environment : Value)
      (report : Option ErrorType) :
      Makes budget (.start effect environment report) ⟨w, running⟩ []
        ⟨(Machine.startRoot { budget, world := w } effect environment report).2.world, running⟩

/-- `Follows budget cs s record s'` says which run comes of some choices. -/
inductive Follows (budget : Nat) :
    List Choice → Workshop → List (FiberId × Event) → Workshop → Prop where
  | rest {s : Workshop} : Follows budget [] s [] s
  | move {c : Choice} {cs : List Choice} {s s' s'' : Workshop}
      {events record : List (FiberId × Event)} :
      Makes budget c s events s' → Follows budget cs s' record s'' →
      Follows budget (c :: cs) s (events ++ record) s''

variable {budget minted : Nat} {s s' t t' : Workshop}
  {events events' record record' : List (FiberId × Event)} {c : Choice} {cs cs' : List Choice}

theorem Makes.move (h : Makes budget c s events t) : Move budget s events t := by
  cases h with
  | pick hw htasks => exact .pick hw htasks
  | advance hm => exact .advance hm
  | interrupt target source => exact .interrupt target source
  | act a => exact .act a
  | ring hm => exact .ring hm
  | start effect environment report => exact .start effect environment report

/-- The machine makes its moves by choices that bring in nothing from outside. -/
theorem Makes.of_step {awaited : Option FiberId} {m m' : Machine} (h : m.step? awaited = some m') :
    ∃ c, (c = .pick 0 ∨ c = .advance 0 ∨ c = .ring) ∧
      Makes m.budget c m.workshop m.doings m'.workshop := by
  obtain ⟨budget, world, running⟩ := m
  simp only [Machine.step?] at h
  cases running with
  | some slice =>
    obtain rfl := Option.some.inj h
    have hmakes := @Makes.advance budget world [] [] slice _ rfl
    rw [List.nil_append, List.nil_append, List.append_nil] at hmakes
    simp only [Machine.doings, Option.toList_some, List.flatMap_singleton]
    exact ⟨.advance 0, Or.inr (Or.inl rfl), hmakes⟩
  | none =>
    simp only at h
    split at h
    · next task tasks hpop =>
      obtain rfl := Option.some.inj h
      exact ⟨.pick 0, Or.inl rfl, .pick (Fifo.toList_of_pop? hpop) (List.nil_append _).symm⟩
    · split at h
      · have hmakes := @Makes.ring budget world [] _ h
        obtain ⟨world', -, rfl⟩ := Machine.of_ring h
        exact ⟨.ring, Or.inr (Or.inr rfl), hmakes⟩
      · cases h

theorem Move.exists_choice (h : Move budget s events t) : ∃ c, Makes budget c s events t := by
  cases h with
  | pick hw htasks => exact ⟨_, .pick hw htasks⟩
  | advance hm => exact ⟨_, .advance hm⟩
  | interrupt target source => exact ⟨_, .interrupt target source⟩
  | act a => exact ⟨_, .act a⟩
  | ring hm => exact ⟨_, .ring hm⟩
  | start effect environment report => exact ⟨_, .start effect environment report⟩

/-- What comes of some choices is a run. -/
theorem Follows.run (h : Follows budget cs s record t) : Run budget s record t := by
  induction h with
  | rest => exact .rest
  | move hmakes _ ih => exact .move hmakes.move ih

/-- **Every run comes of some choices.** -/
theorem Run.exists_choices (h : Run budget s record t) : ∃ cs, Follows budget cs s record t := by
  induction h with
  | rest => exact ⟨[], .rest⟩
  | move hmove _ ih =>
    obtain ⟨c, hmakes⟩ := hmove.exists_choice
    obtain ⟨cs, hrest⟩ := ih
    exact ⟨c :: cs, .move hmakes hrest⟩

end Workshop

/-! ### Inside of a region -/

/-- A fiber has not left the region above a state, and has entered none inside of it in which
interruption is allowed. -/
def Standing.InRegion (base : RunState) (a : Standing) : Prop :=
  Inside (· = false) base a ∨ ∃ o, a = .handed base o

/-- What a fiber does neither leaves the region above a state, nor enters one in which interruption
is allowed. -/
def Event.StaysIn (base : RunState) (e : Event) : Prop :=
  e.entered? ≠ some true ∧ ∀ w o, e ≠ .iterated w base (.ofOutcome o)

section Region

variable {base : RunState} {f : FiberId} {a b : Standing} {e : Event} {es : List Event}

/-- Whoever is inside of a region does not allow interruption. -/
theorem Standing.InRegion.interruptible_eq_false (h : a.InRegion base)
    (hbase : base.interruptible = false) {run : RunState}
    (ha : (∃ step, a = .active run step) ∨ a = .waiting run) : run.interruptible = false := by
  rcases h with hinside | ⟨o, rfl⟩
  · rcases ha with ⟨step, rfl⟩ | rfl
    · exact hinside.1.interruptible_eq_false hbase
    · exact RunState.Above.interruptible_eq_false hinside hbase
  · rcases ha with ⟨step, heq⟩ | heq
    · exact (Standing.active.inj heq).1 ▸ hbase
    · cases heq

/-- **An event that stays inside leaves the fiber inside, and is no interruption.** -/
theorem Goes.inRegion (h : Goes f a e b) (hbase : base.interruptible = false)
    (ha : a.InRegion base) (he : e.isDoing = true → e.StaysIn base) :
    b.InRegion base ∧ ¬ e.IsCut f := by
  rcases ha with hinside | ⟨o, rfl⟩
  · refine ⟨h.inside hinside fun allowed hentered => ?_, h.not_isCut hbase hinside⟩
    have hdoing : e.isDoing = true := by
      cases e with
      | stopped _ | iterated _ _ _ => rfl
      | started _ _ _ | resumed _ | cancelled _ => cases hentered
    refine Bool.not_eq_true _ |>.mp fun hallowed => ?_
    exact (he hdoing).1 (hallowed ▸ hentered)
  · -- what has been handed an outcome does nothing more inside
    exfalso
    generalize ha : Standing.handed base o = a at h
    cases h with
    | started | resumed | cancelled => cases ha
    | stopped _ hmust =>
      obtain ⟨rfl, -⟩ := Standing.active.inj ha
      rw [World.mustStop, hbase, Bool.false_and] at hmust
      cases hmust
    | iterated _ =>
      obtain ⟨rfl, rfl⟩ := Standing.active.inj ha
      exact (he rfl).2 _ o rfl

theorem Course.inRegion (h : Life f a es b) (hbase : base.interruptible = false)
    (ha : a.InRegion base) (hes : ∀ e ∈ es.filter Event.isDoing, e.StaysIn base) :
    b.InRegion base ∧ ∀ e ∈ es, ¬ e.IsCut f := by
  induction h with
  | rest => exact ⟨ha, nofun⟩
  | @go a b c e es _ hgoes _ ih =>
    obtain ⟨hb, hcut⟩ := hgoes.inRegion hbase ha fun hdoing =>
      hes e (List.mem_filter.mpr ⟨List.mem_cons_self, hdoing⟩)
    obtain ⟨hc, hcuts⟩ := ih hb fun e' he' => by
      obtain ⟨hmem, hdoing⟩ := List.mem_filter.mp he'
      exact hes e' (List.mem_filter.mpr ⟨List.mem_cons_of_mem _ hmem, hdoing⟩)
    exact ⟨hc, List.forall_mem_cons.mpr ⟨hcut, hcuts⟩⟩

end Region

namespace Workshop

variable {budget minted : Nat} {s s' t t' : Workshop}
  {events events' record record' : List (FiberId × Event)} {c : Choice} {cs cs' : List Choice}
  {base : RunState} {f : FiberId} {a : Standing}

/-- Whoever is inside of a region does not hear of requests. -/
theorem Stands.deaf (h : s.Stands f a) (hsound : s.world.Sound)
    (hbase : base.interruptible = false) (ha : a.InRegion base) : s.world.Deaf f := by
  intro place p hs hp hopen
  obtain ⟨r, hr, hsuspension⟩ := Option.bind_eq_some_iff.mp hs
  obtain ⟨p', hp', hfiber⟩ := hsound.owner hr hsuspension
  obtain rfl := Option.some.inj (hp'.symm.trans hp)
  cases hrun : p'.state.run? with
  | none => rfl
  | some run =>
    -- the fiber is parked there, with the interrupt status of the place
    obtain ⟨before, after, hheld, -⟩ := World.held_setSuspension_over hp hrun f
    have hmem : Standing.waiting run ∈ a.tokens := by
      rw [← h.tokens, hheld, if_pos hfiber]
      simp
    have hwaiting : a = .waiting run := by
      cases a with
      | unborn | ended _ => cases hmem
      | active _ _ | waiting _ => exact (List.mem_singleton.mp hmem).symm
    rw [hsound.status hp hrun,
      ha.interruptible_eq_false hbase (Or.inr hwaiting)] at hopen
    cases hopen

/-- A fiber that stays inside of a region stays so, and no interruption touches it. -/
theorem Run.inRegion (h : Run budget s record t) (hvalid : s.Valid) (hst : s.Stands f a)
    (hbase : base.interruptible = false) (ha : a.InRegion base)
    (hstays : ∀ e ∈ eventsOf f record, e.StaysIn base) :
    ∃ es b, t.Stands f b ∧ b.InRegion base ∧ Life f a es b ∧
      es.filter Event.isDoing = eventsOf f record ∧ ∀ e ∈ es, ¬ e.IsCut f := by
  obtain ⟨es, b, hb, hlife, hdoings⟩ := h.extends_history hvalid hst
  obtain ⟨hregion, hcuts⟩ := Course.inRegion hlife hbase ha (hdoings ▸ hstays)
  exact ⟨es, b, hb, hregion, hlife, hdoings, hcuts⟩

/-! ### Two runs -/

end Workshop

/-- What a fiber does is the same in two runs, but for who has asked one of the fibers to stop: with
the same rest of it and the same step, and to the same plan, which says what code of the program is
called, with which arguments. -/
inductive Event.Alike (f fiber : FiberId) : Event → Event → Prop where
  | stopped {w w' : World} : w.Alike f w' → Event.Alike f fiber (.stopped w) (.stopped w')
  | iterated {w w' : World} {run : RunState} {step : Step} :
      w.Alike f w' →
      step.plan (w'.pending fiber) fiber run = step.plan (w.pending fiber) fiber run →
      Event.Alike f fiber (.iterated w run step) (.iterated w' run step)

namespace Workshop

variable {budget minted : Nat} {s s' t t' : Workshop}
  {events events' record record' : List (FiberId × Event)} {c : Choice} {cs cs' : List Choice}
  {base : RunState} {f : FiberId} {a : Standing}

/-- Workshops that differ in nothing but who has asked a fiber to stop. -/
structure Alike (f : FiberId) (s s' : Workshop) : Prop where
  world : s.world.Alike f s'.world
  running : s'.running = s.running

/-- The same is done, by the same fibers and in the same order. -/
abbrev SameDoings (f : FiberId) : List (FiberId × Event) → List (FiberId × Event) → Prop :=
  List.Forall₂ fun p p' => p'.1 = p.1 ∧ Event.Alike f p.1 p.2 p'.2

namespace Alike

theorem refl (f : FiberId) (s : Workshop) : s.Alike f s := ⟨.refl f _, rfl⟩

/-- A fiber stands alike. -/
theorem stands (h : s.Alike f s') {g : FiberId} (hst : s.Stands g a) : s'.Stands g a := by
  obtain ⟨⟨fibers, tasks, hfibers, htasks, hworld⟩, hrunning⟩ := h
  obtain ⟨w', running'⟩ := s'
  obtain rfl : w' = s.world.under fibers tasks := hworld
  obtain rfl : running' = s.running := hrunning
  refine ⟨(hfibers.map_eq (fun _ => rfl) g).trans hst.phase, ?_⟩
  have hheld : (s.world.under fibers tasks).held g = s.world.held g := by
    simp only [World.held, World.ready, World.under, htasks]
    rfl
  rw [← hst.tokens]
  exact congrArg (_ ++ ·) hheld

end Alike

/-- A running fiber iterates alike, or has to queue. -/
theorem advance_alike {w w' : World} (h : w.Alike f w') (hsound : w.Sound) (hdeaf : w.Deaf f)
    {slice : Slice} (hslice : slice.fiber = f → slice.run.interruptible = false) :
    List.Forall₂ (Event.Alike f slice.fiber) (slice.doings budget w) (slice.doings budget w') ∧
      (Machine.advance { budget, world := w } slice).world.Alike f
        (Machine.advance { budget, world := w' } slice).world ∧
      (Machine.advance { budget, world := w' } slice).running =
        (Machine.advance { budget, world := w } slice).running := by
  simp only [Slice.doings, Machine.advance]
  generalize (if Machine.counts slice.step then slice.used + 1 else slice.used) = used
  by_cases hused : max budget 1 < used
  · simp only [if_pos hused]
    exact ⟨.nil, h.schedule _ _ _, trivial⟩
  · simp only [if_neg hused, h.mustStop hslice, h.divert hslice]
    obtain ⟨progress, v, v', hiterate, hiterate', hworld⟩ :=
      (h.iterate hsound hdeaf hslice slice.step).exists_eq
    rw [hiterate, hiterate']
    have hlast := Event.Alike.iterated h
      (h.plan hslice (w.divert slice.fiber slice.run slice.step))
    refine ⟨?_, ?_⟩
    · split
      · exact .cons (.stopped h) (.cons hlast .nil)
      · exact .cons hlast .nil
    · cases progress with
      | none | some next => exact ⟨hworld, rfl⟩

theorem sameDoings_map {fiber : FiberId} {es es' : List Event}
    (h : List.Forall₂ (Event.Alike f fiber) es es') :
    SameDoings f (es.map (fiber, ·)) (es'.map (fiber, ·)) := by
  induction h with
  | nil => exact .nil
  | cons he _ ih => exact .cons ⟨rfl, he⟩ ih

theorem SameDoings.append {later later' : List (FiberId × Event)} (h : SameDoings f record record')
    (h' : SameDoings f later later') : SameDoings f (record ++ later) (record' ++ later') := by
  induction h with
  | nil => exact h'
  | cons he _ ih => exact .cons he ih

/-- **What is chosen happens alike**, if the one does not hear of requests, and does not iterate where
interruption is allowed. -/
theorem Makes.alike (h : Makes budget c s events t) (h' : Makes budget c s' events' t')
    (hs : s.Alike f s') (hsound : s.world.Sound) (hdeaf : s.world.Deaf f)
    (hrunning : ∀ slice ∈ s.running, slice.fiber = f → slice.run.interruptible = false) :
    SameDoings f events events' ∧ t.Alike f t' := by
  obtain ⟨hworld, hsame⟩ := hs
  cases h with
  | @pick w running tasks before after task hw htasks =>
    generalize hc : Choice.pick before.length = c at h'
    cases h' with
    | @pick w' running' tasks' before' after' task' hw' htasks' =>
      obtain ⟨fibers, queue, hfibers, hqueue, rfl⟩ := hworld
      obtain rfl : running' = running := hsame
      -- the same position in the same list
      have hlists : before ++ task :: after = before' ++ task' :: after' :=
        hw.symm.trans (hqueue.symm.trans hw')
      obtain ⟨rfl, hrest⟩ := List.append_inj hlists (Choice.pick.inj hc)
      obtain ⟨rfl, rfl⟩ := List.cons.inj hrest
      exact ⟨.nil, ⟨fibers, tasks', hfibers, htasks'.trans htasks.symm, rfl⟩, rfl⟩
    | _ => cases hc
  | @advance w before after slice m hm =>
    generalize hc : Choice.advance before.length = c at h'
    cases h' with
    | @advance w' before' after' slice' m' hm' =>
      obtain ⟨rfl, hrest⟩ := List.append_inj (Eq.symm hsame) (Choice.advance.inj hc)
      obtain ⟨rfl, rfl⟩ := List.cons.inj hrest
      subst hm hm'
      obtain ⟨hdoings, halike, hnext⟩ := @advance_alike budget _ _ _ hworld hsound hdeaf slice
        (hrunning slice (by simp))
      exact ⟨sameDoings_map hdoings, halike, by rw [hnext]⟩
    | _ => cases hc
  | interrupt target source =>
    cases h' with
    | interrupt _ _ => exact ⟨.nil, hworld.interrupt hdeaf target source, hsame⟩
  | act a =>
    cases h' with
    | act _ => exact ⟨.nil, (hworld.run a).world, hsame⟩
  | ring hm =>
    cases h' with
    | ring hm' => exact ⟨.nil, hworld.ring hm hm', hsame⟩
  | start effect environment report =>
    cases h' with
    | start _ _ _ => exact ⟨.nil, hworld.startRoot budget effect environment report, hsame⟩

/-- Requests for a fiber that does not hear of them make no difference to what is chosen after
them. -/
theorem Follows.skip (h : Follows budget cs s record t) (hdeaf : s.world.Deaf f)
    {rest : List Choice} (hcs : cs.filter (Choice.spares f) = rest) :
    ∃ s₁, s.Alike f s₁ ∧
      ((rest = [] ∧ record = [] ∧ t = s₁) ∨ ∃ c cs₁ cs₂ events record₁ s₂, rest = c :: cs₂ ∧
        cs₁.filter (Choice.spares f) = cs₂ ∧ record = events ++ record₁ ∧
          Makes budget c s₁ events s₂ ∧ Follows budget cs₁ s₂ record₁ t) := by
  induction h with
  | rest => exact ⟨_, .refl f _, Or.inl ⟨hcs.symm, rfl, rfl⟩⟩
  | @move c cs s s' s'' events record hmakes hrest ih =>
    cases hspares : c.spares f with
    | true =>
      rw [List.filter_cons_of_pos hspares] at hcs
      exact ⟨s, .refl f s, Or.inr ⟨c, cs, _, events, record, s', hcs.symm, rfl, rfl, hmakes, hrest⟩⟩
    | false =>
      rw [List.filter_cons_of_neg (by simp [hspares])] at hcs
      cases hmakes with
      | interrupt target source =>
        obtain rfl : target = f := by simpa [Choice.spares] using hspares
        have halike := hdeaf.alike_interrupt source
        obtain ⟨s₁, hs₁, hnext⟩ := ih (hdeaf.of_alike halike) hcs
        exact ⟨s₁, ⟨halike.trans hs₁.world, hs₁.running⟩, hnext⟩
      | pick | advance | act | ring | start => cases hspares

/-- **Two runs that differ in nothing but requests for a fiber are the same while it is inside of a
region in which interruption is not allowed.** -/
theorem Follows.alike (h : Follows budget cs s record t) (h' : Follows budget cs' s' record' t')
    (hsame : cs.filter (Choice.spares f) = cs'.filter (Choice.spares f)) (hs : s.Alike f s')
    (hvalid : s.Valid) (hst : s.Stands f a) (hbase : base.interruptible = false)
    (ha : a.InRegion base) (hstays : ∀ e ∈ eventsOf f record, e.StaysIn base) :
    SameDoings f record record' ∧ t.Alike f t' := by
  induction h generalizing s' cs' record' a with
  | @rest s =>
    have hdeaf := hst.deaf hvalid.sound hbase ha
    obtain ⟨s₁, hs₁, ⟨-, rfl, rfl⟩ | ⟨_, _, _, _, _, _, hnil, -⟩⟩ :=
      h'.skip (hdeaf.of_alike hs.world) hsame.symm
    · exact ⟨.nil, hs.world.trans hs₁.world, hs₁.running.trans hs.running⟩
    · cases hnil
  | @move c cs s₀ s₁ s₂ events record hmakes hrest ih =>
    have hdeaf := hst.deaf hvalid.sound hbase ha
    rw [eventsOf_append, List.forall_mem_append] at hstays
    obtain ⟨es, b, hb, hregion, -⟩ :=
      (Run.move hmakes.move .rest).inRegion hvalid hst hbase ha (by simpa using hstays.1)
    have hvalid' := hmakes.move.valid hvalid
    cases hspares : c.spares f with
    | false =>
      -- a request for the fiber in the first run alone
      rw [List.filter_cons_of_neg (by simp [hspares])] at hsame
      cases hmakes with
      | interrupt target source =>
        obtain rfl : target = f := by simpa [Choice.spares] using hspares
        exact ih h' hsame ⟨(hdeaf.alike_interrupt source).symm.trans hs.world, hs.running⟩ hvalid'
          hb hregion hstays.2
      | pick | advance | act | ring | start => cases hspares
    | true =>
      rw [List.filter_cons_of_pos hspares] at hsame
      obtain ⟨s₁', hs₁, ⟨hnil, -⟩ | ⟨c', cs₁, cs₂, events', record₁, s₂', hcons, hfilter, rfl,
        hmakes', hrest'⟩⟩ := h'.skip (hdeaf.of_alike hs.world) hsame.symm
      · cases hnil
      · obtain ⟨rfl, rfl⟩ := List.cons.inj hcons
        have hrunning : ∀ slice ∈ s₀.running, slice.fiber = f →
            slice.run.interruptible = false := by
          rintro slice hmem rfl
          obtain ⟨before, after, hsplit⟩ := List.append_of_mem hmem
          obtain ⟨w, running⟩ := s₀
          obtain rfl : running = before ++ slice :: after := hsplit
          obtain ⟨rfl, -⟩ := stands_of_running hst
          exact ha.interruptible_eq_false hbase (Or.inl ⟨_, rfl⟩)
        obtain ⟨hevents, hworkshop⟩ := hmakes.alike hmakes'
          ⟨hs.world.trans hs₁.world, hs₁.running.trans hs.running⟩ hvalid.sound hdeaf hrunning
        obtain ⟨hlater, hfinal⟩ := ih hrest' hfilter.symm hworkshop hvalid' hb hregion hstays.2
        exact ⟨hevents.append hlater, hfinal⟩

/-- What stays inside in one run stays inside in the other. -/
theorem SameDoings.staysIn (h : SameDoings f record record')
    (hstays : ∀ e ∈ eventsOf f record, e.StaysIn base) :
    ∀ e ∈ eventsOf f record', e.StaysIn base := by
  intro e he
  induction h with
  | nil => cases he
  | @cons p p' record record' hp _ ih =>
    obtain ⟨g, e₁⟩ := p
    obtain ⟨g', e₁'⟩ := p'
    obtain ⟨rfl, halike⟩ := hp
    by_cases hself : g' = f
    · subst hself
      rw [← List.singleton_append, eventsOf_append, eventsOf_self, List.singleton_append]
        at hstays he
      obtain ⟨hfirst, hlater⟩ := List.forall_mem_cons.mp hstays
      rcases List.mem_cons.mp he with rfl | hmem
      · cases halike with
        | stopped _ => exact ⟨nofun, fun _ _ => nofun⟩
        | iterated _ _ =>
          refine ⟨hfirst.1, fun w o heq => ?_⟩
          obtain ⟨-, rfl, rfl⟩ := Event.iterated.inj heq
          exact hfirst.2 _ o rfl
      · exact ih hlater hmem
    · rw [← List.singleton_append, eventsOf_append, eventsOf_other hself, List.nil_append]
        at hstays he
      exact ih hstays he

/-- Whoever is inside of a region stands in one way. -/
theorem Stands.eq_of_inRegion {b : Standing} (h : s.Stands f a) (h' : s.Stands f b)
    (ha : a.InRegion base) : b = a := by
  have htokens : b.tokens = a.tokens := h'.tokens.symm.trans h.tokens
  have hone : a.tokens = [a] := by
    rcases ha with hinside | ⟨o, rfl⟩
    · cases a with
      | active _ _ | waiting _ => rfl
      | unborn | ended _ => exact hinside.elim
    · rfl
  rw [hone] at htokens
  cases b with
  | active _ _ | waiting _ => exact (List.cons.inj htokens).1
  | unborn | ended _ => cases htokens

/-- **Uninterruptible regions are blind to interruption**: two runs that begin where a fiber enters
such a region, and differ in nothing but the requests for its interruption, are the same as long as
the fiber is inside of that region and enters none in which interruption is allowed.  The same is
done, with the same code called on the same arguments; the fiber stands alike in the end, with the
same outcome if the region has been left with one; and in neither run has it been stopped, has a wait
of it ended early, or has it come to a handler as a fiber that must stop. -/
theorem Follows.blind {past : List (FiberId × Event)} (hpast : Run budget (init minted) past s)
    {i : Instruction} (hstart : s.Stands f (.active base (.eval i)))
    (hbase : base.interruptible = false) (h : Follows budget cs s record t)
    (h' : Follows budget cs' s record' t')
    (hsame : cs.filter (Choice.spares f) = cs'.filter (Choice.spares f))
    (hstays : ∀ e ∈ eventsOf f record, e.StaysIn base) :
    SameDoings f record record' ∧ t.Alike f t' ∧
      ∃ a es es', t.Stands f a ∧ t'.Stands f a ∧ a.InRegion base ∧
        Life f (.active base (.eval i)) es a ∧ Life f (.active base (.eval i)) es' a ∧
        es.filter Event.isDoing = eventsOf f record ∧
        es'.filter Event.isDoing = eventsOf f record' ∧ ∀ e ∈ es ++ es', ¬ e.IsCut f := by
  have hvalid := hpast.valid (valid_init minted)
  have hregion : (Standing.active base (.eval i)).InRegion base := Or.inl ⟨.base, fun _ => rfl⟩
  obtain ⟨hdoings, halike⟩ :=
    h.alike h' hsame (.refl f s) hvalid hstart hbase hregion hstays
  obtain ⟨es, a, ha, hinside, hlife, hes, hcuts⟩ :=
    h.run.inRegion hvalid hstart hbase hregion hstays
  obtain ⟨es', b, hb, -, hlife', hes', hcuts'⟩ :=
    h'.run.inRegion hvalid hstart hbase hregion (SameDoings.staysIn hdoings hstays)
  obtain rfl := (halike.stands ha).eq_of_inRegion hb hinside
  exact ⟨hdoings, halike, b, es, es', ha, hb, hinside, hlife, hlife', hes, hes', fun e he =>
    (List.mem_append.mp he).elim (hcuts e) (hcuts' e)⟩

/-! ### A fiber that waits in such a region -/

/-- A fiber that waits for ever. -/
def silence : Instruction := .wait (.callback fun _ => pure (pure ()))

/-- A fiber waits in a region in which interruption is not allowed; in one run it is asked to stop
before and after it has begun to wait, and in the other one it is not. -/
theorem Follows.blind_silence :
    ∃ past s record record' t t' base, Run 8 (init 0) past s ∧
      s.Stands ⟨1⟩ (.active base (.eval silence)) ∧ base.interruptible = false ∧
      Follows 8 [.advance 0] s record t ∧
      Follows 8 [.interrupt ⟨1⟩ ⟨0⟩, .advance 0, .interrupt ⟨1⟩ ⟨7⟩] s record' t' ∧
      t.world.store.isInterrupted ⟨1⟩ = false ∧ t'.world.store.isInterrupted ⟨1⟩ = true ∧
      (∀ e ∈ eventsOf ⟨1⟩ record, e.StaysIn base) ∧
      SameDoings ⟨1⟩ record record' ∧ t.Alike ⟨1⟩ t' ∧
      ∃ a es es', t.Stands ⟨1⟩ a ∧ t'.Stands ⟨1⟩ a ∧ a.InRegion base ∧
        Life ⟨1⟩ (.active base (.eval silence)) es a ∧ Life ⟨1⟩ (.active base (.eval silence)) es' a ∧
        es.filter Event.isDoing = eventsOf ⟨1⟩ record ∧
        es'.filter Event.isDoing = eventsOf ⟨1⟩ record' ∧ ∀ e ∈ es ++ es', ¬ e.IsCut ⟨1⟩ := by
  let base : RunState := (RunState.start .unit true).enterStatus false
  let w₀ := (Machine.startRoot { budget := 8, world := .init 0 } (.setInterruptible false silence)
    .unit none).2.world
  let w₁ : World := { w₀ with tasks := .empty }
  let slice : Slice := ⟨⟨1⟩, base, .eval silence, 1⟩
  have hpast : Run 8 (init 0) _ ⟨w₁, [slice]⟩ :=
    .move (.start (.setInterruptible false silence) .unit none) <|
    .move (.pick_first rfl) <|
    .move (.advance_one _ _ _) .rest
  have hstart : Stands ⟨w₁, [slice]⟩ ⟨1⟩ (.active base (.eval silence)) := ⟨by decide, rfl⟩
  have hfirst : Follows 8 [.advance 0] ⟨w₁, [slice]⟩ _ _ :=
    .move (@Makes.advance 8 _ [] [] _ _ rfl) .rest
  have hsecond : Follows 8 [.interrupt ⟨1⟩ ⟨0⟩, .advance 0, .interrupt ⟨1⟩ ⟨7⟩] ⟨w₁, [slice]⟩ _ _ :=
    .move (.interrupt ⟨1⟩ ⟨0⟩) <|
    .move (@Makes.advance 8 _ [] [] _ _ rfl) <|
    .move (.interrupt ⟨1⟩ ⟨7⟩) .rest
  have hstays : ∀ e ∈ eventsOf ⟨1⟩ ((slice.doings 8 w₁).map (slice.fiber, ·) ++ []),
      e.StaysIn base := by
    intro e he
    obtain rfl := List.mem_singleton.mp he
    refine ⟨nofun, fun w o heq => ?_⟩
    cases o <;> cases heq
  exact ⟨_, _, _, _, _, _, base, hpast, hstart, rfl, hfirst, hsecond, by decide, by decide, hstays,
    Follows.blind hpast hstart rfl hfirst hsecond rfl hstays⟩

end Workshop

end Fibers
