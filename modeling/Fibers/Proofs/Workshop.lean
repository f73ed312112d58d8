import Fibers.Proofs.Handover

/-!
# Every schedule

A machine runs one fiber after the other, in the order in which they became ready.  A
workshop leaves all of this open: any ready fiber may be picked up at any time, any number
of fibers may be running, and whichever of them is to iterate next is free.  Between any two
iterations somebody may ask for the interruption of any fiber, carry out an action, let an
alarm ring, or start another fiber.  What holds of every run of a workshop therefore holds
under every schedule, and of the machine in particular.

A run is recorded by what the fibers do: their iterations, each with the world that it finds.
The record of one fiber is part of a life of that fiber, in which it is also said when it
started and when its waits ended.

## Main definitions

* `Workshop`, `Workshop.Move`, `Workshop.Run` — many fibers at a time, under any schedule.
* `Workshop.History` — a life that agrees with the record of a run.

## Main results

* `Workshop.Run.history` — **every fiber has a history in every run.**
* `Workshop.Run.requests` — a request for interruption is never forgotten.
* `Machine.step?_move`, `Machine.moves_run` — the machine is a workshop.
-/

namespace Fibers

/-- When an alarm rings, time has passed, and the sleeper is woken. -/
theorem Machine.of_ring {m m' : Machine} (h : m.ring = some m') :
    ∃ world : World, m.world.Influences world ∧ m' = { m with world } := by
  unfold ring at h
  split at h
  · cases h
  · next alarm alarms _ =>
    let clock : World :=
      { m.world with
        store := { m.world.store with alarms, now := max m.world.store.now alarm.deadline } }
    have htime : m.world.Influences clock := .unrelated rfl rfl rfl
    exact ⟨_, htime.trans (clock.influences_resume alarm.payload (.done .unit)),
      (Option.some.inj h).symm⟩

/-- A world and the fibers that are running in it. -/
structure Workshop where
  /-- The world. -/
  world : World
  /-- The fibers that are running. -/
  running : List Slice

/-- The workshop that a machine is. -/
def Machine.workshop (m : Machine) : Workshop := ⟨m.world, m.running.toList⟩

/-- What is done in an iteration, if there is one. -/
def Slice.doings (budget : Nat) (w : World) (slice : Slice) : List Event :=
  let used := if Machine.counts slice.step then slice.used + 1 else slice.used
  if max budget 1 < used then []
  else
    let stops := slice.step.givesWay && w.mustStop slice.fiber slice.run
    (if stops then [.stopped w] else []) ++
      [.iterated w slice.run (w.divert slice.fiber slice.run slice.step)]

/-- When a running fiber gets its turn, it queues again or carries out its plan. -/
theorem Machine.world_advance (budget : Nat) (w : World) (slice : Slice) :
    (Machine.advance { budget, world := w } slice).world =
        w.schedule slice.fiber slice.run slice.step ∨
      .iterated w slice.run (w.divert slice.fiber slice.run slice.step) ∈ slice.doings budget w ∧
        (Machine.advance { budget, world := w } slice).world =
          (w.carryOut slice.fiber ((w.divert slice.fiber slice.run slice.step).plan
            (w.pending slice.fiber) slice.fiber slice.run)).2 := by
  simp only [Machine.advance, Slice.doings, ← World.iterate_eq_carryOut]
  generalize (if Machine.counts slice.step then slice.used + 1 else slice.used) = used
  by_cases hused : max budget 1 < used
  · exact Or.inl (by rw [if_pos hused])
  · rw [if_neg hused, if_neg hused]
    refine Or.inr ⟨List.mem_append_right _ (List.mem_singleton_self _), ?_⟩
    split
    · next heq => rw [heq]
    · next heq => rw [heq]

namespace Workshop

/-- A workshop in which nothing has been started. -/
def init (minted : Nat) : Workshop := ⟨.init minted, []⟩

/-- `Move budget s events s'` says that one thing happens in a workshop; `events` are the
doings of fibers among it. -/
inductive Move (budget : Nat) : Workshop → List (FiberId × Event) → Workshop → Prop where
  /-- A ready fiber is picked up. -/
  | pick {w : World} {running : List Slice} {tasks : Fifo Task} {before after : List Task}
      {task : Task} :
      w.tasks.toList = before ++ task :: after → tasks.toList = before ++ after →
      Move budget ⟨w, running⟩ []
        ⟨{ w with tasks }, ⟨task.fiber, task.run, task.step, 0⟩ :: running⟩
  /-- A running fiber iterates, or has to queue if its budget is used up. -/
  | advance {w : World} {before after : List Slice} {slice : Slice} {m : Machine} :
      m = Machine.advance { budget, world := w } slice →
      Move budget ⟨w, before ++ slice :: after⟩ ((slice.doings budget w).map (slice.fiber, ·))
        ⟨m.world, before ++ m.running.toList ++ after⟩
  /-- The interruption of a fiber is requested. -/
  | interrupt {w : World} {running : List Slice} (target source : FiberId) :
      Move budget ⟨w, running⟩ [] ⟨w.interrupt target source, running⟩
  /-- An action is carried out. -/
  | act {w : World} {running : List Slice} {α : Type} (a : Action α) :
      Move budget ⟨w, running⟩ [] ⟨(a.run w).2, running⟩
  /-- An alarm rings. -/
  | ring {w : World} {running : List Slice} {m : Machine} :
      Machine.ring { budget, world := w } = some m → Move budget ⟨w, running⟩ [] ⟨m.world, running⟩
  /-- A fiber without a parent is started. -/
  | start {w : World} {running : List Slice} (effect : Instruction) (environment : Value)
      (report : Option ErrorType) :
      Move budget ⟨w, running⟩ []
        ⟨(Machine.startRoot { budget, world := w } effect environment report).2.world, running⟩

/-- The fiber that has been ready for the longest time is picked up. -/
theorem Move.pick_first {budget : Nat} {w : World} {running : List Slice} {tasks : Fifo Task}
    {task : Task} (h : w.tasks.pop? = some (task, tasks)) :
    Move budget ⟨w, running⟩ []
      ⟨{ w with tasks }, ⟨task.fiber, task.run, task.step, 0⟩ :: running⟩ :=
  .pick (Fifo.toList_of_pop? h) (List.nil_append _).symm

/-- The only running fiber iterates. -/
theorem Move.advance_one (budget : Nat) (w : World) (slice : Slice) :
    Move budget ⟨w, [slice]⟩ ((slice.doings budget w).map (slice.fiber, ·))
      (Machine.advance { budget, world := w } slice).workshop := by
  have hmove := @Move.advance budget w [] [] slice _ rfl
  rwa [List.nil_append, List.nil_append, List.append_nil] at hmove

/-- Moves in a row, with what the fibers do in them. -/
inductive Run (budget : Nat) : Workshop → List (FiberId × Event) → Workshop → Prop where
  /-- Nothing happens. -/
  | rest {s : Workshop} : Run budget s [] s
  /-- One thing happens, then others. -/
  | move {s s' s'' : Workshop} {events record : List (FiberId × Event)} :
      Move budget s events s' → Run budget s' record s'' → Run budget s (events ++ record) s''

/-- What some running fibers hold in hand of a fiber. -/
def inHand (slices : List Slice) (fiber : FiberId) : List Standing :=
  (slices.filter (·.fiber = fiber)).map fun slice => .active slice.run slice.step

/-- A fiber stands in a given way in a workshop. -/
def Stands (s : Workshop) (fiber : FiberId) (a : Standing) : Prop :=
  s.world.Stands (inHand s.running fiber) fiber a

/-- Nothing is known of places that is not so, and every fiber stands in some way. -/
structure Valid (s : Workshop) : Prop where
  sound : s.world.Sound
  stands : ∀ fiber, ∃ a, s.Stands fiber a

/-- A life of a fiber that led to the way in which it stands, and in which it did what a
record says. -/
structure History (s : Workshop) (record : List (FiberId × Event)) (fiber : FiberId)
    (es : List Event) (a : Standing) : Prop where
  life : Life fiber .unborn es a
  stands : s.Stands fiber a
  doings : es.filter Event.isDoing = eventsOf fiber record

/-- A record tells the doings of a fiber. -/
theorem History.mem_iff {s : Workshop} {record : List (FiberId × Event)} {fiber : FiberId}
    {es : List Event} {a : Standing} (h : History s record fiber es a) {e : Event}
    (he : e.isDoing = true) : e ∈ es ↔ (fiber, e) ∈ record := by
  rw [← mem_eventsOf, ← h.doings, List.mem_filter]
  exact ⟨fun hes => ⟨hes, he⟩, And.left⟩

/-! ### What one move does -/

@[simp] theorem inHand_append (before after : List Slice) (fiber : FiberId) :
    inHand (before ++ after) fiber = inHand before fiber ++ inHand after fiber := by
  simp [inHand]

theorem inHand_cons_self (slice : Slice) (after : List Slice) :
    inHand (slice :: after) slice.fiber = .active slice.run slice.step :: inHand after slice.fiber := by
  simp [inHand]

theorem inHand_cons_other {slice : Slice} {fiber : FiberId} (h : slice.fiber ≠ fiber)
    (after : List Slice) : inHand (slice :: after) fiber = inHand after fiber := by
  simp [inHand, h]

/-- A fiber in hand is in hand once, and the world holds nothing of it. -/
theorem stands_of_running {w : World} {before after : List Slice} {slice : Slice} {a : Standing}
    (h : Stands ⟨w, before ++ slice :: after⟩ slice.fiber a) :
    a = .active slice.run slice.step ∧ w.InHand slice.fiber ∧ inHand before slice.fiber = [] ∧
      inHand after slice.fiber = [] := by
  obtain ⟨hphase, htokens⟩ := h
  simp only [inHand_append, inHand_cons_self, List.append_assoc, List.cons_append] at htokens
  obtain ⟨hbefore, rfl, hrest⟩ := Standing.eq_of_held htokens
  obtain ⟨hafter, hheld⟩ := List.append_eq_nil_iff.mp hrest
  exact ⟨rfl, ⟨hphase, hheld⟩, hbefore, hafter⟩

/-- The doings of an iteration take the running fiber to where its plan takes it. -/
theorem life_iteration (w : World) (fiber : FiberId) (run : RunState) (step : Step) :
    Life fiber (.active run step)
      ((if step.givesWay && w.mustStop fiber run then [.stopped w] else []) ++
        [.iterated w run (w.divert fiber run step)])
      (w.after fiber ((w.divert fiber run step).plan (w.pending fiber) fiber run)) := by
  rw [World.divert_eq]
  split
  · next hstops =>
    obtain ⟨hgives, hmust⟩ := Bool.and_eq_true_iff.mp hstops
    exact .go trivial (.stopped hgives hmust) (.one trivial (.iterated rfl))
  · next hstops =>
    refine .one trivial (.iterated ?_)
    rw [World.divert_eq, if_neg hstops]

/-- What a move does to a workshop, and to every fiber. -/
structure Move.Effect (s : Workshop) (events : List (FiberId × Event)) (s' : Workshop) : Prop where
  sound : s'.world.Sound
  requests : ∀ fiber, s.world.requests fiber <+: s'.world.requests fiber
  stands : ∀ {fiber a}, s.Stands fiber a → ∃ es b, s'.Stands fiber b ∧ Life fiber a es b ∧
    es.filter Event.isDoing = eventsOf fiber events

/-- A change that carries every fiber, while nobody iterates. -/
theorem effect_of_carries {w w' : World} {events : List (FiberId × Event)}
    (h : w.Carries events w') (hsound : w.Sound) (running : List Slice) :
    Move.Effect ⟨w, running⟩ [] ⟨w', running⟩ where
  sound := h.sound hsound
  requests := h.requests
  stands hst := by
    obtain ⟨b, hb, hlife⟩ := h.stands hst
    exact ⟨_, b, hb, hlife, no_doing_eventsOf h.no_doing⟩

/-- A running fiber is handed over, after doings of its own. -/
theorem effect_of_handsOver {w w' : World} {before after : List Slice} {slice : Slice}
    {next : Option Slice} {events : List (FiberId × Event)} {es : List Event} {st : Standing}
    (h : w.HandsOver slice.fiber events st (inHand next.toList slice.fiber) w')
    (hnext : ∀ f, f ≠ slice.fiber → inHand next.toList f = [])
    (hlife : Life slice.fiber (.active slice.run slice.step) es st)
    (hdoings : ∀ e ∈ es, e.isDoing = true) :
    Move.Effect ⟨w, before ++ slice :: after⟩ (es.map (slice.fiber, ·))
      ⟨w', before ++ next.toList ++ after⟩ where
  sound := h.sound
  requests := h.requests
  stands {fiber a} hst := by
    by_cases hne : fiber = slice.fiber
    · -- the running fiber does the doings, and may be woken at once
      subst hne
      obtain ⟨rfl, hin, hbefore, hafter⟩ := stands_of_running hst
      obtain ⟨b, hb, hlife'⟩ := h.self hin
      refine ⟨es ++ eventsOf slice.fiber events, b, ?_, hlife.append hlife', ?_⟩
      · simp only [Stands, inHand_append, hbefore, hafter, List.nil_append, List.append_nil]
        exact hb
      · rw [List.filter_append, no_doing_eventsOf h.no_doing, List.append_nil, eventsOf_map_self]
        exact List.filter_eq_self.mpr hdoings
    · -- another fiber does nothing
      have hhand : inHand (before ++ next.toList ++ after) fiber =
          inHand (before ++ slice :: after) fiber := by
        simp [hnext fiber hne, inHand_cons_other (Ne.symm hne)]
      obtain ⟨b, hb, hlife'⟩ := h.other hne hst
      refine ⟨eventsOf fiber events, b, ?_, hlife', ?_⟩
      · simp only [Stands, hhand]
        exact hb
      · rw [no_doing_eventsOf h.no_doing, eventsOf_map_other (Ne.symm hne)]

theorem effect_pick {w : World} {running : List Slice} {tasks : Fifo Task}
    {before after : List Task} {task : Task} (hw : w.tasks.toList = before ++ task :: after)
    (hw' : tasks.toList = before ++ after) (hsound : w.Sound) :
    Move.Effect ⟨w, running⟩ []
      ⟨{ w with tasks }, ⟨task.fiber, task.run, task.step, 0⟩ :: running⟩ where
  sound := ⟨hsound.owner, hsound.status⟩
  requests _ := List.prefix_refl _
  stands {fiber a} hst := by
    refine ⟨[], a, ⟨hst.phase, ?_⟩, .rest, rfl⟩
    have htokens := hst.tokens
    have hready' : World.ready { w with tasks } fiber =
        (before.filter (·.fiber = fiber) ++ after.filter (·.fiber = fiber)).map
          fun t => .active t.run t.step := by
      simp [World.ready, hw']
    have hparked' : World.parked { w with tasks } fiber = w.parked fiber := rfl
    by_cases hne : task.fiber = fiber
    · subst hne
      -- the task held all that there is of the fiber
      simp only [World.held, World.ready, hw, List.filter_append, List.filter_cons,
        decide_true, if_true, List.map_append, List.map_cons, List.append_assoc,
        List.cons_append] at htokens
      rw [← List.append_assoc] at htokens
      obtain ⟨hx, rfl, hy⟩ := Standing.eq_of_held htokens
      obtain ⟨hrunning, hbefore⟩ := List.append_eq_nil_iff.mp hx
      obtain ⟨hafter, hparked⟩ := List.append_eq_nil_iff.mp hy
      rw [World.held, hready', hparked', inHand_cons_self ⟨task.fiber, task.run, task.step, 0⟩]
      simp only [List.map_append, hrunning, hbefore, hafter, hparked]
      rfl
    · rw [← htokens, inHand_cons_other hne, World.held, World.held, hready', hparked']
      simp [World.ready, hw, hne]

/-- **What one move does.** -/
theorem Move.effect {budget : Nat} {s s' : Workshop} {events : List (FiberId × Event)}
    (h : Move budget s events s') (hvalid : s.Valid) : Move.Effect s events s' := by
  have hsound := hvalid.sound
  cases h with
  | pick hw hw' => exact effect_pick hw hw' hsound
  | @advance w before after slice m hm =>
    subst hm
    obtain ⟨a, ha⟩ := hvalid.stands slice.fiber
    obtain ⟨-, hin, -, -⟩ := stands_of_running ha
    simp only [Machine.advance, Slice.doings]
    generalize (if Machine.counts slice.step then slice.used + 1 else slice.used) = used
    by_cases hused : max budget 1 < used
    · -- the budget is used up: the fiber has to queue with its step
      simp only [if_pos hused]
      exact @effect_of_handsOver _ _ _ _ _ none _ _ _
        (World.handsOver_schedule hsound slice.fiber slice.run slice.step)
        (fun _ _ => rfl) .rest (by simp)
    · obtain ⟨es, hover⟩ := World.carryOut_handsOver hsound hin.phase
        ((w.divert slice.fiber slice.run slice.step).plan (w.pending slice.fiber) slice.fiber
          slice.run)
      have hlife := life_iteration w slice.fiber slice.run slice.step
      have hdoings : ∀ e ∈ (if slice.step.givesWay && w.mustStop slice.fiber slice.run
          then [Event.stopped w] else []) ++
            [.iterated w slice.run (w.divert slice.fiber slice.run slice.step)],
          e.isDoing = true := by
        split <;> simp [Event.isDoing]
      simp only [if_neg hused, World.iterate_eq_carryOut]
      generalize w.carryOut slice.fiber _ = progress at hover
      obtain ⟨progress, w'⟩ := progress
      cases progress with
      | none => exact @effect_of_handsOver _ _ _ _ _ none _ _ _ hover (fun _ _ => rfl) hlife hdoings
      | some next =>
        obtain ⟨run, step⟩ := next
        let next : Slice := ⟨slice.fiber, run, step, used⟩
        have hhand : inHand (some next).toList slice.fiber = [.active run step] := by
          simp [inHand, next]
        have hother : ∀ f, f ≠ slice.fiber → inHand (some next).toList f = [] := by
          intro f hne
          simp [inHand, next, Ne.symm hne]
        rw [Progress.hand, ← hhand] at hover
        exact @effect_of_handsOver _ _ _ _ _ (some next) _ _ _ hover hother hlife hdoings
  | interrupt target source =>
    obtain ⟨es, hes⟩ := (World.influences_interrupt hsound target source).carries
    exact effect_of_carries hes hsound _
  | act a =>
    obtain ⟨es, hes⟩ := (a.influences_run _).carries
    exact effect_of_carries hes hsound _
  | ring hm =>
    obtain ⟨world, hworld, rfl⟩ := Machine.of_ring hm
    obtain ⟨es, hes⟩ := hworld.carries
    exact effect_of_carries hes hsound _
  | @start w running effect environment report =>
    have hbears := w.store.bears_push
      (r := { observers := (report.map Observer.report).toList }) rfl rfl
    exact effect_of_carries (World.carries_birth hbears environment true effect) hsound _

/-! ### What a run does -/

theorem Move.valid {budget : Nat} {s s' : Workshop} {events : List (FiberId × Event)}
    (h : Move budget s events s') (hvalid : s.Valid) : s'.Valid where
  sound := (h.effect hvalid).sound
  stands fiber := by
    obtain ⟨a, ha⟩ := hvalid.stands fiber
    obtain ⟨es, b, hb, -, -⟩ := (h.effect hvalid).stands ha
    exact ⟨b, hb⟩

theorem stands_init (minted : Nat) (fiber : FiberId) : (init minted).Stands fiber .unborn := by
  refine ⟨?_, rfl⟩
  have hnone : (World.init minted).store.fiber? fiber = none := by
    simp [World.init, Store.init, Store.fiber?, Numbered.get?, Numbered.startingAt]
  change (World.init minted).phase fiber = none
  rw [World.phase, hnone]
  rfl

theorem valid_init (minted : Nat) : (init minted).Valid where
  sound := by
    refine ⟨fun {id r s} hr _ => ?_, fun {s p run} hp _ => ?_⟩
    · simp [init, World.init, Store.init, Store.fiber?, Numbered.get?, Numbered.startingAt] at hr
    · simp [init, World.init, World.suspension?, Numbered.get?] at hp
  stands fiber := ⟨_, stands_init minted fiber⟩

/-- A fiber does things in the world that it finds. -/
theorem Move.world_of_mem {budget : Nat} {s s' : Workshop} {events : List (FiberId × Event)}
    (h : Move budget s events s') {e : FiberId × Event} (he : e ∈ events) {w : World}
    (hw : e.2.world? = some w) : w = s.world := by
  cases h with
  | pick | interrupt _ _ | act _ | ring | start _ _ _ => cases he
  | @advance v before after slice m hm =>
    obtain ⟨event, hevent, rfl⟩ := List.mem_map.mp he
    simp only [Slice.doings] at hevent
    generalize (if Machine.counts slice.step then slice.used + 1 else slice.used) = used at hevent
    split at hevent
    · cases hevent
    · rcases List.mem_append.mp hevent with hmem | hmem
      · split at hmem
        · rw [List.mem_singleton.mp hmem] at hw
          exact (Option.some.inj hw).symm
        · cases hmem
      · rw [List.mem_singleton.mp hmem] at hw
        exact (Option.some.inj hw).symm

namespace Run

variable {budget minted : Nat} {s s' s'' : Workshop} {record record' : List (FiberId × Event)}

theorem append (h : Run budget s record s') (h' : Run budget s' record' s'') :
    Run budget s (record ++ record') s'' := by
  induction h with
  | rest => exact h'
  | move hmove _ ih =>
    rw [List.append_assoc]
    exact .move hmove (ih h')

/-- A move in which no fiber does anything. -/
theorem idle (h : Move budget s [] s') (h' : Run budget s' record s'') :
    Run budget s record s'' := by
  have hrun := Run.move h h'
  rwa [List.nil_append] at hrun

theorem valid (h : Run budget s record s') (hvalid : s.Valid) : s'.Valid := by
  induction h with
  | rest => exact hvalid
  | move hmove _ ih => exact ih (hmove.valid hvalid)

/-- A run goes on with the history of a fiber. -/
theorem extends_history (h : Run budget s record s') (hvalid : s.Valid) {fiber : FiberId}
    {a : Standing} (ha : s.Stands fiber a) :
    ∃ es b, s'.Stands fiber b ∧ Life fiber a es b ∧
      es.filter Event.isDoing = eventsOf fiber record := by
  induction h generalizing a with
  | rest => exact ⟨[], a, ha, .rest, rfl⟩
  | move hmove _ ih =>
    obtain ⟨es, b, hb, hlife, hdoings⟩ := (hmove.effect hvalid).stands ha
    obtain ⟨es', c, hc, hlife', hdoings'⟩ := ih (hmove.valid hvalid) hb
    refine ⟨es ++ es', c, hc, hlife.append hlife', ?_⟩
    rw [List.filter_append, eventsOf_append, hdoings, hdoings']

/-- **Every fiber has a history in every run.** -/
theorem history (h : Run budget (init minted) record s) (fiber : FiberId) :
    ∃ es a, History s record fiber es a := by
  obtain ⟨es, a, ha, hlife, hdoings⟩ :=
    h.extends_history (valid_init minted) (stands_init minted fiber)
  exact ⟨es, a, hlife, ha, hdoings⟩

/-- **A request for interruption is never forgotten**, and the first one stays the first. -/
theorem requests (h : Run budget s record s') (hvalid : s.Valid) (fiber : FiberId) :
    s.world.requests fiber <+: s'.world.requests fiber := by
  induction h with
  | rest => exact List.prefix_refl _
  | move hmove _ ih =>
    exact ((hmove.effect hvalid).requests fiber).trans (ih (hmove.valid hvalid))

/-- The worlds in which things are done lie between the first one and the last one. -/
theorem requests_of_mem (h : Run budget s record s') (hvalid : s.Valid) {e : FiberId × Event}
    (he : e ∈ record) {w : World} (hw : e.2.world? = some w) (fiber : FiberId) :
    s.world.requests fiber <+: w.requests fiber ∧ w.requests fiber <+: s'.world.requests fiber := by
  induction h with
  | rest => cases he
  | move hmove hrest ih =>
    have hgrows := (hmove.effect hvalid).requests fiber
    rcases List.mem_append.mp he with hmem | hmem
    · rw [hmove.world_of_mem hmem hw]
      exact ⟨List.prefix_refl _, hgrows.trans (hrest.requests (hmove.valid hvalid) fiber)⟩
    · obtain ⟨hfirst, hlast⟩ := ih (hmove.valid hvalid) hmem
      exact ⟨hgrows.trans hfirst, hlast⟩

end Run

/-- What has not been requested in the end has never been requested. -/
theorem History.never_interrupted {budget minted : Nat} {s : Workshop}
    {record : List (FiberId × Event)} {fiber : FiberId} {es : List Event} {a : Standing}
    (h : History s record fiber es a) (hrun : Run budget (init minted) record s)
    (hfree : s.world.store.isInterrupted fiber = false) :
    ∀ ev ∈ es, ∀ w, ev.world? = some w → w.store.isInterrupted fiber = false := by
  intro ev hev w hw
  have hdoing : ev.isDoing = true := by
    cases ev with
    | stopped _ | iterated _ _ _ => rfl
    | started _ _ _ | resumed _ | cancelled _ => cases hw
  have hrequests :=
    (hrun.requests_of_mem (valid_init minted) ((h.mem_iff hdoing).mp hev) hw fiber).2
  cases hflag : w.store.isInterrupted fiber with
  | false => rfl
  | true =>
    rw [World.isInterrupted_of_requests hrequests hflag] at hfree
    cases hfree

end Workshop

/-! ### The machine -/

namespace Machine

theorem budget_advance (m : Machine) (slice : Slice) : (m.advance slice).budget = m.budget := by
  simp only [advance]
  generalize (if counts slice.step then slice.used + 1 else slice.used) = used
  split
  · rfl
  · split <;> rfl

/-- What the running fiber does in the next move of the machine. -/
def doings (m : Machine) : List (FiberId × Event) :=
  m.running.toList.flatMap fun slice => (slice.doings m.budget m.world).map (slice.fiber, ·)

/-- What the fibers do in a number of moves of the machine. -/
def record (awaited : Option FiberId) : Nat → Machine → List (FiberId × Event)
  | 0, _ => []
  | n + 1, m =>
    match m.step? awaited with
    | none => []
    | some m' => m.doings ++ record awaited n m'

/-- A move of the machine is a move of the workshop. -/
theorem step?_move {awaited : Option FiberId} {m m' : Machine} (h : m.step? awaited = some m') :
    Workshop.Move m.budget m.workshop m.doings m'.workshop := by
  obtain ⟨budget, world, running⟩ := m
  simp only [step?] at h
  cases running with
  | some slice =>
    obtain rfl := Option.some.inj h
    simp only [doings, Option.toList_some, List.flatMap_singleton]
    exact .advance_one budget world slice
  | none =>
    simp only at h
    split at h
    · next task tasks hpop =>
      obtain rfl := Option.some.inj h
      exact .pick_first hpop
    · split at h
      · have hring := @Workshop.Move.ring budget world [] _ h
        obtain ⟨world', -, rfl⟩ := of_ring h
        exact hring
      · cases h

theorem budget_step? {awaited : Option FiberId} {m m' : Machine}
    (h : m.step? awaited = some m') : m'.budget = m.budget := by
  simp only [step?] at h
  split at h
  · obtain rfl := Option.some.inj h
    exact budget_advance m _
  · split at h
    · obtain rfl := Option.some.inj h
      rfl
    · split at h
      · obtain ⟨world, -, rfl⟩ := of_ring h
        rfl
      · cases h

theorem budget_moves (awaited : Option FiberId) (n : Nat) (m : Machine) :
    (moves awaited n m).budget = m.budget := by
  induction n generalizing m with
  | zero => rfl
  | succ n ih =>
    simp only [moves]
    cases h : m.step? awaited with
    | none => rfl
    | some m' => exact (ih m').trans (budget_step? h)

/-- **The machine is a workshop**: whatever it does is a run of it. -/
theorem moves_run (awaited : Option FiberId) (n : Nat) (m : Machine) :
    Workshop.Run m.budget m.workshop (record awaited n m) (moves awaited n m).workshop := by
  induction n generalizing m with
  | zero => exact .rest
  | succ n ih =>
    simp only [moves, record]
    cases h : m.step? awaited with
    | none => exact .rest
    | some m' =>
      have hrun := ih m'
      rw [budget_step? h] at hrun
      exact .move (step?_move h) hrun

end Machine

end Fibers
