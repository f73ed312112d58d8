import Fibers.Proofs.Privacy
import Fibers.Proofs.Prudence

/-!
# Children that nobody else is told of

In a prudent run nobody waits for the children of an effect that keeps them to itself, but the fiber
that evaluates the effect, while it does.  Before the evaluation there are no such children; in the
course of it, whatever the fiber does above the state from which the evaluation began, and nobody
else, may wait for them; when it is over nothing tells of them any more.  So the run is cut in three,
and each part keeps the secret.

## Main definitions

* `Workshop.IsAbout` — a fiber is running, and what it is about to do.

## Main results

* `Workshop.Evaluated.parts` — the record before, during and after an evaluation.
* `Workshop.Prudent.before_iteration` — a prudent run can be cut before an iteration.
* `Workshop.Guards.rewatch` — a running fiber is watched in another way.
* `Workshop.Prudent.awaited_between` — **if a fiber is watched from before it starts a child until it
  is done with that, it waits for the child in between, and nobody else does.**
* `Workshop.Prudent.awaitedWithin` — **in a prudent run whoever waits for a child of an effect that
  keeps it to itself does so in the course of its evaluation.**
* `Workshop.PrudentRun.confides` — **private children confide in the fiber that has started them.**
* `Workshop.prudent_begun` — the machine runs an effect that is built without handles prudently.
-/

namespace Fibers

/-! ### Courses without stops -/

/-- An active fiber that never stops goes on with what it is about to do. -/
theorem Course.of_unstopped {fiber : FiberId} {I : Standing → Prop} {run : RunState} {step : Step}
    {es : List Event} {b : Standing} (h : Course fiber I (.active run step) es b)
    (hunstopped : ∀ w, .stopped w ∉ es) :
    (es = [] ∧ b = .active run step) ∨ ∃ w es', es = .iterated w run step :: es' := by
  cases h with
  | rest => exact Or.inl ⟨rfl, rfl⟩
  | go _ hgoes _ =>
    cases hgoes with
    | stopped _ _ => exact absurd List.mem_cons_self (hunstopped _)
    | iterated _ => exact Or.inr ⟨_, _, rfl⟩

/-- Inside of an evaluation nothing is handed an outcome on the floor. -/
theorem Course.not_on_floor {fiber : FiberId} {p : Bool → Prop} {base run : RunState} {step : Step}
    {a b : Standing} {es : List Event} {w : World} (h : Course fiber (Inside p base) a es b)
    (hmem : .iterated w run step ∈ es) (hstep : step.isOutcome = true) :
    some base.stack ≠ some run.stack := by
  intro heq
  obtain ⟨d, d', hd, hgoes⟩ := h.of_mem hmem
  cases hgoes with
  | iterated _ =>
    obtain rfl := hd.1.eq_of_length_le (Nat.le_of_eq (congrArg List.length (Option.some.inj heq)).symm)
    rw [hd.2 rfl] at hstep
    cases hstep

/-- Whoever keeps to a clearance without a floor does not wait for the secret fiber. -/
theorem waitsFor_of_guards {c : FiberId} {es : List Event} (h : ∀ e ∈ es, e.Guards c (.keeps none)) :
    waitsFor c es = [] := by
  rw [waitsFor, List.filter_eq_nil_iff]
  intro registration hmem hfor
  obtain ⟨a, ha, hwait⟩ := List.mem_filterMap.mp hmem
  obtain ⟨e, he, hact⟩ := List.mem_filterMap.mp ha
  have hguards := h e he
  unfold Event.act? at hact
  split at hact
  · obtain rfl := Option.some.inj hact
    cases hwait
  · obtain rfl := Option.some.inj hact
    cases hwait
  · obtain rfl := Option.some.inj hact
    obtain rfl := Option.some.inj hwait
    exact Bool.false_ne_true (hguards.isSome_of_wait hfor)
  · cases hact

namespace Workshop

variable {budget minted : Nat} {s s' t : Workshop} {record events before after : List (FiberId × Event)}
  {told told' : FiberId → Prop} {fiber c f : FiberId} {w : World} {base run : RunState} {step : Step}
  {i : Instruction} {during : List Event} {o : Outcome} {watch : FiberId → Watch} {keep : Watch}
  {daemon : Bool}

/-! ### The parts of a run -/

/-- What a fiber does stands in the record between what it does before and after. -/
theorem exists_record_of_eventsOf {e : Event} {es es' : List Event}
    (h : eventsOf f record = es ++ e :: es') : ∃ before after,
      record = before ++ (f, e) :: after ∧ eventsOf f before = es ∧ eventsOf f after = es' := by
  have hget : (eventsOf f record)[es.length]? = some e := by
    rw [h, List.getElem?_append_right (Nat.le_refl _), Nat.sub_self, List.getElem?_cons_zero]
  obtain ⟨before, after, rfl, hbefore⟩ := exists_record_of_doing hget
  rw [h, List.take_left] at hbefore
  refine ⟨before, after, rfl, hbefore, ?_⟩
  rw [eventsOf_append, hbefore, ← List.singleton_append, eventsOf_append, eventsOf_self] at h
  exact (List.cons.inj (List.append_cancel_left h)).2

/-- **The record before, during and after an evaluation** by a fiber that is not asked to stop. -/
theorem Evaluated.parts (hdone : Evaluated s record fiber base i during o)
    (h : Run budget (init minted) record s) (hfree : s.world.store.isInterrupted fiber = false) :
    (∀ w, (fiber, .stopped w) ∉ record) ∧ ∃ before w rest after,
      record = before ++ ((fiber, .iterated w base (.eval i)) :: rest ++ after) ∧
      eventsOf fiber ((fiber, .iterated w base (.eval i)) :: rest) =
        during.filter Event.isDoing ∧
      (after = [] ∨ ∃ w' later, after = (fiber, .iterated w' base (.ofOutcome o)) :: later) := by
  obtain @⟨first, last, a, hbefore, hcourse, hafter, hhistory⟩ := hdone
  have hunstopped : ∀ w, .stopped w ∉ first ++ (during ++ last) := fun w hmem => by
    rw [hhistory.asked_of_stopped h hmem] at hfree
    cases hfree
  refine ⟨fun w hmem => hunstopped w ((hhistory.mem_iff rfl).mpr hmem), ?_⟩
  -- the evaluation begins with an iteration
  obtain ⟨-, heq⟩ | ⟨w, rest, rfl⟩ := hcourse.of_unstopped fun w hmem =>
    hunstopped w (List.mem_append_right _ (List.mem_append_left _ hmem))
  · cases o with
    | done v => cases heq
    | halt failure => cases heq
  have hdoings := hhistory.doings.symm
  rw [List.filter_append, List.filter_append, List.filter_cons_of_pos rfl, List.cons_append]
    at hdoings
  obtain ⟨before, later, rfl, -, hlater⟩ := exists_record_of_eventsOf hdoings
  obtain ⟨rfl, -⟩ | ⟨w', rest', rfl⟩ := hafter.of_unstopped fun w hmem =>
    hunstopped w (List.mem_append_right _ (List.mem_append_right _ hmem))
  · -- it has settled, and nothing has been done since
    refine ⟨before, w, later, [], by rw [List.append_nil], ?_, Or.inl rfl⟩
    rw [← List.singleton_append, eventsOf_append, eventsOf_self, hlater, List.filter_nil,
      List.append_nil, List.filter_cons_of_pos rfl, List.singleton_append]
  · rw [List.filter_cons_of_pos rfl] at hlater
    obtain ⟨rest, later', rfl, hrest, -⟩ := exists_record_of_eventsOf hlater
    refine ⟨before, w, rest, _, rfl, ?_, Or.inr ⟨w', later', rfl⟩⟩
    rw [← List.singleton_append, eventsOf_append, eventsOf_self, hrest,
      List.filter_cons_of_pos rfl, List.singleton_append]

/-- A fiber is running, and this is what it is about to do. -/
def IsAbout (s : Workshop) (f : FiberId) (run : RunState) (step : Step) : Prop :=
  ∃ slice ∈ s.running, slice.fiber = f ∧ slice.run = run ∧ slice.step = step

/-- Whoever is running is there, and has not finished. -/
theorem IsAbout.phase (h : s.IsAbout f run step) (hvalid : s.Valid) :
    s.world.phase f = some false := by
  obtain ⟨w, running⟩ := s
  obtain ⟨slice, hmem, rfl, -, -⟩ := h
  obtain ⟨left, right, rfl⟩ := List.append_of_mem hmem
  obtain ⟨a, ha⟩ := hvalid.stands slice.fiber
  exact (stands_of_running ha).2.1.phase

/-- Whoever iterates is in its turn before, or has stopped. -/
theorem Move.isAbout {stops : List (FiberId × Event)}
    (h : Move budget s (stops ++ [(f, .iterated w run step)]) s') :
    (stops = [] ∧ s.IsAbout f run step) ∨
      (f, .stopped w) ∈ stops ∧ ∃ source, step = .interrupt source := by
  generalize hevents : stops ++ [(f, Event.iterated w run step)] = events at h
  cases h with
  | pick | interrupt _ _ | act _ | ring | start _ _ _ => simp at hevents
  | @advance v left right slice m hm =>
    simp only [Slice.doings, World.divert_eq] at hevents
    generalize (if Machine.counts slice.step then slice.used + 1 else slice.used) = used at hevents
    by_cases hused : max budget 1 < used
    · rw [if_pos hused] at hevents
      simp at hevents
    · rw [if_neg hused, List.map_append] at hevents
      obtain ⟨rfl, hlast⟩ := List.append_inj' hevents rfl
      obtain ⟨rfl, hevent⟩ := Prod.mk.inj (List.cons.inj hlast).1
      obtain ⟨rfl, rfl, rfl⟩ := Event.iterated.inj hevent
      split
      · exact Or.inr ⟨List.mem_singleton_self _, _, rfl⟩
      · exact Or.inl ⟨rfl, slice, List.mem_append_right _ List.mem_cons_self, rfl, rfl, rfl⟩

/-- **A prudent run can be cut before an iteration** of a fiber that has not stopped in that. -/
theorem Prudent.before_iteration
    (h : Prudent budget told s (before ++ (f, .iterated w run step) :: after) told' t)
    (hunstopped : (f, .stopped w) ∈ before → ∀ source, step ≠ .interrupt source) :
    ∃ told₁ s₁, Prudent budget told s before told₁ s₁ ∧
      Prudent budget told₁ s₁ ((f, .iterated w run step) :: after) told' t ∧
        s₁.IsAbout f run step := by
  generalize hrecord : before ++ (f, Event.iterated w run step) :: after = record at h
  induction h generalizing before with
  | rest => simp at hrecord
  | @move told told' choice s s' t events record hminds hmakes hrest ih =>
    rcases List.append_eq_append_iff.mp hrecord with ⟨more, rfl, hmore⟩ | ⟨more, rfl, hmore⟩
    · cases more with
      | nil =>
        -- the iteration is the first one after this move
        obtain ⟨told₁, s₁, hfirst, hlater, habout⟩ := @ih [] nofun hmore
        rw [List.append_nil] at hmakes
        refine ⟨told₁, s₁, ?_, hlater, habout⟩
        rw [← List.append_nil before]
        exact .move hminds hmakes hfirst
      | cons e more =>
        -- this move is the one in which the fiber iterates
        obtain ⟨rfl, rfl⟩ := List.cons.inj hmore
        obtain rfl := hmakes.move.last_iterated
        rcases hmakes.move.isAbout with ⟨rfl, habout⟩ | ⟨hmem, source, rfl⟩
        · exact ⟨told, s, .rest, .move hminds hmakes hrest, habout⟩
        · exact absurd rfl (hunstopped hmem source)
    · obtain ⟨told₁, s₁, hfirst, hlater, habout⟩ :=
        ih (fun hmem => hunstopped (List.mem_append_right _ hmem)) hmore.symm
      exact ⟨told₁, s₁, .move hminds hmakes hfirst, hlater, habout⟩

/-- **The parts of a prudent run** before, during and after an evaluation by a fiber that is not asked
to stop. -/
theorem Prudent.parts (h : Prudent budget told (init minted) record told' t)
    (hdone : Evaluated t record fiber base i during o)
    (hfree : t.world.store.isInterrupted fiber = false) :
    ∃ before mid after told₁ s₁ told₂ s₂, record = before ++ (mid ++ after) ∧
      eventsOf fiber mid = during.filter Event.isDoing ∧
      Prudent budget told (init minted) before told₁ s₁ ∧ Prudent budget told₁ s₁ mid told₂ s₂ ∧
      Prudent budget told₂ s₂ after told' t ∧ s₁.IsAbout fiber base (.eval i) ∧
      (after = [] ∨ s₂.IsAbout fiber base (.ofOutcome o)) := by
  obtain ⟨hunstopped, before, w, rest, after, rfl, hmid, hafter⟩ := hdone.parts h.run hfree
  obtain ⟨told₁, s₁, h₁, hlater, habout₁⟩ := h.before_iteration fun _ _ => nofun
  have hlater' : Prudent budget told₁ s₁ (((fiber, .iterated w base (.eval i)) :: rest) ++ after)
      told' t := hlater
  rcases hafter with rfl | ⟨w', later, rfl⟩
  · rw [List.append_nil] at hlater'
    exact ⟨before, _, [], told₁, s₁, told', t, rfl, hmid, h₁, hlater', .rest, habout₁, Or.inl rfl⟩
  · obtain ⟨told₂, s₂, h₂, h₃, habout₂⟩ := hlater'.before_iteration fun hmem =>
      absurd (List.mem_append_right _ (List.mem_append_left _ hmem)) (hunstopped _)
    exact ⟨before, _, _, told₁, s₁, told₂, s₂, rfl, hmid, h₁, h₂, h₃, habout₁, Or.inr habout₂⟩

/-! ### Other watches -/

/-- However a fiber is watched, a wait at which it is not parked keeps to that. -/
theorem suspension_guards_of_held {p : Suspension} {keep' : Watch}
    (h : p.Guards c keep) (hheld : p.state.run? = none) : p.Guards c keep' := by
  unfold Suspension.Guards at h ⊢
  cases hstate : p.state with
  | waiting run onInterrupt =>
    rw [hstate] at hheld
    cases hheld
  | early o =>
    rw [hstate] at h
    exact h
  | _ => trivial

/-- **A running fiber is watched in another way**, if what it is about to do keeps to that. -/
theorem Guards.rewatch (h : s.Guards c watch) (hvalid : s.Valid) (habout : s.IsAbout f run step)
    (hruns : keep.Runs c run step) : s.Guards c (Function.update watch f keep) := by
  obtain ⟨w, running⟩ := s
  obtain ⟨slice, hmem, rfl, rfl, rfl⟩ := habout
  obtain ⟨left, right, rfl⟩ := List.append_of_mem hmem
  obtain ⟨a, ha⟩ := hvalid.stands slice.fiber
  obtain ⟨-, hin, hleft, hright⟩ := stands_of_running ha
  obtain ⟨hready, hparked⟩ := List.append_eq_nil_iff.mp hin.held
  have hothers : ∀ {slices : List Slice}, inHand slices slice.fiber = [] →
      ∀ n ∈ slices, n.fiber ≠ slice.fiber := fun hnone n hn heq =>
    List.filter_eq_nil_iff.mp (List.map_eq_nil_iff.mp hnone) n hn (decide_eq_true heq)
  refine ⟨⟨h.world.store, fun {n p} hp => ?_, fun t ht => ?_, h.world.releases, h.world.owner⟩,
    fun n hn => ?_⟩
  · by_cases hself : p.fiber = slice.fiber
    · -- it is not parked
      refine suspension_guards_of_held (h.world.places hp) ?_
      obtain ⟨first, last, hentries, -⟩ := Numbered.entries_of_get? hp id
      have hentry : p ∈ w.suspensions.entries.toList :=
        hentries ▸ List.mem_append_right _ List.mem_cons_self
      have hheld := List.flatMap_eq_nil_iff.mp hparked p hentry
      rw [Suspension.held, if_pos hself] at hheld
      simpa using hheld
    · rw [Function.update_of_ne hself]
      exact h.world.places hp
  · have hne : t.fiber ≠ slice.fiber := fun heq =>
      List.filter_eq_nil_iff.mp (List.map_eq_nil_iff.mp hready) t ht (decide_eq_true heq)
    rw [Function.update_of_ne hne]
    exact h.world.tasks t ht
  · rcases List.mem_append.mp hn with hn' | hn'
    · rw [Function.update_of_ne (hothers hleft n hn')]
      exact h.running n hn
    · rcases List.mem_cons.mp hn' with rfl | hn'
      · rw [Function.update_self]
        exact hruns
      · rw [Function.update_of_ne (hothers hright n hn')]
        exact h.running n hn

/-- What a running fiber is about to do keeps to its clearance. -/
theorem Guards.runs (h : s.Guards c watch) (habout : s.IsAbout f run step) :
    (watch f).Runs c run step := by
  obtain ⟨slice, hmem, rfl, rfl, rfl⟩ := habout
  exact h.running slice hmem

end Workshop

/-- A fiber that begins with an effect that keeps to itself what it starts gets a floor. -/
theorem Watch.Runs.enter {c : FiberId} {ε : ErrorType} {e : Effect ε} {base : RunState}
    (h : (Watch.keeps none).Runs c base (.eval e)) (hprivate : e.IsPrivate) :
    (Watch.keeps (some base.stack)).Runs c base (.eval e) := by
  obtain ⟨t, hbase, he⟩ := h
  exact ⟨t, ⟨.floor rfl (hbase.stack.changeFloor rfl), hbase.environments⟩, hprivate he⟩

/-- When it is done it goes on without. -/
theorem Watch.Runs.leave {c : FiberId} {base : RunState} {o : Outcome}
    (h : (Watch.keeps (some base.stack)).Runs c base (.ofOutcome o)) :
    (Watch.keeps none).Runs c base (.ofOutcome o) := by
  obtain ⟨t, hbase, ho⟩ := h
  refine ⟨t, ⟨hbase.stack.of_floor, hbase.environments⟩, ?_⟩
  cases o with
  | done v => exact ho
  | halt failure => exact ho

namespace Workshop

variable {budget minted : Nat} {s : Workshop} {record : List (FiberId × Event)}
  {told : FiberId → Prop} {fiber c : FiberId} {base : RunState} {during : List Event} {o : Outcome}
  {ε : ErrorType} {e : Effect ε} {daemon : Bool}

/-! ### Private children -/

/-- Where nobody starts the secret fiber there is nothing to be seen to without a floor. -/
theorem heeds_of_not_forked (h : ∀ daemon f, ¬ Forked record daemon f c) :
    ∀ p ∈ record, p.2.Heeds c p.1 (.keeps none) := by
  rintro ⟨f, event⟩ hmem
  cases event with
  | iterated w run step =>
    refine ⟨fun _ => nofun, ?_⟩
    rintro child daemon rfl rfl
    exact absurd ⟨_, hmem, rfl⟩ (h daemon f)
  | started _ _ _ | stopped _ | resumed _ | cancelled _ => trivial

/-- Where only one fiber starts the secret one there is nothing else to be seen to. -/
theorem heeds_of_only {keep : Watch} (hown : ∀ e ∈ eventsOf fiber record, e.Heeds c fiber keep)
    (honly : ∀ {daemon f}, Forked record daemon f c → f = fiber) :
    ∀ q ∈ record, q.2.Heeds c q.1 (Function.update (fun _ => Watch.keeps none) fiber keep q.1) := by
  rintro ⟨f, event⟩ hmem
  by_cases hself : f = fiber
  · subst hself
    rw [Function.update_self]
    exact hown event (mem_eventsOf.mpr hmem)
  · rw [Function.update_of_ne hself]
    cases event with
    | iterated w run step =>
      refine ⟨fun _ => nofun, ?_⟩
      rintro child daemon rfl rfl
      exact absurd (honly ⟨_, hmem, rfl⟩) hself
    | started _ _ _ | stopped _ | resumed _ | cancelled _ => trivial

/-- Whoever is watched in a way of its own is there. -/
theorem born_of_watched {run : RunState} {step : Step} {keep : Watch} (hvalid : s.Valid)
    (habout : s.IsAbout fiber run step) (f : FiberId)
    (hf : Function.update (fun _ => Watch.keeps none) fiber keep f ≠ .keeps none) :
    (s.world.store.fiber? f).isSome = true := by
  by_cases hself : f = fiber
  · subst hself
    obtain ⟨r, hr, -⟩ := Option.map_eq_some_iff.mp (habout.phase hvalid)
    rw [hr]
    rfl
  · exact absurd (Function.update_of_ne hself _ _) hf

section Parts

variable {s₁ s₂ : Workshop} {told₁ told₂ : FiberId → Prop} {before mid after : List (FiberId × Event)}
  {run : RunState} {step : Step} {keep : Watch}

/-- **Before a fiber is started nobody is told of it.** -/
theorem Prudent.guards_before (h₁ : Prudent budget (fun _ => False) (init minted) before told₁ s₁)
    (hlater : Run budget s₁ mid s) (hforked : Forked mid daemon fiber c) :
    s₁.Guards c (fun _ => .keeps none) ∧ ¬ told₁ c ∧ ∀ p ∈ before, p.2.Guards c (.keeps none) := by
  refine h₁.guards (valid_init minted) (guards_init c (fun _ => .keeps none) minted) id
    (fun _ hne => absurd rfl hne)
    (Or.inr ⟨mid, s, daemon, fiber, hlater, forked_append.mpr (Or.inr hforked)⟩)
    (heeds_of_not_forked fun daemon f hearly => ?_)
  exact hlater.not_forked_of_born (h₁.run.valid (valid_init minted))
    (h₁.run.isSome_of_forked (valid_init minted) hearly) _ _ hforked

/-- **If a fiber is watched from before it starts another one until it is done with that**, nobody
else waits for that one, nor does this one before or after. -/
theorem Prudent.awaited_between
    (h₁ : Prudent budget (fun _ => False) (init minted) before told₁ s₁)
    (h₂ : Prudent budget told₁ s₁ mid told₂ s₂) (h₃ : Prudent budget told₂ s₂ after told s)
    (hforked : Forked mid daemon fiber c) (habout₁ : s₁.IsAbout fiber run step)
    (henters : keep.Runs c run step) (hheeds : ∀ e ∈ eventsOf fiber mid, e.Heeds c fiber keep)
    (hleaves : after = [] ∨ ∃ run' step', s₂.IsAbout fiber run' step' ∧
      ((∀ e ∈ eventsOf fiber mid, e.Guards c keep) → keep.Runs c run' step' →
        (Watch.keeps none).Runs c run' step')) :
    (∀ f, f ≠ fiber → waitsFor c (eventsOf f (before ++ (mid ++ after))) = []) ∧
      waitsFor c (eventsOf fiber (before ++ (mid ++ after))) = waitsFor c (eventsOf fiber mid) := by
  have hsupervised := (h₁.run.append (h₂.run.append h₃.run)).supervised
  have hvalid₁ := h₁.run.valid (valid_init minted)
  have hvalid₂ := h₂.run.valid hvalid₁
  have hborn := h₂.run.isSome_of_forked hvalid₁ hforked
  obtain ⟨hs₁, huntold₁, hbefore⟩ := h₁.guards_before h₂.run hforked
  -- in between it is watched
  obtain ⟨hs₂, huntold₂, hduring⟩ := h₂.guards hvalid₁ (hs₁.rewatch hvalid₁ habout₁ henters)
    huntold₁ (born_of_watched hvalid₁ habout₁)
    (Or.inr ⟨[], s₂, daemon, fiber, .rest, by rwa [List.append_nil]⟩)
    (heeds_of_only hheeds fun hforked' => (hsupervised.once
      (forked_append.mpr (Or.inr (forked_append.mpr (Or.inl hforked'))))
      (forked_append.mpr (Or.inr (forked_append.mpr (Or.inl hforked))))).1)
  have hafter : ∀ p ∈ after, p.2.Guards c (.keeps none) := by
    rcases hleaves with rfl | ⟨run', step', habout₂, hleaves⟩
    · exact nofun
    · have hruns := hs₂.runs habout₂
      rw [Function.update_self] at hruns
      have hown : ∀ e ∈ eventsOf fiber mid, e.Guards c keep := fun e he => by
        have hguards := hduring _ (mem_eventsOf.mp he)
        rwa [Function.update_self] at hguards
      have hs₂' := hs₂.rewatch hvalid₂ habout₂ (hleaves hown hruns)
      rw [Function.update_idem, Function.update_eq_self_iff.mpr rfl] at hs₂'
      exact (h₃.guards hvalid₂ hs₂' huntold₂ (fun _ hne => absurd rfl hne) (Or.inl hborn)
        (heeds_of_not_forked (h₃.run.not_forked_of_born hvalid₂ hborn))).2.2
  have hnone : ∀ {part : List (FiberId × Event)} {f : FiberId},
      (∀ p ∈ part, p.2.Guards c (.keeps none)) → waitsFor c (eventsOf f part) = [] := fun hpart =>
    waitsFor_of_guards fun event hmem => hpart _ (mem_eventsOf.mp hmem)
  constructor
  · intro f hne
    rw [eventsOf_append, eventsOf_append, waitsFor_append, waitsFor_append, hnone hbefore,
      hnone hafter, List.nil_append, List.append_nil]
    refine waitsFor_of_guards fun event hmem => ?_
    have hguards := hduring _ (mem_eventsOf.mp hmem)
    rwa [Function.update_of_ne hne] at hguards
  · rw [eventsOf_append, eventsOf_append, waitsFor_append, waitsFor_append, hnone hbefore,
      hnone hafter, List.nil_append, List.append_nil]

end Parts

/-- **In a prudent run whoever waits for a child of an effect that keeps it to itself does so in the
course of its evaluation**, if the fiber that evaluates it is not asked to stop. -/
theorem Prudent.awaitedWithin
    (h : Prudent budget (fun _ => False) (init minted) record told s)
    (hdone : Evaluated s record fiber base e during o)
    (hfree : s.world.store.isInterrupted fiber = false) (hprivate : e.IsPrivate)
    (hstarts : ∃ event ∈ during, event.starts? = some (c, daemon)) :
    AwaitedWithin record fiber during c := by
  obtain ⟨before, mid, after, told₁, s₁, told₂, s₂, rfl, hmid, h₁, h₂, h₃, habout₁, habout₂⟩ :=
    h.parts hdone hfree
  obtain @⟨-, -, -, -, hcourse, -, -⟩ := hdone
  have hown : ∀ event ∈ eventsOf fiber mid, event ∈ during := fun event hmem =>
    List.mem_of_mem_filter (hmid ▸ hmem)
  -- the child is started in the course of it
  have hforked : Forked mid daemon fiber c := by
    obtain ⟨event, hmem, hevent⟩ := hstarts
    refine ⟨event, mem_eventsOf.mp (hmid ▸ List.mem_filter.mpr ⟨hmem, ?_⟩), hevent⟩
    obtain ⟨w, run, i, rfl, -⟩ := Event.of_starts hevent
    rfl
  -- the fiber gets a floor for as long as it lasts
  have hruns := (h₁.guards_before h₂.run hforked).1.runs habout₁
  obtain ⟨hnobody, hwaits⟩ := h₁.awaited_between h₂ h₃ hforked habout₁ (hruns.enter hprivate)
    (fun event hmem => by
      have hinside := hown event hmem
      cases event with
      | iterated w run step => exact ⟨hcourse.not_on_floor hinside, fun _ _ _ _ => rfl⟩
      | started _ _ _ | stopped _ | resumed _ | cancelled _ => trivial)
    (habout₂.imp_right fun habout₂ => ⟨_, _, habout₂, fun _ hfloor => hfloor.leave⟩)
  refine ⟨hnobody, ?_⟩
  rw [hwaits, hmid, waitsFor, acts_filter, waitsFor]

/-- **Private children confide** in the fiber that has started them, in a prudent run, if it waits
for each among others first and then once for its exit. -/
theorem PrudentRun.confides (h : PrudentRun budget minted record s)
    (hdone : Evaluated s record fiber base e during o)
    (hfree : s.world.store.isInterrupted fiber = false) (hprivate : e.IsPrivate)
    {restore : Restore} {children : List FiberId} {effects : List Instruction} {later : List Act}
    {first : Registration}
    (hacts : acts during = (startAll restore children effects).map .deals ++ later)
    (hlength : children.length = effects.length)
    (hwaits : ∀ c ∈ children,
      (waited later).filter (Registration.isFor c) <+: [first, .awaitExit c ε])
    (hamong : ∀ c type, first ≠ .awaitExit c type) :
    ∀ c ∈ children, Confides s record fiber c first ε := by
  intro c hc
  obtain ⟨told, h⟩ := h
  obtain ⟨i, hforks⟩ := @exists_forks restore children effects hlength c hc
  obtain ⟨event, hmem, hact⟩ := List.mem_filterMap.mp
    (show .forks c i ∈ acts during from hacts ▸ List.mem_append_left _ hforks)
  obtain ⟨daemon, hstarts⟩ := starts_of_act hact
  exact (h.awaitedWithin hdone hfree hprivate ⟨event, hmem, hstarts⟩).confides h.run hdone hacts
    hlength hc (hwaits c hc) (hamong c)

/-- **An effect that is built without handles is run by the machine in a prudent run.** -/
theorem prudent_begun {i : Instruction} (hi : ∀ c, i.Guards c .none) (n : Nat) :
    PrudentRun 16 0 (recordBegun i n) (afterBegun i n) := by
  obtain ⟨told, hrest⟩ := prudent_moves
    (ToldBy (fun _ => False) (.start i .unit none) (init 0) (begun i 0).workshop) none n (begun i 0)
  exact ⟨told, .move (.start none fun c _ => ⟨hi c, .unit⟩) (.start i .unit none) hrest⟩

end Workshop

end Fibers
