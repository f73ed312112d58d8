import Fibers.Proofs.Blindness
import Fibers.Proofs.Lineage
import Fibers.Proofs.SecretIteration

/-!
# Runs in which nobody makes up a handle

The handle of a fiber is what one is given when one starts it, or what one has been told by somebody
who has it.  A run is prudent if those outside keep to that: they do not bring in anything that tells
of a fiber of which nobody has told them, and no code that waits for it.  Whatever the fibers of such
a run do then, nothing tells of a fiber that is kept secret by the one who has started it.

The argument is one invariant for a given fiber, kept by every move of a run, for given watch.  A
fiber that is about to start others for itself gets a floor, and loses it when it is done; each of
the parts of the run before, during and after keeps the invariant.

## Main definitions

* `Choice.Minds`, `Workshop.Prudent`, `Workshop.PrudentRun` — runs in which those outside know only
  what they are told.
* `Workshop.Guards` — a workshop that keeps a fiber secret.
* `Event.Heeds`, `Event.Guards` — what is to be seen to in an iteration, and what comes of it.

## Main results

* `Workshop.Makes.guards` — what happens leaves a workshop that keeps the secret.
* `Workshop.Prudent.guards` — **so does a part of a prudent run**, and whoever waits for the secret
  fiber in it is above a floor.
-/

namespace Fibers

/-! ### What comes from outside -/

/-- What comes from outside has not been told of any fiber but those in `told`. -/
inductive Choice.Minds (told : FiberId → Prop) : Choice → Prop where
  | pick (n : Nat) : Minds told (.pick n)
  | advance (n : Nat) : Minds told (.advance n)
  | interrupt (target source : FiberId) : Minds told (.interrupt target source)
  | act {α : Type} {a : Action α} : (∀ c, ¬ told c → a.Discreet c) → Minds told (.act a)
  | ring : Minds told .ring
  | start {effect : Instruction} {environment : Value} (report : Option ErrorType) :
      (∀ c, ¬ told c → effect.Guards c .none ∧ environment.Omits c) →
      Minds told (.start effect environment report)

namespace Workshop

variable {budget minted : Nat} {s s' t : Workshop} {events record : List (FiberId × Event)}
  {told told' : FiberId → Prop} {choice : Choice} {c fiber : FiberId}
  {watch : FiberId → Watch}

/-- The fiber that comes to be by what is chosen to happen in a workshop. -/
def rootOf (s : Workshop) : Choice → Option FiberId
  | .start _ _ _ => some s.world.store.nextFiber
  | _ => none

/-- Of whom those outside have been told when something has happened: of whom they had been before,
of whom they have started, and of whom there is anything to be seen. -/
def ToldBy (told : FiberId → Prop) (choice : Choice) (s s' : Workshop) (c : FiberId) : Prop :=
  told c ∨ s.rootOf choice = some c ∨ ¬ s'.world.store.Omits c

/-- `Prudent budget told s record told' t` says that in a run those outside bring in nothing that
tells of a fiber of which they have not been told by then; they have been told of those in `told` in
the beginning, and of those in `told'` in the end. -/
inductive Prudent (budget : Nat) : (FiberId → Prop) → Workshop → List (FiberId × Event) →
    (FiberId → Prop) → Workshop → Prop where
  | rest {told : FiberId → Prop} {s : Workshop} : Prudent budget told s [] told s
  | move {told told' : FiberId → Prop} {choice : Choice} {s s' t : Workshop}
      {events record : List (FiberId × Event)} : choice.Minds told →
      Makes budget choice s events s' →
      Prudent budget (ToldBy told choice s s') s' record told' t →
      Prudent budget told s (events ++ record) told' t

/-- A run from the beginning in which nobody makes up a handle. -/
def PrudentRun (budget minted : Nat) (record : List (FiberId × Event)) (t : Workshop) : Prop :=
  ∃ told, Prudent budget (fun _ => False) (init minted) record told t

theorem Prudent.run (h : Prudent budget told s record told' t) : Run budget s record t := by
  induction h with
  | rest => exact .rest
  | move _ hmakes _ ih => exact .move hmakes.move ih

theorem PrudentRun.run (h : PrudentRun budget minted record t) : Run budget (init minted) record t :=
  let ⟨_, h⟩ := h
  h.run

/-- **What the machine does is prudent**, for nothing comes from outside. -/
theorem prudent_moves (told : FiberId → Prop) (awaited : Option FiberId) (n : Nat) (m : Machine) :
    ∃ told', Prudent m.budget told m.workshop (m.record awaited n) told'
      (m.moves awaited n).workshop := by
  induction n generalizing m told with
  | zero => exact ⟨told, .rest⟩
  | succ n ih =>
    simp only [Machine.moves, Machine.record]
    cases h : m.step? awaited with
    | none => exact ⟨told, .rest⟩
    | some m' =>
      obtain ⟨choice, hinner, hmakes⟩ := Makes.of_step h
      obtain ⟨told', hrest⟩ := ih (ToldBy told choice m.workshop m'.workshop) m'
      rw [Machine.budget_step? h] at hrest
      have hminds : choice.Minds told := by
        rcases hinner with rfl | rfl | rfl
        · exact .pick 0
        · exact .advance 0
        · exact .ring
      exact ⟨told', .move hminds hmakes hrest⟩

/-! ### Workshops that keep a fiber secret -/

/-- The world keeps a fiber secret, and so do the fibers that are running. -/
structure Guards (c : FiberId) (watch : FiberId → Watch) (s : Workshop) : Prop where
  world : s.world.Guards c watch
  running : ∀ slice ∈ s.running, (watch slice.fiber).Runs c slice.run slice.step

/-- Where nothing has been started there is nothing to tell. -/
theorem guards_init (c : FiberId) (watch : FiberId → Watch) (minted : Nat) :
    (init minted).Guards c watch where
  world := {
    store := {
      exits := fun hr _ => by simp [init, World.init, Store.init, Numbered.get?,
        Numbered.startingAt] at hr
      cells := fun hr => by simp [init, World.init, Store.init, Numbered.get?] at hr
      channels := fun hr => by simp [init, World.init, Store.init, Numbered.get?] at hr
      reports := nofun }
    places := fun hp => by simp [init, World.init, Numbered.get?] at hp
    tasks := nofun
    releases := fun hr => by simp [init, World.init, Numbered.get?] at hr
    owner := fun {fiber r s} hr _ => by
      simp [Store.fiber?, init, World.init, Store.init, Numbered.get?, Numbered.startingAt] at hr }
  running := nofun

end Workshop

/-- What a fiber does when it iterates is as it is watched for. -/
def Event.Guards (c : FiberId) (watch : Watch) : Event → Prop
  | .iterated _ run step => watch.Runs c run step
  | _ => True

/-- Whoever waits for the secret fiber is above a floor. -/
theorem Event.Guards.isSome_of_wait {c : FiberId} {floor : Option (List Frame)} {w : World}
    {run : RunState} {registration : Registration}
    (h : Event.Guards c (.keeps floor) (.iterated w run (.eval (.wait registration))))
    (hfor : registration.isFor c = true) : floor.isSome = true := by
  obtain ⟨t, -, hstep⟩ := h
  generalize hk : clearance floor t = k at hstep
  cases hstep with
  | wait hregistration =>
    subst hk
    cases hregistration with
    | awaitExit type hself => exact hself (of_decide_eq_true hfor)
    | firstDone hl hr =>
      rcases (Bool.or_eq_true ..).mp hfor with heq | heq
      · exact hl (of_decide_eq_true heq)
      · exact hr (of_decide_eq_true heq)
    | firstFailure hmem => exact hmem (List.contains_iff_mem.mp hfor)
    | callback | sleep | offer | take | awaitClose => cases hfor

namespace Workshop

variable {budget minted : Nat} {s s' t : Workshop} {events record : List (FiberId × Event)}
  {told told' : FiberId → Prop} {choice : Choice} {c fiber : FiberId}
  {watch : FiberId → Watch}

/-! ### Moves -/

/-- What a fiber does in its turn is as it is watched for. -/
theorem Guards.doings {w : World} {slice : Slice} {watch : Watch}
    (hslice : watch.Runs c slice.run slice.step) :
    ∀ e ∈ slice.doings budget w, e.Guards c watch := by
  intro e he
  simp only [Slice.doings] at he
  generalize (if Machine.counts slice.step then slice.used + 1 else slice.used) = used at he
  split at he
  · cases he
  · rcases List.mem_append.mp he with hstopped | hiterated
    · split at hstopped
      · obtain rfl := List.mem_singleton.mp hstopped
        trivial
      · cases hstopped
    · obtain rfl := List.mem_singleton.mp hiterated
      exact hslice.divert w slice.fiber

/-- An iteration, or the end of a turn, leaves a workshop that keeps the secret. -/
theorem Guards.advance {before after : List Slice} {slice : Slice} {w : World}
    (hs : Workshop.Guards c watch ⟨w, before ++ slice :: after⟩)
    (hnone : watch w.store.nextFiber = .keeps none)
    (hheeds : ∀ e ∈ slice.doings budget w, e.Heeds c slice.fiber (watch slice.fiber)) :
    Workshop.Guards c watch ⟨(Machine.advance { budget, world := w } slice).world,
      before ++ (Machine.advance { budget, world := w } slice).running.toList ++ after⟩ := by
  obtain ⟨hbefore, hrest⟩ := List.forall_mem_append.mp hs.running
  obtain ⟨hslice, hafter⟩ := List.forall_mem_cons.mp hrest
  have hothers : ∀ {next : List Slice},
      (∀ n ∈ next, (watch n.fiber).Runs c n.run n.step) →
      ∀ n ∈ before ++ next ++ after, (watch n.fiber).Runs c n.run n.step := by
    intro next hnext
    rw [List.forall_mem_append, List.forall_mem_append]
    exact ⟨⟨hbefore, hnext⟩, hafter⟩
  simp only [Slice.doings] at hheeds
  simp only [Machine.advance]
  generalize (if Machine.counts slice.step then slice.used + 1 else slice.used) = used at hheeds ⊢
  by_cases hused : max budget 1 < used
  · -- the budget is used up
    simp only [if_pos hused]
    exact ⟨hs.world.schedule hslice, hothers (List.forall_mem_nil _)⟩
  · simp only [if_neg hused] at hheeds ⊢
    obtain ⟨hworld, hprogress⟩ := hs.world.iterate hslice
      (hheeds _ (List.mem_append_right _ List.mem_cons_self)) hnone
    generalize w.iterate slice.fiber slice.run slice.step = result at hworld hprogress
    obtain ⟨progress, w'⟩ := result
    cases progress with
    | none => exact ⟨hworld, hothers (List.forall_mem_nil _)⟩
    | some next => exact ⟨hworld, hothers (List.forall_mem_singleton.mpr (hprogress next rfl))⟩

/-- An alarm that rings tells nobody of a fiber. -/
theorem guards_ring {w : World} {m : Machine} (h : w.Guards c watch)
    (hm : Machine.ring { budget, world := w } = some m) : m.world.Guards c watch := by
  unfold Machine.ring at hm
  simp only at hm
  split at hm
  · cases hm
  · next alarm alarms _ =>
    obtain rfl := Option.some.inj hm
    have hstore : ({ w.store with alarms, now := max w.store.now alarm.deadline } : Store).Omits c :=
      { h.store with }
    exact (h.withStore hstore rfl).tell alarm.payload .unit

/-- **What happens leaves a workshop that keeps the secret.** -/
theorem Makes.guards (h : Makes budget choice s events s') (hs : s.Guards c watch)
    (hminds : choice.Minds told) (huntold : ¬ told c)
    (hnone : watch s.world.store.nextFiber = .keeps none)
    (hheeds : ∀ p ∈ events, p.2.Heeds c p.1 (watch p.1)) :
    s'.Guards c watch ∧ ∀ p ∈ events, p.2.Guards c (watch p.1) := by
  cases h with
  | @pick w running tasks before after task hw htasks =>
    have hready : ∀ t ∈ before ++ task :: after, (watch t.fiber).Runs c t.run t.step :=
      fun t ht => hs.world.tasks t (hw ▸ ht)
    refine ⟨⟨⟨hs.world.store, hs.world.places, fun t ht => hready t ?_, hs.world.releases,
      hs.world.owner⟩, ?_⟩, nofun⟩
    · rw [htasks] at ht
      exact List.mem_append.mpr ((List.mem_append.mp ht).imp_right (List.mem_cons_of_mem _))
    · exact List.forall_mem_cons.mpr
        ⟨hready task (List.mem_append_right _ List.mem_cons_self), hs.running⟩
  | @advance w before after slice m hm =>
    subst hm
    refine ⟨hs.advance hnone fun e he => hheeds _ (List.mem_map_of_mem he), fun p hp => ?_⟩
    obtain ⟨e, he, rfl⟩ := List.mem_map.mp hp
    exact Guards.doings (hs.running _ (List.mem_append_right _ List.mem_cons_self)) e he
  | interrupt target source => exact ⟨⟨hs.world.interrupt target source, hs.running⟩, nofun⟩
  | act a =>
    cases hminds with
    | act ha => exact ⟨⟨(World.Guards.run (ha c huntold) hs.world).1, hs.running⟩, nofun⟩
  | ring hm => exact ⟨⟨guards_ring hs.world hm, hs.running⟩, nofun⟩
  | start effect environment report =>
    cases hminds with
    | start _ hguards =>
      obtain ⟨heffect, henvironment⟩ := hguards c huntold
      exact ⟨⟨hs.world.born true rfl rfl hnone henvironment heffect, hs.running⟩, nofun⟩

/-! ### Runs -/

/-- There is no fiber with the number that comes next. -/
theorem not_born_nextFiber (w : World) : ¬ (w.store.fiber? w.store.nextFiber).isSome = true := by
  rw [show w.store.fiber? w.store.nextFiber = none from Numbered.get?_next _]
  exact Bool.false_ne_true

/-- A fiber that there is already is not started. -/
theorem Run.not_forked_of_born (h : Run budget s record t) (hvalid : s.Valid)
    (hborn : (s.world.store.fiber? c).isSome) (daemon : Bool) (f : FiberId) :
    ¬ Forked record daemon f c := by
  rintro ⟨e, hmem, hstarts⟩
  obtain ⟨w, run, i, rfl, rfl⟩ := Event.of_starts hstarts
  exact not_born_nextFiber w ((h.lasts hvalid (lasting_born _) hborn).2 hmem rfl)

/-- A fiber that has been started is there. -/
theorem Run.isSome_of_forked (h : Run budget s record t) (hvalid : s.Valid) {daemon : Bool}
    {f : FiberId} (hforked : Forked record daemon f c) : (t.world.store.fiber? c).isSome := by
  obtain ⟨e, hmem, hstarts⟩ := hforked
  obtain ⟨w, run, i, rfl, rfl⟩ := Event.of_starts hstarts
  obtain ⟨before, after, rfl⟩ := List.append_of_mem hmem
  obtain ⟨s₁, s₂, pre, stops, rfl, hpre, hmove, hlater⟩ := h.at_iteration
  have hvalid₁ := hpre.valid hvalid
  obtain ⟨rfl, -, hworld, -⟩ := hmove.world_of_iterated hvalid₁
  refine (hlater.lasts (hmove.valid hvalid₁) (lasting_born _) ?_).1
  rw [hworld]
  exact s₁.world.born_fork f run i daemon (Or.inr rfl)

/-- Who is started from outside is started by nobody else. -/
theorem Makes.not_root (h : Makes budget choice s events s') (hvalid : s.Valid)
    (hrest : Run budget s' record t) (hstarted : (s.world.store.fiber? c).isSome ∨
      ∃ daemon f, Forked (events ++ record) daemon f c) : s.rootOf choice ≠ some c := by
  intro hroot
  cases h with
  | start effect environment report =>
    obtain rfl := Option.some.inj hroot
    rcases hstarted with hborn | ⟨daemon, f, hforked⟩
    · exact not_born_nextFiber _ hborn
    · refine hrest.not_forked_of_born ((Move.start effect environment report).valid hvalid) ?_
        daemon f hforked
      simp [Machine.startRoot, World.store_schedule, Store.fiber?_push]
  | _ => cases hroot

/-- **A part of a prudent run keeps a fiber secret**, if all is seen to that has to be; whoever waits
for the secret fiber in it is above a floor. -/
theorem Prudent.guards (h : Prudent budget told s record told' t) (hvalid : s.Valid)
    (hs : s.Guards c watch) (huntold : ¬ told c)
    (hborn : ∀ f, watch f ≠ .keeps none → (s.world.store.fiber? f).isSome = true)
    (hstarted : (s.world.store.fiber? c).isSome ∨ ∃ after u daemon f, Run budget t after u ∧
      Forked (record ++ after) daemon f c)
    (hheeds : ∀ p ∈ record, p.2.Heeds c p.1 (watch p.1)) :
    t.Guards c watch ∧ ¬ told' c ∧ ∀ p ∈ record, p.2.Guards c (watch p.1) := by
  induction h with
  | rest => exact ⟨hs, huntold, nofun⟩
  | @move told told' choice s s' t events record hminds hmakes hrest ih =>
    have hvalid' := hmakes.move.valid hvalid
    have hnone : watch s.world.store.nextFiber = .keeps none :=
      Classical.not_not.mp fun hne => not_born_nextFiber _ (hborn _ hne)
    obtain ⟨hs', hevents⟩ := hmakes.guards hs hminds huntold hnone
      fun p hp => hheeds p (List.mem_append_left _ hp)
    have hroot : s.rootOf choice ≠ some c := by
      rcases hstarted with hthere | ⟨after, u, daemon, f, hafter, hforked⟩
      · exact hmakes.not_root hvalid hrest.run (Or.inl hthere)
      · rw [List.append_assoc] at hforked
        exact hmakes.not_root hvalid (hrest.run.append hafter) (Or.inr ⟨daemon, f, hforked⟩)
    have huntold' : ¬ ToldBy told choice s s' c := by
      rintro (htold | hself | hseen)
      · exact huntold htold
      · exact hroot hself
      · exact hseen hs'.world.store
    have hstarted' : (s'.world.store.fiber? c).isSome ∨ ∃ after u daemon f, Run budget t after u ∧
        Forked (record ++ after) daemon f c := by
      rcases hstarted with hthere | ⟨after, u, daemon, f, hafter, hforked⟩
      · exact Or.inl (lasting_born c hvalid hmakes.move hthere)
      · rw [List.append_assoc, forked_append] at hforked
        rcases hforked with hfirst | hlater
        · exact Or.inl ((Run.move hmakes.move .rest).isSome_of_forked hvalid
            (forked_append.mpr (Or.inl hfirst)))
        · exact Or.inr ⟨after, u, daemon, f, hafter, hlater⟩
    obtain ⟨ht, huntold'', hlater⟩ := ih hvalid' hs' huntold'
      (fun f hf => lasting_born f hvalid hmakes.move (hborn f hf)) hstarted'
      fun p hp => hheeds p (List.mem_append_right _ hp)
    exact ⟨ht, huntold'', List.forall_mem_append.mpr ⟨hevents, hlater⟩⟩

end Workshop

end Fibers
