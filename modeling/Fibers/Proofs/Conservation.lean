import Fibers.Proofs.Shifts

/-!
# Conservation of tasks

A task gets a number when it is put into the line of a pool.  The accounts of a shift say
that every task is in one place: it waits in the shared line or in that of one worker, some
worker is busy with it, or it has been done; once the pool has been closed it may also have
been given up by a worker who leaves, or taken out of the shared line for nobody.  Whatever
happens only moves tasks from one place to another.

A worker that turns to the shared line has nothing in its own.  So a single worker never
puts a task in front of one that has waited longer, and does all tasks in the order in which
they were accepted.

## Main definitions

* `Shift.Moves`, `Shift.Accounts` — where the tasks go, and where they are.
* `Shift.Closing` — what holds of the closing of the pool.
* `Shift.InTurn` — in which order a single worker does the tasks.
* `Shift.IsOver` — all workers have gone.
* `Shift.Lawful` — the law of shifts.

## Main results

* `Shift.Does.moves` — whatever happens, tasks are only moved.
* `Shift.Does.inTurn` — whatever happens keeps a single worker's tasks in their order.
* `Shift.drain_of_log` — what is counted when the shared line is emptied.
* `Shift.loses_no_task` — every log of a new shift is lawful.
-/

namespace Fibers

variable {τ : Type}

namespace Shift

variable {s s' : Shift τ} {e : Event τ} {es : List (Event τ)} {i : Nat}

/-! ### Where the tasks are -/

/-- The tasks that have been accepted and are neither done nor given up. -/
def inHand (s : Shift τ) : List (Ticket τ) := s.pool.waiting ++ s.doing

/-- Where the tasks go when one thing happens. -/
structure Moves (s : Shift τ) (e : Event τ) (s' : Shift τ) : Prop where
  /-- What is new or was in hand is in hand, done, given up or taken out. -/
  placed : (e.accepted?.toList ++ s.inHand).Perm
    (s'.inHand ++ e.ended?.toList ++ e.abandoned?.toList ++ e.drained?.toList)
  /-- What is begun is being done until it is done. -/
  begun : (e.begun?.toList ++ s.doing).Perm (s'.doing ++ e.ended?.toList)
  /-- What is offered is accepted later. -/
  offered : (e.offered?.toList ++ s.offered).Perm
    (e.accepted?.toList.map Ticket.task ++ s'.offered)
  /-- What is accepted has the next number. -/
  numbered : List.range s'.next = List.range s.next ++ e.accepted?.toList.map Ticket.number

/-- Nothing is moved by something that is not about a task. -/
theorem moves_of_idle (he : (e.accepted?, e.ended?, e.abandoned?, e.drained?, e.begun?,
    e.offered?) = (none, none, none, none, none, none))
    (hwaiting : s'.pool.waiting = s.pool.waiting) (hphases : s'.phases = s.phases)
    (hoffered : s'.offered = s.offered) (hnext : s'.next = s.next) : s.Moves e s' := by
  simp only [Prod.mk.injEq] at he
  have hdoing : s'.doing = s.doing := by rw [doing, hphases, doing]
  refine ⟨?_, ?_, ?_, ?_⟩ <;> simp [inHand, hwaiting, hdoing, hoffered, hnext, he]

/-- A worker that goes on without a task leaves all tasks where they are. -/
theorem moves_goTo {old phase : Phase τ} (hi : s.phases[i]? = some old) (hold : old.doing = [])
    (hphase : phase.doing = []) : s.Moves (.moved i) (s.goTo i phase) := by
  classical
  have hdoing : (s.goTo i phase).doing.Perm s.doing := by
    refine List.perm_iff_count.mpr fun a => ?_
    have hcount := count_doing_goTo hi phase a
    rw [hold, hphase] at hcount
    simpa using hcount
  refine ⟨?_, ?_, List.Perm.refl _, (List.append_nil _).symm⟩
  · simpa [inHand, Event.accepted?, Event.ended?, Event.abandoned?, Event.drained?]
      using (hdoing.append_left s.pool.waiting).symm
  · simpa [Event.begun?, Event.ended?] using hdoing.symm

/-- A worker begins a task that it has taken out of some line. -/
theorem moves_takeUp {old : Phase τ} {t : Ticket τ} {p : Pool (Ticket τ)}
    (hi : s.phases[i]? = some old) (hold : old.doing = [])
    (ht : s.pool.waiting.Perm (t :: p.waiting)) : s.Moves (.begun i t) (s.takeUp i t p) := by
  classical
  have hdoing : (t :: s.doing).Perm (s.takeUp i t p).doing := by
    refine List.perm_iff_count.mpr fun a => ?_
    have hcount := count_doing_goTo hi (.busy t) a
    rw [hold] at hcount
    have hsame : (s.takeUp i t p).doing = (s.goTo i (.busy t)).doing := rfl
    simp only [hsame, Phase.doing, List.count_nil, List.count_cons] at *
    omega
  refine ⟨?_, ?_, List.Perm.refl _, (List.append_nil _).symm⟩
  · have hall := (ht.append_right s.doing).trans
      (List.perm_middle.symm.trans (hdoing.append_left p.waiting))
    simpa [inHand, Event.accepted?, Event.ended?, Event.abandoned?, Event.drained?] using hall
  · simpa [Event.begun?, Event.ended?] using hdoing

/-- A worker that is done with a task does not keep it. -/
theorem doing_finish {t : Ticket τ} (hi : s.phases[i]? = some (.busy t)) :
    s.doing.Perm ((s.goTo i .start).doing ++ [t]) := by
  classical
  refine List.perm_iff_count.mpr fun a => ?_
  have hcount := count_doing_goTo hi .start a
  simp only [Phase.doing, List.count_nil, List.count_append] at *
  omega

/-- Whatever happens, tasks are only moved. -/
theorem Does.moves (h' : s.Does e s') (h : s.Layout) : s.Moves e s' := by
  cases h' with
  | refuse task hs => exact moves_of_idle rfl rfl rfl rfl rfl
  | invite task hs =>
    refine ⟨?_, ?_, (List.perm_append_singleton task s.offered).symm, (List.append_nil _).symm⟩
    · exact List.Perm.of_eq (by simp [inHand, doing, Event.accepted?, Event.ended?,
        Event.abandoned?, Event.drained?])
    · exact List.Perm.of_eq (by simp [doing, Event.begun?, Event.ended?])
  | @accept before after task hoff =>
    refine ⟨?_, ?_, ?_, List.range_succ⟩
    · have hwait : (s.pool.push ⟨s.next, task⟩).waiting = s.pool.waiting ++ [⟨s.next, task⟩] :=
        (List.append_assoc ..).symm
      have hnew : (⟨s.next, task⟩ :: (s.pool.waiting ++ s.doing)).Perm
          (s.pool.waiting ++ ⟨s.next, task⟩ :: s.doing) := List.perm_middle.symm
      simpa [inHand, hwait, doing, Event.accepted?, Event.ended?, Event.abandoned?,
        Event.drained?] using hnew
    · exact List.Perm.of_eq (by simp [doing, Event.begun?, Event.ended?])
    · rw [hoff]
      exact List.perm_middle
  | close => exact moves_of_idle rfl rfl rfl rfl rfl
  | start hi =>
    refine moves_goTo hi rfl ?_
    split <;> rfl
  | own hi ht => exact moves_takeUp hi rfl (Pool.takeOwn_perm ht)
  | noneOwn hi ht => exact moves_goTo hi rfl rfl
  | shared batch hi ht =>
    exact moves_takeUp hi rfl (Pool.takeShared_perm (h.lt_workers hi) ht)
  | noneShared start hi ht => exact moves_goTo hi rfl rfl
  | peer batch hi ht =>
    have hne := (h.others _ _ _ hi _ List.mem_cons_self).1
    exact moves_takeUp hi rfl (Pool.takePeer_perm (h.lt_workers hi) hne ht)
  | nonePeer hi ht => exact moves_goTo hi rfl rfl
  | nothing hi =>
    refine moves_goTo hi rfl ?_
    split <;> rfl
  | @finish i t hi outcome =>
    have hdone : s.doing.Perm ((s.finish i outcome).doing ++ [t]) := doing_finish hi
    refine ⟨?_, ?_, List.Perm.refl _, (List.append_nil _).symm⟩
    · have hsame : (s.finish i outcome).pool = s.pool := rfl
      simpa [inHand, hsame, Event.accepted?, Event.ended?, Event.abandoned?, Event.drained?]
        using hdone.append_left s.pool.waiting
    · simpa [Event.begun?, Event.ended?] using hdone
  | @giveUp i t p hi ht =>
    refine ⟨?_, ?_, List.Perm.refl _, (List.append_nil _).symm⟩
    · have hleft := ((Pool.takeOwn_perm ht).append_right s.doing).trans
        (List.perm_append_singleton t (p.waiting ++ s.doing)).symm
      simpa [inHand, doing, Event.accepted?, Event.ended?, Event.abandoned?, Event.drained?]
        using hleft
    · exact List.Perm.of_eq (by simp [doing, Event.begun?, Event.ended?])
  | leave hi ht => exact moves_goTo hi rfl rfl
  | drainBegin hs hnone => exact moves_of_idle rfl rfl rfl rfl rfl
  | @drain n t p hd ht =>
    refine ⟨?_, ?_, List.Perm.refl _, (List.append_nil _).symm⟩
    · have hleft := ((Pool.takeLeft_perm ht).append_right s.doing).trans
        (List.perm_append_singleton t (p.waiting ++ s.doing)).symm
      simpa [inHand, doing, Event.accepted?, Event.ended?, Event.abandoned?, Event.drained?]
        using hleft
    · exact List.Perm.of_eq (by simp [doing, Event.begun?, Event.ended?])
  | drainEnd hd ht => exact moves_of_idle rfl rfl rfl rfl rfl

/-- Where the tasks of a record are. -/
structure Accounts (es : List (Event τ)) (s : Shift τ) : Prop where
  /-- Every task is in one place. -/
  placed : (es.filterMap Event.accepted?).Perm
    (s.inHand ++ es.filterMap Event.ended? ++ es.filterMap Event.abandoned? ++
      es.filterMap Event.drained?)
  /-- What has been begun is being done or done. -/
  begun : (es.filterMap Event.begun?).Perm (s.doing ++ es.filterMap Event.ended?)
  /-- Whoever is told that the pool is open will put the task into the line or has done
  so. -/
  offered : (es.filterMap Event.offered?).Perm
    ((es.filterMap Event.accepted?).map Ticket.task ++ s.offered)
  /-- The tasks are numbered in turn. -/
  numbered : (es.filterMap Event.accepted?).map Ticket.number = List.range s.next

theorem accounts_new (workers : Nat) : Accounts [] (new workers : Shift τ) where
  placed := List.Perm.of_eq (by
    simp [inHand, doing, new, Pool.waiting, Pool.start, Phase.doing])
  begun := List.Perm.of_eq (by simp [doing, new, Phase.doing])
  offered := List.Perm.refl _
  numbered := rfl

/-- The accounts stay right as tasks are moved. -/
theorem Accounts.concat (h : Accounts es s) (hm : s.Moves e s') : Accounts (es ++ [e]) s' := by
  classical
  refine ⟨List.perm_iff_count.mpr fun a => ?_, List.perm_iff_count.mpr fun a => ?_,
    List.perm_iff_count.mpr fun a => ?_, ?_⟩
  · have hbefore := List.perm_iff_count.mp h.placed a
    have hmove := List.perm_iff_count.mp hm.placed a
    simp only [List.filterMap_append, filterMap_one, List.count_append] at *
    omega
  · have hbefore := List.perm_iff_count.mp h.begun a
    have hmove := List.perm_iff_count.mp hm.begun a
    simp only [List.filterMap_append, filterMap_one, List.count_append] at *
    omega
  · have hbefore := List.perm_iff_count.mp h.offered a
    have hmove := List.perm_iff_count.mp hm.offered a
    simp only [List.filterMap_append, filterMap_one, List.count_append, List.map_append] at *
    omega
  · rw [List.filterMap_append, filterMap_one, List.map_append, h.numbered, hm.numbered]

theorem accounts_of_log {workers : Nat} (h : Log Does (new workers) es s) : Accounts es s := by
  induction h with
  | rest => exact accounts_new workers
  | add hinit hlast ih =>
    exact ih.concat (hlast.moves (layout_of_log hinit (layout_new workers)))

/-! ### The end of a shift -/

/-- What holds of the closing of the pool. -/
structure Closing (es : List (Event τ)) (s : Shift τ) : Prop where
  /-- Whether the pool has been closed. -/
  stopped : s.pool.stopped = true ↔ .closed ∈ es
  /-- Nobody leaves while the pool is open. -/
  leaving : ∀ i : Nat, s.phases[i]? = some .leaving → s.pool.stopped = true
  /-- Nothing is taken out for nobody while the pool is open. -/
  draining : s.draining.isSome → s.pool.stopped = true
  /-- What went wrong is reported. -/
  reports : s.reports = es.filterMap Event.report?

theorem closing_new (workers : Nat) : Closing [] (new workers : Shift τ) where
  stopped := by simp [new, Pool.start]
  leaving := by
    intro i hi
    exact absurd (List.eq_of_mem_replicate (List.mem_of_getElem? hi)) (by simp)
  draining := by simp [new]
  reports := rfl

/-- Nothing about the closing changes where a worker goes on. -/
theorem Closing.goTo (h : Closing es s) {phase : Phase τ}
    (hleaving : phase = .leaving → s.pool.stopped = true) (hother : e ≠ .closed)
    (hreport : e.report? = none) {p : Pool (Ticket τ)} (hp : p.stopped = s.pool.stopped) :
    Closing (es ++ [e]) { s.goTo i phase with pool := p } where
  stopped := by simp [hp, h.stopped, Ne.symm hother]
  leaving := by
    intro j hj
    rcases phases_goTo_cases hj with ⟨-, heq⟩ | hj
    · exact hp.trans (hleaving heq.symm)
    · exact hp.trans (h.leaving j hj)
  draining := fun hd => hp.trans (h.draining hd)
  reports := by simp [Shift.goTo, hreport, h.reports]

/-- Nor does anything else but the closing itself. -/
theorem Closing.idle (h : Closing es s) (hother : e ≠ .closed) (hreport : e.report? = none)
    (hphases : s'.phases = s.phases) (hp : s'.pool.stopped = s.pool.stopped)
    (hdraining : s'.draining.isSome → s.pool.stopped = true) (hreports : s'.reports = s.reports) :
    Closing (es ++ [e]) s' where
  stopped := by simp [hp, h.stopped, Ne.symm hother]
  leaving := fun j hj => hp.trans (h.leaving j (hphases ▸ hj))
  draining := fun hd => hp.trans (hdraining hd)
  reports := by simp [hreport, hreports, h.reports]

theorem Does.closing (h' : s.Does e s') (h : Closing es s) : Closing (es ++ [e]) s' := by
  cases h' with
  | refuse task hs => exact h.idle (by simp) rfl rfl rfl h.draining rfl
  | invite task hs => exact h.idle (by simp) rfl rfl rfl h.draining rfl
  | accept hoff => exact h.idle (by simp) rfl rfl rfl h.draining rfl
  | close =>
    exact ⟨by simp [Pool.close], fun _ _ => rfl, fun _ => rfl,
      by simp [filterMap_one, Event.report?, h.reports]⟩
  | start hi =>
    refine h.goTo ?_ (by simp) rfl rfl
    split
    case isTrue hs => exact fun _ => hs
    case isFalse hs => simp
  | own hi ht =>
    obtain ⟨rest, -, rfl⟩ := Pool.takeOwn_eq_some.mp ht
    exact h.goTo (by simp) (by simp) rfl rfl
  | noneOwn hi ht => exact h.goTo (by simp) (by simp) rfl rfl
  | shared batch hi ht =>
    obtain ⟨tail, -, rfl⟩ := Pool.takeShared_eq_some.mp ht
    exact h.goTo (by simp) (by simp) rfl rfl
  | noneShared start hi ht => exact h.goTo (by simp) (by simp) rfl rfl
  | peer batch hi ht =>
    obtain ⟨tail, -, rfl⟩ := Pool.takePeer_eq_some.mp ht
    exact h.goTo (by simp) (by simp) rfl rfl
  | nonePeer hi ht => exact h.goTo (by simp) (by simp) rfl rfl
  | nothing hi =>
    refine h.goTo ?_ (by simp) rfl rfl
    split <;> simp
  | @finish i t hi outcome =>
    have hstart : Closing (es ++ [.moved i]) (s.goTo i .start) :=
      h.goTo (by simp) (by simp) rfl rfl
    refine ⟨?_, hstart.leaving, hstart.draining, ?_⟩
    · simpa [Shift.finish] using hstart.stopped
    · cases outcome <;> simp [filterMap_one, Shift.finish, Shift.goTo, Event.report?, h.reports]
  | giveUp hi ht =>
    obtain ⟨rest, -, rfl⟩ := Pool.takeOwn_eq_some.mp ht
    exact h.idle (by simp) rfl rfl rfl h.draining rfl
  | leave hi ht => exact h.goTo (by simp) (by simp) rfl rfl
  | drainBegin hs hnone => exact h.idle (by simp) rfl rfl rfl (fun _ => hs) rfl
  | drain hd ht =>
    obtain ⟨tail, -, rfl⟩ := Pool.takeLeft_eq_some.mp ht
    exact h.idle (by simp) rfl rfl rfl (fun _ => h.draining (by simp [hd])) rfl
  | drainEnd hd ht => exact h.idle (by simp) rfl rfl rfl (by simp) rfl

theorem closing_of_log {workers : Nat} (h : Log Does (new workers) es s) : Closing es s := by
  induction h with
  | rest => exact closing_new workers
  | add _ hlast ih => exact hlast.closing ih

/-! ### A single worker -/

/-- With one worker tasks are begun in the order in which they were accepted. -/
structure InTurn (es : List (Event τ)) (s : Shift τ) : Prop where
  /-- What has been begun was accepted before what waits. -/
  begun : (es.filterMap Event.begun? ++ s.pool.waiting).Sublist (es.filterMap Event.accepted?)
  /-- The worker does one task after the other. -/
  done : es.filterMap Event.begun? = es.filterMap Event.ended? ++ s.doing

theorem inTurn_new (workers : Nat) : InTurn [] (new workers : Shift τ) where
  begun := by simp [new, Pool.waiting, Pool.start]
  done := by simp [doing, new, Phase.doing]

/-- A step of a single worker, by what it does to the tasks that wait. -/
theorem InTurn.concat (h : InTurn es s)
    (hwait : (e.begun?.toList ++ s'.pool.waiting).Sublist
      (s.pool.waiting ++ e.accepted?.toList))
    (hdoing : s.doing ++ e.begun?.toList = e.ended?.toList ++ s'.doing) :
    InTurn (es ++ [e]) s' where
  begun := by
    have hall := (hwait.append_left (es.filterMap Event.begun?)).trans
      ((List.append_assoc .. ▸ h.begun.append_right e.accepted?.toList))
    simpa [filterMap_one] using hall
  done := by
    rw [List.filterMap_append, List.filterMap_append, filterMap_one, filterMap_one, h.done,
      List.append_assoc, hdoing, List.append_assoc]

/-- The only worker's phase. -/
theorem phases_of_one (h : s.Layout) (hone : s.pool.workers = 1) {phase : Phase τ}
    (hi : s.phases[i]? = some phase) : i = 0 ∧ s.phases = [phase] := by
  have hlt := h.lt_workers hi
  rw [hone] at hlt
  obtain rfl : i = 0 := by omega
  obtain ⟨only, honly⟩ := List.length_eq_one_iff.mp (h.workers.trans hone)
  rw [honly] at hi ⊢
  exact ⟨rfl, by simpa using hi⟩

theorem own_of_one {p : Pool τ} (hone : p.workers = 1) : p.own = [p.ownOf 0] := by
  obtain ⟨line, hline⟩ := List.length_eq_one_iff.mp hone
  simp [Pool.ownOf, hline]

/-- A single worker that goes on without a task. -/
theorem InTurn.goTo (h : InTurn es s) (hs : s.Layout) (hone : s.pool.workers = 1)
    {old phase : Phase τ} (hi : s.phases[i]? = some old) (hold : old.doing = [])
    (hphase : phase.doing = []) : InTurn (es ++ [.moved i]) (s.goTo i phase) := by
  obtain ⟨rfl, hphases⟩ := phases_of_one hs hone hi
  refine h.concat ?_ ?_
  · simp [Event.begun?, Event.accepted?]
  · simp [Event.begun?, Event.ended?, doing, Shift.goTo, hphases, hold, hphase]

/-- A single worker that begins the task that has waited longest. -/
theorem InTurn.takeUp (h : InTurn es s) (hs : s.Layout) (hone : s.pool.workers = 1)
    {old : Phase τ} {t : Ticket τ} {p : Pool (Ticket τ)} (hi : s.phases[i]? = some old)
    (hold : old.doing = []) (hp : s.pool.waiting = t :: p.waiting) :
    InTurn (es ++ [.begun i t]) (s.takeUp i t p) := by
  obtain ⟨rfl, hphases⟩ := phases_of_one hs hone hi
  refine h.concat ?_ ?_
  · simp [Event.begun?, Event.accepted?, hp]
  · have hbusy : (Phase.busy t).doing = [t] := rfl
    simp [Event.begun?, Event.ended?, doing, Shift.takeUp, Shift.goTo, hphases, hold, hbusy]

/-- Whatever happens keeps a single worker's tasks in their order. -/
theorem Does.inTurn (h' : s.Does e s') (h : InTurn es s) (hs : s.Layout)
    (hone : s.pool.workers = 1) : InTurn (es ++ [e]) s' := by
  cases h' with
  | refuse task hopen => exact h.concat (by simp [Event.begun?]) (List.append_nil _)
  | invite task hopen => exact h.concat (by simp [Event.begun?]) (List.append_nil _)
  | @accept before after task hoff =>
    refine h.concat ?_ (List.append_nil _)
    simp [Event.begun?, Event.accepted?, Pool.waiting, Pool.push]
  | close => exact h.concat (by simp [Event.begun?, Pool.waiting, Pool.close]) (List.append_nil _)
  | start hi =>
    refine h.goTo hs hone hi rfl ?_
    split <;> rfl
  | own hi ht =>
    obtain ⟨rfl, -⟩ := phases_of_one hs hone hi
    obtain ⟨rest, hown, rfl⟩ := Pool.takeOwn_eq_some.mp ht
    refine h.takeUp hs hone hi rfl ?_
    simp [Pool.waiting, Pool.setOwn, own_of_one hone, hown]
  | noneOwn hi ht => exact h.goTo hs hone hi rfl rfl
  | shared batch hi ht =>
    -- The worker has nothing of its own left, so what it takes stays in front.
    have hnone := hs.hasNone _ _ hi trivial
    obtain ⟨rfl, -⟩ := phases_of_one hs hone hi
    obtain ⟨tail, hshared, rfl⟩ := Pool.takeShared_eq_some.mp ht
    refine h.takeUp hs hone hi rfl ?_
    simp [Pool.waiting, Pool.setOwn, own_of_one hone, hnone, hshared]
  | noneShared start hi ht => exact h.goTo hs hone hi rfl rfl
  | peer batch hi ht =>
    have hpeer := hs.others _ _ _ hi _ List.mem_cons_self
    obtain ⟨rfl, -⟩ := phases_of_one hs hone hi
    omega
  | nonePeer hi ht => exact h.goTo hs hone hi rfl rfl
  | nothing hi =>
    refine h.goTo hs hone hi rfl ?_
    split <;> rfl
  | @finish i t hi outcome =>
    obtain ⟨rfl, hphases⟩ := phases_of_one hs hone hi
    refine h.concat (by simp [Event.begun?, Shift.finish, Shift.goTo]) ?_
    have hbusy : (Phase.busy t).doing = [t] := rfl
    have hstart : (Phase.start : Phase τ).doing = [] := rfl
    simp [Event.begun?, Event.ended?, doing, Shift.finish, Shift.goTo, hphases, hbusy, hstart]
  | giveUp hi ht =>
    obtain ⟨rfl, -⟩ := phases_of_one hs hone hi
    obtain ⟨rest, hown, rfl⟩ := Pool.takeOwn_eq_some.mp ht
    refine h.concat ?_ (List.append_nil _)
    simp [Event.begun?, Event.accepted?, Pool.waiting, Pool.setOwn, own_of_one hone, hown]
  | leave hi ht => exact h.goTo hs hone hi rfl rfl
  | drainBegin hopen hnone => exact h.concat (by simp [Event.begun?]) (List.append_nil _)
  | drain hd ht =>
    obtain ⟨tail, hshared, rfl⟩ := Pool.takeLeft_eq_some.mp ht
    refine h.concat ?_ (List.append_nil _)
    simp [Event.begun?, Event.accepted?, Pool.waiting, hshared]
  | drainEnd hd ht => exact h.concat (by simp [Event.begun?]) (List.append_nil _)

/-- Nobody joins the workers. -/
theorem Does.workers_eq (h' : s.Does e s') (hs : s.Layout) :
    s'.pool.workers = s.pool.workers := by
  rw [← hs.workers, ← (h'.layout hs).workers]
  cases h' <;> simp [Shift.goTo, Shift.takeUp, Shift.finish]

theorem workers_of_log (h : Log Does s es s') (hs : s.Layout) :
    s'.pool.workers = s.pool.workers := by
  induction h with
  | rest => rfl
  | add hinit hlast ih => exact (hlast.workers_eq (layout_of_log hinit hs)).trans ih

theorem inTurn_of_log (h : Log Does (new 1) es s) : InTurn es s := by
  induction h with
  | rest => exact inTurn_new 1
  | add hinit hlast ih =>
    exact hlast.inTurn ih (layout_of_log hinit (layout_new 1))
      (workers_of_log hinit (layout_new 1))

/-! ### Emptying the shared line -/

/-- Whoever empties the shared line counts what is taken out. -/
theorem draining_of_log {n : Nat} (h : Log Does s es s') (hbegun : s.draining = some n)
    (hgoing : ∀ e ∈ es, ∀ n, e ≠ .drainEnded n) :
    s'.draining = some (n + (es.filterMap Event.drained?).length) := by
  induction h with
  | rest => exact hbegun
  | @add es e m m' _ hlast ih =>
    have ih := ih fun e he => hgoing e (List.mem_append_left _ he)
    rw [List.filterMap_append, filterMap_one, List.length_append, ← Nat.add_assoc]
    cases hlast with
    | drainBegin hs hnone => exact absurd (hnone.symm.trans ih) (by simp)
    | drain hd ht =>
      rw [ih] at hd
      rw [← Option.some.inj hd]
      rfl
    | drainEnd hd ht => exact absurd rfl (hgoing _ List.mem_concat_self _)
    | _ => exact ih

/-- The pool has been closed, all workers have gone, and nobody is about to put a task into
the line. -/
structure IsOver (s : Shift τ) : Prop where
  /-- The pool has been closed. -/
  stopped : s.pool.stopped = true
  /-- All workers have gone. -/
  gone : ∀ (i : Nat) (phase : Phase τ), s.phases[i]? = some phase → phase = .gone
  /-- Nobody is about to put a task into the line. -/
  offered : s.offered = []

/-- When a shift is over tasks are only taken out, oldest first. -/
theorem IsOver.does (h : s.IsOver) (h' : s.Does e s') :
    s'.IsOver ∧ s.pool.shared = e.drained?.toList ++ s'.pool.shared ∧
      s'.pool.own = s.pool.own := by
  cases h' with
  | refuse task hs => exact ⟨h, rfl, rfl⟩
  | invite task hs => exact absurd (h.stopped.symm.trans hs) (by simp)
  | accept hoff => exact absurd (h.offered.symm.trans hoff) (by simp)
  | close => exact ⟨⟨rfl, h.gone, h.offered⟩, rfl, rfl⟩
  | drainBegin hs hnone => exact ⟨⟨h.stopped, h.gone, h.offered⟩, rfl, rfl⟩
  | drain hd ht =>
    obtain ⟨tail, hshared, rfl⟩ := Pool.takeLeft_eq_some.mp ht
    exact ⟨⟨h.stopped, h.gone, h.offered⟩, hshared, rfl⟩
  | drainEnd hd ht => exact ⟨⟨h.stopped, h.gone, h.offered⟩, rfl, rfl⟩
  | start hi => exact absurd (h.gone _ _ hi) (by simp)
  | own hi _ => exact absurd (h.gone _ _ hi) (by simp)
  | noneOwn hi _ => exact absurd (h.gone _ _ hi) (by simp)
  | shared _ hi _ => exact absurd (h.gone _ _ hi) (by simp)
  | noneShared _ hi _ => exact absurd (h.gone _ _ hi) (by simp)
  | peer _ hi _ => exact absurd (h.gone _ _ hi) (by simp)
  | nonePeer hi _ => exact absurd (h.gone _ _ hi) (by simp)
  | nothing hi => exact absurd (h.gone _ _ hi) (by simp)
  | finish hi _ => exact absurd (h.gone _ _ hi) (by simp)
  | giveUp hi _ => exact absurd (h.gone _ _ hi) (by simp)
  | leave hi _ => exact absurd (h.gone _ _ hi) (by simp)

theorem IsOver.of_log (h : s.IsOver) (h' : Log Does s es s') :
    s'.IsOver ∧ s.pool.shared = es.filterMap Event.drained? ++ s'.pool.shared ∧
      s'.pool.own = s.pool.own := by
  induction h' with
  | rest => exact ⟨h, rfl, rfl⟩
  | add _ hlast ih =>
    obtain ⟨hover, hshared, hown⟩ := ih
    obtain ⟨hover', hshared', hown'⟩ := hover.does hlast
    refine ⟨hover', ?_, hown'.trans hown⟩
    rw [hshared, hshared', List.filterMap_append, filterMap_one, List.append_assoc]

/-- Whoever has emptied the shared line has counted what was taken out of it; once the shift
is over that is everything that was left. -/
theorem drain_of_log {between : List (Event τ)} {n : Nat}
    (h : Log Does s (.drainBegun :: between ++ [.drainEnded n]) s')
    (hgoing : ∀ e ∈ between, ∀ n, e ≠ .drainEnded n) :
    s.pool.stopped = true ∧ n = (between.filterMap Event.drained?).length ∧
      s'.pool.shared = [] ∧
      (s.IsOver → between.filterMap Event.drained? = s.pool.shared ∧
        (n, s'.pool) = s.pool.drain) := by
  obtain ⟨m, hinit, hlast⟩ := h.split
  rw [← List.nil_append (.drainBegun :: between)] at hinit
  obtain ⟨b, b', hb, hbegin, hbetween⟩ := hinit.split_at
  obtain rfl := hb.eq_of_nil
  cases hbegin with
  | drainBegin hs hnone =>
    have hcount := draining_of_log hbetween rfl hgoing
    rw [Nat.zero_add] at hcount
    cases hlast.step_of_one with
    | drainEnd hd ht =>
      have hn : n = (between.filterMap Event.drained?).length :=
        Option.some.inj (hd.symm.trans hcount)
      have hempty := Pool.takeLeft_eq_none.mp ht
      refine ⟨hs, hn, hempty, fun hover => ?_⟩
      have hbegun : ({ b with draining := some 0 } : Shift τ).IsOver :=
        ⟨hover.stopped, hover.gone, hover.offered⟩
      obtain ⟨hover', hshared, hown⟩ := hbegun.of_log hbetween
      rw [hempty, List.append_nil] at hshared
      refine ⟨hshared.symm, ?_⟩
      have hpool : m.pool = { b.pool with shared := [] } := by
        have hstopped := hover'.stopped.trans hover.stopped.symm
        show (⟨m.pool.shared, m.pool.own, m.pool.stopped⟩ : Pool (Ticket τ)) = _
        rw [hempty, hown, hstopped]
      rw [hpool, hn, ← hshared]
      rfl

/-! ### The law of shifts -/

/-- Where the tasks of a shift are, and in which order they are begun. -/
structure Lawful (workers : Nat) (es : List (Event τ)) (s : Shift τ) : Prop where
  /-- The tasks are numbered as they are accepted. -/
  numbered : (es.filterMap Event.accepted?).map Ticket.number = List.range s.next
  /-- Every task that was accepted is in one place: it waits in the shared line or in that
  of a worker, it is being done or done, it was given up, or taken out for nobody. -/
  placed : (es.filterMap Event.accepted?).Perm
    (s.pool.shared ++ s.pool.own.flatten ++ s.doing ++ es.filterMap Event.ended? ++
      es.filterMap Event.abandoned? ++ es.filterMap Event.drained?)
  /-- No task is in two places, -/
  distinct : ((s.pool.shared ++ s.pool.own.flatten ++ s.doing ++ es.filterMap Event.ended? ++
    es.filterMap Event.abandoned? ++ es.filterMap Event.drained?).map Ticket.number).Nodup
  /-- and none is begun twice. -/
  once : ((es.filterMap Event.begun?).map Ticket.number).Nodup ∧
    (es.filterMap Event.begun?).Perm (s.doing ++ es.filterMap Event.ended?)
  /-- Nothing is given up or taken out before the pool has been closed. -/
  kept : .closed ∉ es → es.filterMap Event.abandoned? = [] ∧ es.filterMap Event.drained? = []
  /-- One worker alone does the tasks one after the other in the order in which they were
  accepted, and leaves none out before the pool has been closed. -/
  in_turn : workers = 1 →
    es.filterMap Event.begun? = es.filterMap Event.ended? ++ s.doing ∧
      (es.filterMap Event.begun?).Sublist (es.filterMap Event.accepted?) ∧
      (.closed ∉ es → es.filterMap Event.accepted? =
        es.filterMap Event.begun? ++ s.pool.own.flatten ++ s.pool.shared)
  /-- Whoever has a task to give is told whether the pool has been closed, -/
  refused : ∀ before task isOpen after, es = before ++ .asked task isOpen :: after →
    (isOpen = false ↔ .closed ∈ before)
  /-- and only those who were told that it is open put their tasks into the line. -/
  offered : (es.filterMap Event.offered?).Perm
    ((es.filterMap Event.accepted?).map Ticket.task ++ s.offered)
  /-- A closed pool stays as it is when someone has a task to give. -/
  refuses : .closed ∈ es → ∀ task isOpen s', s.Does (.asked task isOpen) s' →
    isOpen = false ∧ s' = s
  /-- Whoever empties the shared line of the closed pool is told how many tasks were taken
  out, which are all that were left once the shift is over. -/
  drains : ∀ between n s', Log Does s (.drainBegun :: between ++ [.drainEnded n]) s' →
    (∀ e ∈ between, ∀ n, e ≠ .drainEnded n) →
      .closed ∈ es ∧ n = (between.filterMap Event.drained?).length ∧ s'.pool.shared = [] ∧
        (s.IsOver → between.filterMap Event.drained? = s.pool.shared ∧
          (n, s'.pool) = s.pool.drain)
  /-- What went wrong in tasks is reported. -/
  reports : s.reports = es.filterMap Event.report?

/-- What is given up or taken out is so after the closing. -/
theorem Does.closed_of_gone (h' : s.Does e s') (h : Closing es s)
    (hgone : e.abandoned?.isSome ∨ e.drained?.isSome) : .closed ∈ es := by
  rw [← h.stopped]
  cases h' with
  | giveUp hi ht => exact h.leaving _ hi
  | drain hd ht => exact h.draining (by simp [hd])
  | _ => simp [Event.abandoned?, Event.drained?] at hgone

/-- Whoever has a task to give is told whether the pool has been closed. -/
theorem Does.refused_iff {task : τ} {isOpen : Bool} (h' : s.Does (.asked task isOpen) s')
    (h : Closing es s) : isOpen = false ↔ .closed ∈ es := by
  rw [← h.stopped]
  cases h' with
  | refuse _ hs => simp [hs]
  | invite _ hs => simp [hs]

/-- Nothing is given up or taken out before the pool has been closed. -/
theorem nothing_gone {workers : Nat} (h : Log Does (new workers) es s) (hopen : .closed ∉ es) :
    es.filterMap Event.abandoned? = [] ∧ es.filterMap Event.drained? = [] := by
  have hstay : ∀ e ∈ es, ¬(e.abandoned?.isSome ∨ e.drained?.isSome) := by
    intro e he hgone
    obtain ⟨before, after, rfl⟩ := List.append_of_mem he
    obtain ⟨m, m', hm, hnow, -⟩ := h.split_at
    exact hopen (List.mem_append_left _ (hnow.closed_of_gone (closing_of_log hm) hgone))
  refine ⟨List.filterMap_eq_nil_iff.mpr fun e he => ?_,
    List.filterMap_eq_nil_iff.mpr fun e he => ?_⟩
  · exact Option.not_isSome_iff_eq_none.mp fun hsome => hstay e he (Or.inl hsome)
  · exact Option.not_isSome_iff_eq_none.mp fun hsome => hstay e he (Or.inr hsome)

/-- What a single worker has begun, with what waits, is what has been accepted, as long as
the pool is open. -/
theorem accepted_of_one (h : Log Does (new 1) es s) (hopen : .closed ∉ es) :
    es.filterMap Event.accepted? =
      es.filterMap Event.begun? ++ s.pool.own.flatten ++ s.pool.shared := by
  have hturn := inTurn_of_log h
  obtain ⟨hnone, hnone'⟩ := nothing_gone h hopen
  have hlen := (accounts_of_log h).placed.length_eq
  have hbegun := (accounts_of_log h).begun.length_eq
  rw [hnone, hnone'] at hlen
  have heq := hturn.begun.eq_of_length (by
    simp only [inHand, List.length_append, List.length_nil] at hlen hbegun ⊢
    omega)
  rw [← heq, Pool.waiting, List.append_assoc]

/-- Every log of a new shift is lawful. -/
theorem loses_no_task {workers : Nat} (h : Log Does (new workers) es s) :
    Lawful workers es s := by
  have hacc := accounts_of_log h
  have hclosing := closing_of_log h
  have hplaced : (es.filterMap Event.accepted?).Perm
      (s.pool.shared ++ s.pool.own.flatten ++ s.doing ++ es.filterMap Event.ended? ++
        es.filterMap Event.abandoned? ++ es.filterMap Event.drained?) :=
    hacc.placed.trans ((((List.perm_append_comm.append_right _).append_right _).append_right _
      ).append_right _)
  have hdistinct : ((s.pool.shared ++ s.pool.own.flatten ++ s.doing ++
      es.filterMap Event.ended? ++ es.filterMap Event.abandoned? ++
      es.filterMap Event.drained?).map Ticket.number).Nodup := by
    rw [← (hplaced.map Ticket.number).nodup_iff, hacc.numbered]
    exact List.nodup_range
  refine ⟨hacc.numbered, hplaced, hdistinct, ⟨?_, hacc.begun⟩, nothing_gone h, ?_, ?_,
    hacc.offered, ?_, ?_, hclosing.reports⟩
  · refine (hacc.begun.map Ticket.number).nodup_iff.mpr (hdistinct.sublist (List.Sublist.map _ ?_))
    have hmiddle : (s.doing ++ es.filterMap Event.ended?).Sublist
        (s.pool.shared ++ s.pool.own.flatten ++ (s.doing ++ es.filterMap Event.ended?)) :=
      List.sublist_append_right _ _
    rw [← List.append_assoc] at hmiddle
    exact (hmiddle.trans (List.sublist_append_left _ _)).trans (List.sublist_append_left _ _)
  · rintro rfl
    have hturn := inTurn_of_log h
    exact ⟨hturn.done, (List.sublist_append_left _ _).trans hturn.begun, accepted_of_one h⟩
  · rintro before task isOpen after rfl
    obtain ⟨m, m', hm, hnow, -⟩ := h.split_at
    exact hnow.refused_iff (closing_of_log hm)
  · intro hclosed task isOpen s' hasked
    have hfalse := (hasked.refused_iff hclosing).mpr hclosed
    cases hasked with
    | refuse => exact ⟨rfl, rfl⟩
    | invite => exact absurd hfalse (by simp)
  · intro between n s' hdrain hgoing
    obtain ⟨hs, hn, hempty, hover⟩ := drain_of_log hdrain hgoing
    exact ⟨hclosing.stopped.mp hs, hn, hempty, hover⟩

/-! ### A busy shift -/

/-- One of two workers takes both tasks and begins the first one; the other one takes the
second one from it, and something goes wrong in that.  What is put into the line when the
pool has been closed is taken out. -/
def busyShift : List (Event String) :=
  [.asked "a" true, .asked "b" true, .accepted ⟨0, "a"⟩, .accepted ⟨1, "b"⟩,
    .moved 0, .moved 0, .begun 0 ⟨0, "a"⟩,
    .moved 1, .moved 1, .moved 1, .begun 1 ⟨1, "b"⟩,
    .asked "c" true, .ended 1 ⟨1, "b"⟩ (.error default), .closed, .accepted ⟨2, "c"⟩,
    .asked "d" false, .drainBegun, .drained ⟨2, "c"⟩, .drainEnded 1]

theorem exists_log_busyShift : ∃ s, Log Does (new 2) busyShift s := by
  have hgiven : Log Does (new 2) (busyShift.take 4) _ :=
    (((Log.rest.add (.invite "a" rfl)).add (.invite "b" rfl)).add
      (@Does.accept _ _ [] _ _ rfl)).add (@Does.accept _ _ [] _ _ rfl)
  have hfirst : Log Does (new 2) (busyShift.take 7) _ :=
    ((hgiven.add (@Does.start _ _ 0 rfl)).add (@Does.noneOwn _ _ 0 rfl rfl)).add
      (@Does.shared _ _ 0 _ _ 1 rfl rfl)
  have hsecond : Log Does (new 2) (busyShift.take 10) _ :=
    ((hfirst.add (@Does.start _ _ 1 rfl)).add (@Does.noneOwn _ _ 1 rfl rfl)).add
      (@Does.noneShared _ _ 1 0 false rfl (Or.inl rfl))
  have hthird : Log Does (new 2) (busyShift.take 13) _ :=
    ((hsecond.add (@Does.peer _ _ 1 0 [] false _ _ 0 rfl rfl)).add (.invite "c" rfl)).add
      (@Does.finish _ _ 1 _ rfl (.error default))
  have hclosed : Log Does (new 2) (busyShift.take 16) _ :=
    ((hthird.add (.close _)).add (@Does.accept _ _ [] _ _ rfl)).add (.refuse "d" rfl)
  exact ⟨_, ((hclosed.add (.drainBegin rfl rfl)).add (.drain rfl rfl)).add (.drainEnd rfl rfl)⟩

theorem loses_no_task_busyShift : ∃ s, Log Does (new 2) busyShift s ∧ Lawful 2 busyShift s := by
  obtain ⟨s, h⟩ := exists_log_busyShift
  exact ⟨s, h, loses_no_task h⟩

end Shift

end Fibers
