import Fibers.Proofs.Scopes

/-!
# Leases

`Resource.allocate` acquires a resource and leaves the release to the caller.  A fiber that has been
asked to stop meanwhile releases what it has acquired, once and for a failure; otherwise it is handed
a lease.  Between these two there is nothing else.

What the fiber has been handed it has not yet received: interruption is allowed again by then, and a
fiber that is asked to stop in between drops the lease.

## Main definitions

* `Resource.Allocates` — how a resource is allocated.
* `Workshop.Received` — what becomes of what a fiber has been handed.

## Main results

* `Workshop.Tells.allocates` — what is told of an allocation.
* `Workshop.PrudentRun.keeps_allocation` — **what has been allocated is released, or a lease of it is
  handed out.**
* `Workshop.Run.not_every_allocation_kept` — a lease that is handed out may be dropped.
-/

namespace Fibers

open Effect

variable {ε : ErrorType} {f g : FiberId} {st : Story} {x y : Exit Value Value} {id : ReleaseId}

/-! ### For which exit -/

/-- A release calls what it calls for its exit. -/
theorem Hold.Runs.called {hold : Hold} (h : hold.Runs x f st) (hmem : (g, .called id y) ∈ st) :
    y = x := by
  -- the code of the outer parts is called when the inner ones are done with
  have hcalls : ∀ {hold : Hold} {f : FiberId}, (g, .called id y) ∈ hold.calls f x → y = x := by
    intro hold f hcalled
    obtain ⟨_, -, heq⟩ := List.mem_map.mp hcalled
    exact (Episode.called.inj (Prod.mk.inj heq).2).2.symm
  induction h with
  | single _ => cases List.mem_singleton.mp hmem
  | panicked _ => cases hmem
  | nested _ _ ihi iho =>
    rcases List.mem_append.mp hmem with hmem | hmem
    · exact ihi hmem
    · exact (List.mem_append.mp hmem).elim hcalls iho
  | both _ _ ihl ihr =>
    rcases List.mem_append.mp ((List.mem_cons.mp hmem).resolve_left (by simp)) with hmem | hmem
    · exact ihl hmem
    · exact ihr ((List.mem_cons.mp hmem).resolve_left (by simp))
  | within _ ih => exact ih hmem

theorem Hold.Releases.called {hold : Hold} (h : hold.Releases x f st)
    (hmem : (g, .called id y) ∈ st) : y = x := by
  obtain ⟨st', hruns, rfl⟩ := h
  rcases List.mem_append.mp hmem with hmem | hmem
  · obtain ⟨_, -, heq⟩ := List.mem_map.mp hmem
    exact (Episode.called.inj (Prod.mk.inj heq).2).2.symm
  · exact hruns.called hmem

namespace Resource

variable {m : Resource ε} {took : Took} {lost : List (Defect × Hold)}
  {inside : List (ReleaseId × ReleaseId)}

/-- What is released in the course of an acquisition is released for a failure. -/
theorem Acquires.halted (h : m.Acquires f took st lost inside) (hmem : (g, .called id y) ∈ st) :
    ∃ failure, y = .halt failure := by
  have hfork : ∀ {f l r : FiberId} {st st' : Story}, (g, .called id y) ∈ Story.fork f l r st st' →
      (g, .called id y) ∈ st ∨ (g, .called id y) ∈ st' := by
    intro f l r st st' hmem
    simpa [Story.fork] using hmem
  induction h with
  | acquired | refused => simp at hmem
  | fail | unbuilt _ => cases hmem
  | built _ _ ih | provided _ ih => exact ih hmem
  | mapped _ _ ih | unmapped _ _ ih => exact ih hmem
  | mapRefused _ ih | chainRefused _ ih | provideRefused _ ih => exact ih hmem
  | chained _ _ ih ih' => exact (List.mem_append.mp hmem).elim ih ih'
  | unchained _ _ hreleases ih ih' =>
    rcases List.mem_append.mp hmem with hmem | hmem
    · exact ih hmem
    · exact (List.mem_append.mp hmem).elim ih' fun hmem => ⟨_, hreleases.called hmem⟩
  | paired _ _ _ ih ih' | unpaired _ _ _ ih ih' => exact (hfork hmem).elim ih ih'
  | bothRefused _ _ ih ih' => exact (hfork hmem).elim ih ih'
  | rightRefused _ _ hreleases ih ih' | leftRefused _ _ hreleases ih ih' =>
    rcases List.mem_append.mp hmem with hmem | hmem
    · exact (hfork hmem).elim ih ih'
    · exact ⟨_, hreleases.called hmem⟩

/-! ### How a resource is allocated -/

/-- How a resource is allocated by a fiber, and what is kept for a lease. -/
inductive Allocates (m : Resource ε) (allowed : Bool) (f : FiberId) :
    Outcome → Story → List ReleaseId → List (Defect × Hold) → Prop where
  /-- The fiber has been stopped before the acquisition. -/
  | stopped {source : FiberId} : allowed = true →
      Allocates m allowed f (.halt (.of (.interrupt source))) [] [] []
  /-- Nothing has been acquired. -/
  | refused {h : Halt Failure} {st : Story} {lost : List (Defect × Hold)}
      {inside : List (ReleaseId × ReleaseId)} : m.Acquires f (.failed h) st lost inside →
      Allocates m allowed f (.halt h) st [] lost
  /-- A lease has been made of what has been acquired. -/
  | leased {v u : Value} {hold : Hold} {w : World} {lease : LeaseId} {st : Story}
      {lost : List (Defect × Hold)} {inside : List (ReleaseId × ReleaseId)} :
      m.Acquires f (.got v hold) st lost inside →
      ((Action.newLease hold.id).run w).1 = .ok lease →
      Allocates m allowed f (.done (.lease lease v))
        (st ++ [(f, .ran (Restore.apply ⟨allowed⟩ (unit : Effect ε)) (.done u))]) hold.ids lost
  /-- The fiber has been stopped after the acquisition, and has released what it has acquired. -/
  | released {v : Value} {h : Halt Failure} {y : Exit Value Value} {hold : Hold} {st st' : Story}
      {lost : List (Defect × Hold)} {inside : List (ReleaseId × ReleaseId)} :
      m.Acquires f (.got v hold) st lost inside →
      hold.Releases (Exit.halt (h.untag ε)).withoutValue f st' →
      Allocates m allowed f (.halt (h.beside ε y))
        (st ++ ((f, .ran (Restore.apply ⟨allowed⟩ (unit : Effect ε)) (.halt h)) :: st')) [] lost

section Allocates

variable {allowed : Bool} {o : Outcome} {kept : List ReleaseId}
  (h : m.Allocates allowed f o st kept lost)
include h

/-- **What has been acquired has been released, is kept for the lease, or has been handed to code that
panicked.** -/
theorem Allocates.perm : (reservedIn st).Perm (calledIn st ++ (kept ++ lostIds lost)) := by
  cases h with
  | stopped _ => exact List.Perm.refl _
  | refused hacquires => exact hacquires.perm
  | @leased v u hold w lease st lost inside hacquires _ =>
    rw [reservedIn_append, calledIn_append]
    change (reservedIn st ++ []).Perm (calledIn st ++ [] ++ (hold.ids ++ lostIds lost))
    rw [List.append_nil, List.append_nil]
    exact hacquires.perm
  | @released v failure y hold st st' lost inside hacquires hreleases =>
    have hperm := hacquires.perm
    have hcalled := hreleases.perm
    rw [reservedIn_append, calledIn_append]
    change (reservedIn st ++ reservedIn st').Perm (calledIn st ++ calledIn st' ++ ([] ++ lostIds lost))
    rw [hreleases.reservedIn, List.append_nil]
    simp only [Took.ids] at hperm
    grind

/-- What has been released has been released for a failure. -/
theorem Allocates.halted (hmem : (g, .called id y) ∈ st) : ∃ failure, y = .halt failure := by
  cases h with
  | stopped _ => cases hmem
  | refused hacquires => exact hacquires.halted hmem
  | leased hacquires _ =>
    rcases List.mem_append.mp hmem with hmem | hmem
    · exact hacquires.halted hmem
    · simp at hmem
  | released hacquires hreleases =>
    rcases List.mem_append.mp hmem with hmem | hmem
    · exact hacquires.halted hmem
    · exact ⟨_, hreleases.called ((List.mem_cons.mp hmem).resolve_left (by simp))⟩

/-- Nothing is kept when the allocation has failed. -/
theorem Allocates.kept_eq {failure : Halt Failure} (ho : o = .halt failure) : kept = [] := by
  cases h with
  | stopped _ | refused _ | released _ _ => rfl
  | leased _ _ => cases ho

/-- What has been acquired has been taken care of when the allocation has failed. -/
theorem Allocates.settles {failure : Halt Failure} (ho : o = .halt failure) {v : Value}
    {build : Exit Value Value → Action Instruction} (hmem : (g, .reserved v id build) ∈ st) :
    st.Settles (id, build) ∨ ∃ q ∈ lost, (id, build) ∈ q.2.leaves := by
  cases h with
  | stopped _ => cases hmem
  | refused hacquires => exact (hacquires.accounted hmem).of_failed
  | leased _ _ => cases ho
  | released hacquires hreleases => exact hacquires.settles_released hreleases hmem

end Allocates

end Resource

namespace Workshop

variable {budget minted : Nat} {s : Workshop} {record : List (FiberId × Event)} {fiber : FiberId}
  {m : Resource ε} {calm : Prop}

/-- **What is told of an allocation.** -/
theorem Tells.allocates {n : Nat} {run : RunState} (hm : m.Composed calm)
    (hrun : Run budget (init minted) record s) (hdiscreet : Discreet s record) :
    Tells s record fiber n run (.active run (.eval m.allocate)) fun o st _ =>
      ∃ kept lost, m.Allocates run.interruptible fiber o st kept lost := by
  refine mask (fun hallowed source => ⟨[], [], .stopped hallowed⟩) ?_
  have hmasked : (run.enterStatus false).interruptible = false := rfl
  generalize run.enterStatus false = masked at hmasked ⊢
  refine chain hmasked (acquires hm hrun hdiscreet hmasked) ?_ ?_
  · rintro v st k hk (⟨hacquires, -, hkept⟩ | _) w
    -- the fiber is stopped now, if it has been asked to
    refine chain_result (P := fun o st _ =>
      st = [(fiber, .ran (Restore.apply ⟨run.interruptible⟩ (unit : Effect ε)) o)]) hmasked
      (fun r hr => code hr fun o => rfl) ?_
    rintro (u | h) st' k' hk' rfl w'
    · refine built_bind (fun lease hlease => done hmasked ?_) fun d hd => ?_
      · exact ⟨_, _, .leased hacquires hlease⟩
      · cases hd
    · refine releases_runInto hrun hmasked (hkept.mono hk') fun st'' y k'' hreleases => ?_
      exact ⟨_, _, .released hacquires hreleases⟩
  · rintro h st k - (_ | ⟨hacquires, -⟩)
    exact ⟨_, _, .refused hacquires⟩

/-- What becomes of a value that a fiber has been handed. -/
inductive Received (fiber : FiberId) (base : RunState) (v : Value) : List Event → Prop where
  /-- The fiber has not gone on yet. -/
  | waits : Received fiber base v []
  /-- What follows has been given the value. -/
  | goesOn {w : World} {after : List Event} :
      Received fiber base v (.iterated w base (.value v) :: after)
  /-- The fiber has been stopped instead. -/
  | dropped {w : World} {after : List Event} :
      base.interruptible = true → w.store.isInterrupted fiber = true →
      Received fiber base v (.stopped w :: after)

theorem received {base : RunState} {v : Value} {after : List Event} {a : Standing}
    (h : Life fiber (.handed base (.done v)) after a) : Received fiber base v after := by
  cases h with
  | rest => exact .waits
  | go _ hgoes _ =>
    cases hgoes with
    | stopped _ hstop =>
      obtain ⟨hallowed, hasked⟩ := (Bool.and_eq_true ..).mp hstop
      exact .dropped hallowed hasked
    | iterated _ => exact .goesOn

/-- **What has been allocated is released exactly once, for a failure, or a lease of it is handed
out**, whenever the fiber is asked to stop.  What follows receives the lease unless the fiber is
stopped when it has been handed it. -/
theorem PrudentRun.keeps_allocation (h : PrudentRun budget minted record s)
    (hm : m.Composed False) {base : RunState} {before during after : List Event} {o : Outcome}
    {a : Standing} (hpast : Life fiber .unborn before (.active base (.eval m.allocate)))
    (hcourse : Course fiber (Inside (fun _ => True) base) (.active base (.eval m.allocate)) during
      (.handed base o))
    (hlife : Life fiber (.handed base o) after a)
    (hhistory : History s record fiber (before ++ (during ++ after)) a) :
    ∃ st kept lost, Told s record fiber during st ∧
      m.Allocates base.interruptible fiber o st kept lost ∧ (reservedIn st).Nodup ∧
      (reservedIn st).Perm (calledIn st ++ (kept ++ lostIds lost)) ∧
      (∀ g id x, (g, .called id x) ∈ st → ∃ failure, x = .halt failure) ∧
      (∀ failure, o = .halt failure → kept = [] ∧ ∀ g v id release,
        (g, .reserved v id release) ∈ st →
          st.Settles (id, release) ∨ ∃ q ∈ lost, (id, release) ∈ q.2.leaves) ∧
      ∀ v, o = .done v → Received fiber base v after := by
  have hdone : Evaluated s record fiber base m.allocate during o := ⟨hpast, hcourse, hlife, hhistory⟩
  obtain ⟨st, -, htold, kept, lost, hallocates⟩ :=
    (Tells.allocates hm h.run h.discreet).of_evaluated hdone
  refine ⟨st, kept, lost, htold, hallocates, htold.nodup_of_evaluated h.run hdone, hallocates.perm,
    fun g id x hmem => hallocates.halted hmem, fun failure ho => ⟨hallocates.kept_eq ho,
      fun g v id release hmem => hallocates.settles ho hmem⟩, ?_⟩
  rintro v rfl
  exact received hlife

/-- A lease is handed out if nobody is asked to stop. -/
theorem PrudentRun.keeps_allocation_plain :
    ∃ during after o st kept lost, Evaluated (afterBegun plain.allocate 40)
        (recordBegun plain.allocate 40) ⟨1⟩ (.start .unit true) plain.allocate during o ∧
      isFailure o = false ∧
      Told (afterBegun plain.allocate 40) (recordBegun plain.allocate 40) ⟨1⟩ during st ∧
      plain.Allocates true ⟨1⟩ o st kept lost ∧
      (reservedIn st).Perm (calledIn st ++ (kept ++ lostIds lost)) ∧
      ∀ v, o = .done v → Received ⟨1⟩ (.start .unit true) v after := by
  obtain ⟨during, o, hdone, hsucceeds, -⟩ := exists_evaluated (i := plain.allocate) (n := 40)
    (fun o => !isFailure o) ⟨_, rfl⟩ (by decide +kernel) (by decide +kernel) (by decide +kernel)
  have hevaluated := hdone
  obtain ⟨hpast, hcourse, hlife, hhistory⟩ := hdone
  obtain ⟨st, kept, lost, htold, hallocates, -, hperm, -, -, hreceived⟩ :=
    PrudentRun.keeps_allocation (prudent_begun (fun c => (guards_plain c).allocate) 40)
      composed_plain hpast hcourse hlife hhistory
  exact ⟨during, _, o, st, kept, lost, hevaluated, (Bool.not_eq_true' _).mp hsucceeds, htold,
    hallocates, hperm, hreceived⟩

/-- **Not every lease that is handed out is received, and what is not has not been released**: a fiber
that does nothing but allocate a resource may end with a failure and without a release. -/
theorem Run.not_every_allocation_kept :
    ¬ ∀ (budget minted : Nat) (s : Workshop) (record : List (FiberId × Event)) (fiber : FiberId)
        (w : World) (environment : Value) (failure : Halt Failure),
      Run budget (init minted) record s →
      (eventsOf fiber record).head? =
        some (.iterated w (.start environment true) (.eval plain.allocate)) →
      Ended record fiber (.halt failure) →
        ∀ e ∈ eventsOf fiber record, ∀ v id release, .reserved v id release ∈ e.episodes →
          ∃ e' ∈ eventsOf fiber record, ∃ x, .called id x ∈ e'.episodes := by
  intro hall
  obtain ⟨w, hfirst⟩ : ∃ w, (eventsOf ⟨1⟩ (recordAsked plain.allocate 16 20)).head? =
    some (.iterated w (.start .unit true) (.eval plain.allocate)) := ⟨_, rfl⟩
  have hacquired : (eventsOf ⟨1⟩ (recordAsked plain.allocate 16 20)).any tellsReserved = true := by
    decide +kernel
  have hnone : (eventsOf ⟨1⟩ (recordAsked plain.allocate 16 20)).any tellsCalled = false := by
    decide +kernel
  obtain ⟨o, hended, hfails⟩ := ended_of_endsSo ⟨1⟩ isFailure
    (by decide +kernel : (recordAsked plain.allocate 16 20).any _ = true)
  cases o with
  | done v => cases hfails
  | halt failure =>
    obtain ⟨e, he, htells⟩ := List.any_eq_true.mp hacquired
    obtain ⟨v, id, release, hreserved⟩ := reserved_of_tells htells
    obtain ⟨e', he', x, hcalled⟩ := hall 16 0 _ _ ⟨1⟩ w _ failure (run_asked _ 16 20) hfirst hended e
      he v id release hreserved
    exact List.any_eq_false.mp hnone e' he' (List.any_eq_true.mpr ⟨_, hcalled, rfl⟩)

end Workshop

end Fibers
