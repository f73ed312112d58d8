import Fibers.Proofs.Leases
import Fibers.Proofs.Stirring

/-!
# Giving back a lease

Whoever has a lease may release it, as often as he likes; several fibers may do so at the same time,
and each of them may be asked to stop at any moment.  The lease is looked at, marked and its release
invoked in a single iteration, in a region in which interruption is not allowed.  So the release is
invoked once, for the exit for which the first one to get there releases the lease; all others find
the lease marked, and do nothing.

That a lease is marked exactly when its release has been invoked is counted: every change of the
world spends some leases, and a mark that is there in the end has been there in the beginning or has
been spent.

## Main definitions

* `Workshop.invocations` — which releases a lease has invoked, and for which exits.
* `LeaseId.Stage` — how far an evaluation that releases a lease has come.
* `Workshop.Spent`, `Workshop.Releases` — what is known of a lease, and of an evaluation that
  releases it.

## Main results

* `Stir.count_spent` — a lease is marked exactly when it is spent.
* `Workshop.Run.allocated` — what an allocation hands out is a lease that has been made.
* `LeaseId.exists_stage` — every evaluation that releases a lease is at one of the stages.
* `LeaseId.Stage.harmless_or_invokes` — an evaluation that finds the lease marked changes nothing.
* `Workshop.Run.spends_lease_once` — **a lease is released once.**
-/

namespace Fibers

open Effect

variable {ε : ErrorType}

/-! ### Marks -/

namespace World

variable {w : World} {lease other : LeaseId}

theorem lease?_spendLease (w : World) (lease other : LeaseId) :
    (w.spendLease lease).store.lease? other =
      if other = lease then (w.store.lease? lease).map fun l => { l with released := true }
      else w.store.lease? other := by
  have hindex : other.index = lease.index ↔ other = lease := by
    cases other
    cases lease
    simp
  simp only [spendLease, Store.lease?, Numbered.get?_modify, hindex]
  split
  · next heq => rw [heq]
  · rfl

theorem lease?_push (w : World) (l : Lease) (lease : LeaseId) :
    Store.lease? { w.store with leases := w.store.leases.push l } lease =
      if lease = ⟨w.store.leases.next⟩ then some l else w.store.lease? lease := by
  have hindex : lease.index = w.store.leases.next ↔ lease = ⟨w.store.leases.next⟩ := by
    cases lease
    simp
  simp only [Store.lease?, Numbered.get?_push, hindex]

theorem lease?_next (w : World) : w.store.lease? ⟨w.store.leases.next⟩ = none :=
  Numbered.get?_next _

end World

namespace Stir

variable {w w' : World} {leases : List LeaseId} {lease : LeaseId}

/-- A lease that has been made stays that of its resource. -/
theorem release (h : Stir w leases w') {l : Lease} (hl : w.store.lease? lease = some l) :
    ∃ l', w'.store.lease? lease = some l' ∧ l'.release = l.release := by
  have hsame : ∀ {w w' : World} {l : Lease}, w.store.lease? lease = some l →
      w'.store.leases = w.store.leases →
      ∃ l', w'.store.lease? lease = some l' ∧ l'.release = l.release := by
    intro w w' l hl heq
    exact ⟨l, by rwa [Store.lease?, heq], rfl⟩
  induction h generalizing l with
  | data _ _ heq _ => exact hsame hl heq
  | opened _ _ _ | changed _ _ _ | bedded _ _ _ | roused _ _ => exact hsame hl rfl
  | rang now outcome _ => exact hsame hl (by rw [World.store_resume])
  | leased release =>
    refine ⟨l, ?_, rfl⟩
    rw [World.lease?_push, if_neg, hl]
    rintro rfl
    rw [World.lease?_next] at hl
    cases hl
  | @spent w other l₀ _ _ =>
    rw [World.lease?_spendLease]
    split
    · next heq =>
      subst heq
      rw [hl]
      exact ⟨_, rfl, rfl⟩
    · exact ⟨l, hl, rfl⟩
  | trans _ _ ih ih' =>
    obtain ⟨l₁, hl₁, hfirst⟩ := ih hl
    obtain ⟨l₂, hl₂, hsecond⟩ := ih' hl₁
    exact ⟨l₂, hl₂, hsecond.trans hfirst⟩

/-- **A lease is marked exactly when it is spent.** -/
theorem count_spent (h : Stir w leases w') (lease : LeaseId) :
    leases.count lease + (w.store.isReleased lease).toNat = (w'.store.isReleased lease).toNat := by
  have hsame : ∀ {w w' : World}, w'.store.leases = w.store.leases →
      ([] : List LeaseId).count lease + (w.store.isReleased lease).toNat =
        (w'.store.isReleased lease).toNat := by
    intro w w' heq
    simp [Store.isReleased, Store.lease?, heq]
  induction h with
  | data _ _ heq _ => exact hsame heq
  | opened _ _ _ | changed _ _ _ | bedded _ _ _ | roused _ _ => exact hsame rfl
  | rang now outcome _ => exact hsame (by rw [World.store_resume])
  | @leased w release =>
    -- a new lease has not been released, nor has one that there is not
    have hreleased : Store.isReleased { w.store with leases := w.store.leases.push { release } }
        lease = w.store.isReleased lease := by
      simp only [Store.isReleased, World.lease?_push]
      split
      · next heq =>
        rw [heq, World.lease?_next]
        rfl
      · rfl
    rw [hreleased, List.count_nil, Nat.zero_add]
  | @spent w other l hl hopen =>
    simp only [Store.isReleased, World.lease?_spendLease, List.count_singleton]
    by_cases heq : lease = other
    · subst heq
      simp [hl, hopen]
    · simp [heq, Ne.symm heq]
  | trans _ _ ih ih' =>
    rw [List.count_append]
    omega

/-- A lease that is marked stays so. -/
theorem isReleased (h : Stir w leases w') (hreleased : w.store.isReleased lease = true) :
    w'.store.isReleased lease = true := by
  have hcount := h.count_spent lease
  rw [hreleased] at hcount
  cases hlater : w'.store.isReleased lease with
  | true => rfl
  | false =>
    rw [hlater] at hcount
    exact absurd hcount (by simp)

end Stir

/-! ### Invocations -/

/-- Which release a lease invokes in an event, and for which exit. -/
def Event.invoked? (lease : LeaseId) : Event → Option (ReleaseId × Exit Value Value)
  | .iterated w _ (.eval (.releaseLease given x)) =>
    if given = lease then
      match w.store.lease? lease with
      | none => none
      | some l => if l.released then none else some (l.release, x)
    else none
  | _ => none

theorem Event.invoked?_releaseLease {w : World} {run : RunState} {lease : LeaseId}
    {x : Exit Value Value} {l : Lease} (hl : w.store.lease? lease = some l)
    (hopen : l.released = false) :
    (Event.iterated w run (.eval (.releaseLease lease x))).invoked? lease =
      some (l.release, x) := by
  simp [invoked?, hl, hopen]

/-- A lease that is invoked has not been released, and is released then. -/
theorem Event.of_invoked? {e : Event} {lease : LeaseId} {q : ReleaseId × Exit Value Value}
    (h : e.invoked? lease = some q) : ∃ w run l,
      e = .iterated w run (.eval (.releaseLease lease q.2)) ∧ w.store.lease? lease = some l ∧
        l.released = false ∧ l.release = q.1 := by
  unfold invoked? at h
  split at h
  · next w run given x =>
    split at h
    · next heq =>
      subst heq
      split at h
      · cases h
      · next l hl =>
        split at h
        · cases h
        · next hopen =>
          obtain rfl := Option.some.inj h
          exact ⟨w, run, l, rfl, hl, Bool.eq_false_iff.mpr hopen, rfl⟩
    · cases h
  · cases h

theorem Event.count_spent (e : Event) (lease : LeaseId) :
    e.spent.count lease = (e.invoked? lease).toList.length := by
  unfold spent
  split
  · next w run given x =>
    by_cases heq : given = lease
    · subst heq
      cases hl : w.store.lease? given with
      | none => simp [invoked?, hl]
      | some l => cases hopen : l.released <;> simp [invoked?, hl, hopen]
    · cases hl : w.store.lease? given with
      | none => simp [invoked?, heq]
      | some l => cases hopen : l.released <;> simp [invoked?, heq, hopen]
  · next hother =>
    unfold invoked?
    split
    · next w run given x => exact absurd rfl (hother w run given x)
    · rfl

namespace Workshop

variable {budget minted : Nat} {s s₁ s' : Workshop} {record : List (FiberId × Event)}
  {fiber : FiberId} {lease : LeaseId}

/-- Which release a lease has invoked in the course of a record, and for which exits. -/
def invocations (lease : LeaseId) (record : List (FiberId × Event)) :
    List (ReleaseId × Exit Value Value) := record.filterMap fun e => e.2.invoked? lease

theorem length_invocations (lease : LeaseId) (record : List (FiberId × Event)) :
    (invocations lease record).length = (spentIn record).count lease := by
  induction record with
  | nil => rfl
  | cons e record ih =>
    have hone := e.2.count_spent lease
    rw [invocations, spentIn] at ih
    rw [invocations, spentIn, List.flatMap_cons, List.count_append, hone, ← ih]
    cases he : e.2.invoked? lease with
    | none => simp [he]
    | some q => simp [he, Nat.add_comm]

/-- Every world that is found lies between the first one and the last one. -/
theorem Run.stir_of_mem (h : Run budget s record s') (hs : s.Kempt) {w : World} {run : RunState}
    {step : Step} (he : (fiber, .iterated w run step) ∈ record) :
    (∃ leases, Stir s.world leases w) ∧ ∃ leases, Stir w leases s'.world := by
  obtain ⟨before, after, rfl⟩ := List.append_of_mem he
  obtain ⟨s₁, s₂, pre, stops, rfl, hpre, hmove, hlater⟩ := h.at_iteration
  obtain ⟨hkempt, hstir⟩ := hpre.stir hs
  obtain ⟨rfl, -⟩ := hmove.world_of_iterated hkempt.valid
  exact ⟨⟨_, hstir⟩, _, ((Run.move hmove hlater).stir hkempt).2⟩

/-- So does the world that an iteration leaves. -/
theorem Run.stir_after (h : Run budget s record s') (hs : s.Kempt) {w : World} {run : RunState}
    {step : Step} (he : (fiber, .iterated w run step) ∈ record) :
    ∃ leases,
      Stir (w.carryOut fiber (step.plan (w.pending fiber) fiber run)).2 leases s'.world := by
  obtain ⟨before, after, rfl⟩ := List.append_of_mem he
  obtain ⟨s₁, s₂, pre, stops, rfl, hpre, hmove, hlater⟩ := h.at_iteration
  obtain ⟨hkempt, -⟩ := hpre.stir hs
  obtain ⟨-, -, hworld, -⟩ := hmove.world_of_iterated hkempt.valid
  exact ⟨_, hworld ▸ (hlater.stir (hmove.kempt hkempt)).2⟩

/-- **A lease has been released exactly if its finalizer has been invoked**, and that has been done
once then. -/
theorem Run.length_invocations (h : Run budget (init minted) record s) (lease : LeaseId) :
    (invocations lease record).length = (s.world.store.isReleased lease).toNat := by
  have hcount := ((h.stir (kempt_init minted)).2).count_spent lease
  have hnone : (init minted).world.store.isReleased lease = false := by
    simp [init, World.init, Store.init, Store.isReleased, Store.lease?, Numbered.get?]
  rw [hnone] at hcount
  rw [Workshop.length_invocations]
  exact hcount

/-! ### What an allocation hands out -/

/-- What is handed out, if anything is, is a lease that has been made. -/
def HandsOut (s : Workshop) (o : Outcome) : Prop :=
  ∀ u, o = .done u → ∃ lease v l, u = .lease lease v ∧ s.world.store.lease? lease = some l

theorem handsOut_halt (s : Workshop) (h : Halt Failure) : s.HandsOut (.halt h) :=
  fun _ heq => by cases heq

/-- Whoever is not stopped now is handed a lease. -/
theorem Tells.hands_over (hrun : Run budget (init minted) record s) {n : Nat} {run : RunState}
    (hfalse : run.interruptible = false) (r : Reservation) (checked : Effect ε) :
    Tells s record fiber n run (.active run (.eval ((checked.result : Effect ε).chainAs
      (Resource.handOver r : Exit Value Value → Action (Effect ε)))))
      fun o _ _ => s.HandsOut o := by
  let next : Value → Action (Effect ε) := Effect.expecting (Resource.handOver r)
  have hpush : (run.push (.chain next)).interruptible = false := hfalse
  refine chain_found hfalse
    (result hpush fun r hr => code (Q := fun _ _ _ => True) hr fun _ => trivial) ?_
    fun h _ _ _ _ => handsOut_halt s h
  rintro _ st k - ⟨o, -, heq⟩ w i hget
  obtain rfl := Exit.done.inj heq
  cases o with
  | done u =>
    obtain ⟨_, hlater⟩ := hrun.stir_after (kempt_init minted)
      (mem_eventsOf.mp (List.mem_of_getElem? hget))
    have hmade : Store.lease? (w.carryOut fiber ((Step.value (.exit (.done u))).plan
        (w.pending fiber) fiber (run.push (.chain next)))).2.store ⟨w.store.leases.next⟩ =
        some { release := r.release } := (w.lease?_push _ _).trans (if_pos rfl)
    obtain ⟨l, hl, -⟩ := hlater.release hmade
    refine of_built (i := (succeed (.lease ⟨w.store.leases.next⟩ r.value) : Effect ε)) rfl
      (done hfalse fun v heq => ?_)
    obtain rfl := Exit.done.inj heq
    exact ⟨_, _, l, rfl, hl⟩
  | halt h =>
    refine of_built (i := (r.release.runInto (.halt (h.untag ε)) : Effect ε)) rfl ?_
    refine (finishWith (P := fun _ _ _ => True) hfalse fun r hr =>
      code hr fun _ => trivial).mono ?_
    rintro _ _ _ - ⟨o', -, rfl⟩
    rw [Halt.withFinalizer_tag]
    exact handsOut_halt s _

/-- An allocation that does not end with a failure hands out a lease that has been made. -/
theorem Tells.hands_out (hrun : Run budget (init minted) record s) (m : Resource ε) {n : Nat}
    {run : RunState} :
    Tells s record fiber n run (.active run (.eval m.allocate)) fun o _ _ => s.HandsOut o := by
  refine mask (fun _ source => handsOut_halt s _) ?_
  have hmasked : (run.enterStatus false).interruptible = false := rfl
  generalize run.enterStatus false = masked at hmasked ⊢
  refine @chain _ _ _ _ _ (fun _ _ _ => True) _ _ _ hmasked (code hmasked fun _ => trivial) ?_
    fun h _ _ _ _ => handsOut_halt s h
  intro held st k _ _ w
  cases hheld : (Carried.ofValue? held : Option Reservation) with
  | none =>
    -- what has been acquired is no reservation
    refine of_built (i := (die (.mismatch "value" (Carried.name Reservation)) : Effect ε)) ?_
      (done hmasked (handsOut_halt s _))
    rw [Effect.expecting, hheld]
    rfl
  | some r =>
    refine of_built ?_ (hands_over hrun hmasked r
      (Restore.apply ⟨run.interruptible⟩ (unit : Effect ε)))
    rw [Effect.expecting, hheld]
    rfl

/-- **What an allocation hands out is a lease that has been made**, if it does not end with a
failure. -/
theorem Run.allocated (h : Run budget (init minted) record s) {m : Resource ε} {base : RunState}
    {during : List Event} {u : Value}
    (hdone : Evaluated s record fiber base m.allocate during (.done u)) :
    ∃ lease v l, u = .lease lease v ∧ s.world.store.lease? lease = some l := by
  obtain ⟨_, _, -, hmade⟩ := (Tells.hands_out h m).of_evaluated hdone
  exact hmade u rfl

end Workshop

/-! ### How a lease is released -/

theorem Standing.handed_inj {run : RunState} {o o' : Outcome}
    (h : Standing.handed run o = .handed run o') : o = o' := by
  have hstep : Step.ofOutcome o = .ofOutcome o' := (Standing.active.inj h).2
  cases o <;> cases o' <;> cases hstep <;> rfl

/-- An iteration that leaves the world as it has found it. -/
def Event.Harmless (fiber : FiberId) (e : Event) : Prop :=
  ∀ w run step, e = .iterated w run step →
    (w.carryOut fiber (step.plan (w.pending fiber) fiber run)).2 = w

namespace LeaseId

section Stage

variable (ε) (lease : LeaseId) (x : Exit Value Value) (base : RunState)

/-- A fiber is going to release a lease. -/
def start : Standing := .active base (.eval (lease.releaseExit x : Effect ε))

/-- It enters the region in which interruption is not allowed. -/
def enters (w : World) : Event := .iterated w base (.eval (lease.releaseExit x : Effect ε))

/-- It looks at the lease, and invokes its release unless that has been done. -/
def looks (w : World) : Event :=
  .iterated w (base.enterStatus false) (.eval (.releaseLease lease x.withoutValue))

/-- It leaves the region. -/
def leaves (w : World) (o : Outcome) : Event := .iterated w (base.enterStatus false) (.ofOutcome o)

/-- How far an evaluation that releases a lease has come after some events. -/
inductive Stage (fiber : FiberId) : List Event → Standing → Prop where
  /-- It has not begun. -/
  | waits : Stage fiber [] (lease.start ε x base)
  /-- The fiber has been stopped instead. -/
  | stopped {w : World} {source : FiberId} : base.interruptible = true →
      Stage fiber [.stopped w] (.handed base (.halt (.of (.interrupt source))))
  /-- The lease has not been looked at. -/
  | entered {w : World} : Stage fiber [lease.enters ε x base w]
      (.active (base.enterStatus false) (.eval (.releaseLease lease x.withoutValue)))
  /-- The lease has been released before. -/
  | late {w w' : World} : (∀ l, w'.store.lease? lease = some l → l.released = true) →
      Stage fiber [lease.enters ε x base w, lease.looks x base w']
        (.handed (base.enterStatus false) (.done .unit))
  /-- It has settled, and the lease had been released before. -/
  | passed {w w' w'' : World} : (∀ l, w'.store.lease? lease = some l → l.released = true) →
      Stage fiber [lease.enters ε x base w, lease.looks x base w', leaves base w'' (.done .unit)]
        (.handed base (.done .unit))
  /-- The release has been invoked, and what it has built is evaluated. -/
  | releasing {w w' : World} {l : Lease} {rest : List Event} {a : Standing} :
      w'.store.lease? lease = some l → l.released = false →
      Course fiber (Inside (fun _ => True) (base.enterStatus false))
        (.active (base.enterStatus false)
          (.ofBuilt ((w'.spendLease lease).buildRelease l.release x.withoutValue).1)) rest a →
      Uncut fiber rest →
      Stage fiber (lease.enters ε x base w :: lease.looks x base w' :: rest) a
  /-- The release has been invoked, and what it has built has been evaluated to its end. -/
  | released {w w' w'' : World} {l : Lease} {rest : List Event} {o : Outcome} :
      w'.store.lease? lease = some l → l.released = false →
      Course fiber (Inside (fun _ => True) (base.enterStatus false))
        (.active (base.enterStatus false)
          (.ofBuilt ((w'.spendLease lease).buildRelease l.release x.withoutValue).1)) rest
        (.handed (base.enterStatus false) o) →
      Uncut fiber rest →
      Stage fiber
        (lease.enters ε x base w :: lease.looks x base w' :: (rest ++ [leaves base w'' o]))
        (.handed base o)

end Stage

variable {lease : LeaseId} {x : Exit Value Value} {base : RunState} {fiber : FiberId}
  {es : List Event} {a c : Standing}

/-- A region is left with the outcome of what is inside of it. -/
theorem leave {o : Outcome}
    (h : Course fiber (Inside (fun _ => True) base) (.handed (base.enterStatus false) o) es c) :
    (es = [] ∧ c = .handed (base.enterStatus false) o) ∨
      ∃ w, es = [leaves base w o] ∧ c = .handed base o := by
  rcases Course.of_uninterruptible h rfl with ⟨rfl, rfl⟩ | ⟨w, es', rfl, -, hrest⟩
  · exact Or.inl ⟨rfl, rfl⟩
  have hafter : w.after fiber ((Step.ofOutcome o).plan (w.pending fiber) fiber
      (base.enterStatus false)) = .handed base o := by
    cases o <;> rfl
  rw [hafter] at hrest
  obtain ⟨rfl, rfl⟩ := hrest.of_handed
  exact Or.inr ⟨w, rfl, rfl⟩

/-- What a release has built is evaluated to its end, and nothing cuts it short. -/
theorem stage_invoked {w w' : World} {l : Lease} (hl : w'.store.lease? lease = some l)
    (hopen : l.released = false)
    (h : Course fiber (Inside (fun _ => True) base) (.active (base.enterStatus false)
      (.ofBuilt ((w'.spendLease lease).buildRelease l.release x.withoutValue).1)) es a) :
    lease.Stage ε x base fiber (lease.enters ε x base w :: lease.looks x base w' :: es) a := by
  cases hbuilt : ((w'.spendLease lease).buildRelease l.release x.withoutValue).1 with
  | error d =>
    -- the code of the release has panicked
    rw [hbuilt] at h
    have hnone : Course fiber (Inside (fun _ => True) (base.enterStatus false))
        (.active (base.enterStatus false)
          (.ofBuilt ((w'.spendLease lease).buildRelease l.release x.withoutValue).1)) []
        (.handed (base.enterStatus false) (.die d)) := by
      rw [hbuilt]
      exact .rest
    have huncut : Uncut fiber [] := fun _ e he => by cases he
    rcases leave (o := .die d) h with ⟨rfl, rfl⟩ | ⟨w'', rfl, rfl⟩
    · exact .releasing hl hopen hnone huncut
    · exact .released hl hopen hnone huncut
  | ok i =>
    have hinside : ∀ {p : Bool → Prop}, Inside p (base.enterStatus false)
        (.active (base.enterStatus false) (.ofBuilt (.ok i))) := ⟨.base, fun _ => rfl⟩
    rw [hbuilt] at h
    rcases Course.split h hinside with ⟨hcourse, -⟩ | ⟨es₁, es₂, o, rfl, hcourse, -, hrest⟩
    · exact .releasing hl hopen (hbuilt ▸ hcourse) (hcourse.not_isCut rfl hinside)
    · have huncut : Uncut fiber es₁ := hcourse.not_isCut rfl hinside
      rcases leave hrest with ⟨rfl, rfl⟩ | ⟨w'', rfl, rfl⟩
      · rw [List.append_nil]
        exact .releasing hl hopen (hbuilt ▸ hcourse) huncut
      · exact .released hl hopen (hbuilt ▸ hcourse) huncut

/-- **Every evaluation that releases a lease is at one of the stages.** -/
theorem stage (h : Course fiber (Inside (fun _ => True) base) (lease.start ε x base) es a) :
    lease.Stage ε x base fiber es a := by
  cases h with
  | rest => exact .waits
  | go _ hgoes hrest =>
    cases hgoes with
    | stopped _ hstop =>
      -- the fiber is stopped before it has entered the region
      have hend : Course fiber _ (.handed base (.halt (.of (.interrupt _)))) _ a := hrest
      obtain ⟨rfl, rfl⟩ := hend.of_handed
      exact .stopped ((Bool.and_eq_true ..).mp hstop).1
    | @iterated w _ _ _ =>
      have hentered : Course fiber _ (.active (base.enterStatus false)
        (.eval (.releaseLease lease x.withoutValue))) _ a := hrest
      rcases hentered.of_uninterruptible rfl with
        ⟨rfl, rfl⟩ | ⟨w', es, rfl, -, hrest⟩
      · exact .entered
      have hlook : ∀ {step : Step}, (w'.carryOut fiber (.releaseLease (base.enterStatus false) lease
          x.withoutValue)).1 = some (base.enterStatus false, step) →
          w'.after fiber ((Step.eval (.releaseLease lease x.withoutValue)).plan (w'.pending fiber)
            fiber (base.enterStatus false)) = .active (base.enterStatus false) step := by
        intro step hstep
        change w'.after fiber (.releaseLease (base.enterStatus false) lease x.withoutValue) = _
        simp only [World.after, hstep]
      by_cases hspent : ∀ l, w'.store.lease? lease = some l → l.released = true
      · rw [hlook (congrArg Prod.fst (World.carryOut_spent hspent _ _ _))] at hrest
        rcases leave (o := .done .unit) hrest with ⟨rfl, rfl⟩ | ⟨w'', rfl, rfl⟩
        · exact .late hspent
        · exact .passed hspent
      · push Not at hspent
        obtain ⟨l, hl, hopen⟩ := hspent
        have hfalse := Bool.eq_false_iff.mpr hopen
        rw [hlook (congrArg Prod.fst (World.carryOut_spends hl hfalse _ _ _))] at hrest
        exact stage_invoked hl hfalse hrest

/-- A life that has come to the release of a lease is at one of the stages of its evaluation, or it
has left the evaluation when that had settled. -/
theorem exists_stage (h : Life fiber (lease.start ε x base) es a) :
    ∃ es₁ es₂ c, es = es₁ ++ es₂ ∧ lease.Stage ε x base fiber es₁ c ∧ Life fiber c es₂ a ∧
      ((es₂ = [] ∧ c = a ∧ Inside (fun _ => True) base a) ∨ ∃ o, c = .handed base o) := by
  rcases @Course.split base _ _ _ _ _ h ⟨.base, fun _ => rfl⟩ with
    ⟨hcourse, hinside⟩ | ⟨es₁, es₂, o, rfl, hcourse, -, hrest⟩
  · exact ⟨es, [], a, (List.append_nil es).symm, stage hcourse, .rest,
      Or.inl ⟨rfl, rfl, hinside⟩⟩
  · exact ⟨es₁, es₂, _, rfl, stage hcourse, hrest, Or.inr ⟨o, rfl⟩⟩

/-- What is handed to a region has not left it. -/
theorem ne_handed (base : RunState) (step : Step) (o : Outcome) :
    Standing.active (base.enterStatus false) step ≠ .handed base o := by
  intro heq
  exact absurd (congrArg (fun r => r.stack.length) (Standing.active.inj heq).1) (Nat.succ_ne_self _)

namespace Stage

variable {o : Outcome}

/-- A fiber that has not been stopped instead has looked at the lease when the evaluation has
settled, and has invoked its release or done nothing. -/
theorem settled (h : lease.Stage ε x base fiber es c) (hc : c = .handed base o) :
    (∃ source, o = .halt (.of (.interrupt source))) ∨ ∃ w, lease.looks x base w ∈ es ∧
      (o = .done .unit ∨ ∃ l, w.store.lease? lease = some l ∧ l.released = false) := by
  cases h with
  | waits =>
    have hout := Step.isOutcome_ofOutcome o
    rw [← (Standing.active.inj hc).2] at hout
    cases hout
  | stopped _ =>
    obtain rfl := Standing.handed_inj hc
    exact Or.inl ⟨_, rfl⟩
  | entered | late _ => exact absurd hc (ne_handed base _ o)
  | passed _ =>
    obtain rfl := Standing.handed_inj hc
    exact Or.inr ⟨_, List.mem_cons_of_mem _ List.mem_cons_self, Or.inl rfl⟩
  | releasing hl hopen _ _ | released hl hopen _ _ =>
    exact Or.inr ⟨_, List.mem_cons_of_mem _ List.mem_cons_self, Or.inr ⟨_, hl, hopen⟩⟩

/-- **An evaluation changes nothing, unless it finds a lease that has not been released.** -/
theorem harmless_or_invokes (h : lease.Stage ε x base fiber es c) :
    (∀ e ∈ es, e.invoked? lease = none ∧ e.Harmless fiber) ∨ ∃ w l,
      lease.looks x base w ∈ es ∧ w.store.lease? lease = some l ∧ l.released = false := by
  have henters : ∀ w, (lease.enters ε x base w).invoked? lease = none ∧
      (lease.enters ε x base w).Harmless fiber := by
    refine fun w => ⟨rfl, fun w' run step heq => ?_⟩
    cases heq
    rfl
  have hlooks : ∀ {w : World}, (∀ l, w.store.lease? lease = some l → l.released = true) →
      (lease.looks x base w).invoked? lease = none ∧ (lease.looks x base w).Harmless fiber := by
    intro w hspent
    refine ⟨?_, fun w' run step heq => ?_⟩
    · cases hsome : (lease.looks x base w).invoked? lease with
      | none => rfl
      | some q =>
        obtain ⟨w', _, l, heq, hl, hopen, -⟩ := Event.of_invoked? hsome
        obtain ⟨rfl, -, -⟩ := Event.iterated.inj heq
        rw [hspent l hl] at hopen
        cases hopen
    · cases heq
      exact congrArg Prod.snd (World.carryOut_spent hspent fiber (base.enterStatus false) _)
  cases h with
  | waits => exact Or.inl (by simp)
  | stopped _ =>
    refine Or.inl (List.forall_mem_singleton.mpr ⟨rfl, fun w run step heq => ?_⟩)
    cases heq
  | entered => exact Or.inl (List.forall_mem_singleton.mpr (henters _))
  | late hspent =>
    exact Or.inl (List.forall_mem_cons.mpr
      ⟨henters _, List.forall_mem_singleton.mpr (hlooks hspent)⟩)
  | @passed w w' w'' hspent =>
    have hleaves : (leaves base w'' (.done .unit)).invoked? lease = none ∧
        (leaves base w'' (.done .unit)).Harmless fiber := by
      refine ⟨rfl, fun w run step heq => ?_⟩
      cases heq
      rfl
    exact Or.inl (List.forall_mem_cons.mpr ⟨henters _, List.forall_mem_cons.mpr ⟨hlooks hspent,
      List.forall_mem_singleton.mpr hleaves⟩⟩)
  | releasing hl hopen _ _ | released hl hopen _ _ =>
    exact Or.inr ⟨_, _, List.mem_cons_of_mem _ List.mem_cons_self, hl, hopen⟩

end Stage

end LeaseId

/-! ### Runs -/

namespace Workshop

variable {budget minted : Nat} {s s₁ : Workshop} {early late : List (FiberId × Event)}
  {lease : LeaseId} {x : Exit Value Value} {base : RunState} {fiber : FiberId}

/-- What is known of a lease that has been handed out. -/
structure Spent (s : Workshop) (record : List (FiberId × Event)) (lease : LeaseId) : Prop where
  /-- Its release is invoked once at most. -/
  once : (invocations lease record).length ≤ 1
  /-- What is invoked is its own release. -/
  own : ∃ l, s.world.store.lease? lease = some l ∧ ∀ q ∈ invocations lease record, q.1 = l.release
  /-- It shows that it has been released exactly if its release has been invoked. -/
  shown (v : Value) : s.world.store.debug (.lease lease v) =
    "Leak \x7b value: " ++ s.world.store.render v ++ ", released: " ++
      Compact.bool (!(invocations lease record).isEmpty) ++ " \x7d"

/-- What is known of an evaluation that releases a lease, after some events. -/
structure Releases (ε : ErrorType) (record : List (FiberId × Event)) (lease : LeaseId)
    (x : Exit Value Value) (base : RunState) (fiber : FiberId) (es : List Event) (c : Standing) :
    Prop where
  /-- It is at one of the stages: if it has invoked the release, it goes on until what has been
  built has been evaluated to its end, and nothing cuts that short. -/
  stage : lease.Stage ε x base fiber es c
  /-- It invokes the release for the exit that it has been given. -/
  exit : ∀ e ∈ es, ∀ q, e.invoked? lease = some q → q.2 = x.withoutValue
  /-- If it has not been stopped before, the release has been invoked by the time it has settled. -/
  settled : ∀ o, c = .handed base o → (∀ source, o ≠ .halt (.of (.interrupt source))) →
    (invocations lease record).length = 1
  /-- If it does not invoke the release, it changes nothing, and succeeds if it is not stopped. -/
  harmless : (∀ e ∈ es, e.invoked? lease = none) → (∀ e ∈ es, e.Harmless fiber) ∧
    ∀ o, c = .handed base o → o = .done .unit ∨ ∃ source, o = .halt (.of (.interrupt source))

/-- The doings of a later life are those of a later record. -/
theorem History.mem_late {before after : List Event} {a b : Standing} {e : Event}
    (hearly : History s₁ early fiber before a)
    (hlate : History s (early ++ late) fiber (before ++ after) b)
    (he : e ∈ after) (hdoing : e.isDoing = true) : (fiber, e) ∈ late := by
  have hdoings := hlate.doings
  rw [List.filter_append, eventsOf_append, hearly.doings] at hdoings
  rw [← mem_eventsOf, ← List.append_cancel_left hdoings, List.mem_filter]
  exact ⟨he, hdoing⟩

/-- What has been invoked is found among the invocations. -/
theorem mem_invocations {record : List (FiberId × Event)} {e : Event}
    {q : ReleaseId × Exit Value Value} (hmem : (fiber, e) ∈ record)
    (he : e.invoked? lease = some q) : q ∈ invocations lease record :=
  List.mem_filterMap.mpr ⟨_, hmem, he⟩

/-- A lease has been released once somebody has looked at it in order to release it. -/
theorem Run.isReleased_of_looks (hrun : Run budget (init minted) early s₁)
    (h : Run budget s₁ late s) {l : Lease} (hl : s₁.world.store.lease? lease = some l) {w : World}
    (hmem : (fiber, lease.looks x base w) ∈ late) : s.world.store.isReleased lease = true := by
  have hs := (hrun.stir (kempt_init minted)).1
  obtain ⟨⟨_, hfound⟩, _, hlater⟩ := h.stir_of_mem hs hmem
  obtain ⟨l', hl', -⟩ := hfound.release hl
  cases hopen : l'.released with
  | true =>
    refine hlater.isReleased ?_
    rw [Store.isReleased, hl']
    exact hopen
  | false =>
    -- it is released then
    have hinvoked := mem_invocations (List.mem_append_right early hmem)
      (Event.invoked?_releaseLease hl' hopen)
    have hlength := (hrun.append h).length_invocations lease
    cases hreleased : s.world.store.isReleased lease with
    | true => rfl
    | false =>
      rw [hreleased] at hlength
      rw [List.length_eq_zero_iff.mp hlength] at hinvoked
      cases hinvoked

/-- **What is known of every lease that has been made.** -/
theorem Run.spent (h : Run budget (init minted) record s) {l : Lease}
    (hl : s.world.store.lease? lease = some l) : s.Spent record lease where
  once := by
    rw [h.length_invocations lease]
    exact Bool.toNat_le _
  own := by
    refine ⟨l, hl, fun q hq => ?_⟩
    obtain ⟨⟨f, e⟩, hmem, he⟩ := List.mem_filterMap.mp hq
    obtain ⟨w, run, l', rfl, hl', -, hown⟩ := Event.of_invoked? he
    obtain ⟨-, _, hlater⟩ := h.stir_of_mem (kempt_init minted) hmem
    obtain ⟨l'', hl'', hrelease⟩ := hlater.release hl'
    obtain rfl := Option.some.inj (hl.symm.trans hl'')
    rw [hrelease, hown]
  shown v := by
    have hlength := h.length_invocations lease
    have hflag : s.world.store.isReleased lease = !(invocations lease record).isEmpty := by
      cases hreleased : s.world.store.isReleased lease <;> rw [hreleased] at hlength
      · rw [List.length_eq_zero_iff.mp hlength]
        rfl
      · cases hinvoked : invocations lease record with
        | nil =>
          rw [hinvoked] at hlength
          cases hlength
        | cons q qs => rfl
    rw [← hflag]
    rfl

/-- **What is known of every evaluation that releases a lease.** -/
theorem Run.releases (hearly : Run budget (init minted) early s₁) (hlate : Run budget s₁ late s)
    {l : Lease} (hl : s₁.world.store.lease? lease = some l) {before es rest : List Event}
    {a c : Standing} (hbefore : History s₁ early fiber before (lease.start ε x base))
    (hhistory : History s (early ++ late) fiber (before ++ (es ++ rest)) a)
    (hstage : lease.Stage ε x base fiber es c) :
    Releases ε (early ++ late) lease x base fiber es c := by
  have hlater : ∀ {e : Event}, e ∈ es → e.isDoing = true → (fiber, e) ∈ late := fun he =>
    hbefore.mem_late hhistory (List.mem_append_left _ he)
  have hlength := (hearly.append hlate).length_invocations lease
  have hinvoked : ∀ {w : World} {l : Lease}, w.store.lease? lease = some l → l.released = false →
      (lease.looks x base w).invoked? lease = some (l.release, x.withoutValue) :=
    Event.invoked?_releaseLease
  refine ⟨hstage, fun e he q hq => ?_, fun o hc hne => ?_, fun hnone => ?_⟩
  · rcases hstage.harmless_or_invokes with hall | ⟨w, l', hw, hl', hopen⟩
    · rw [(hall e he).1] at hq
      cases hq
    · -- there is one invocation only
      obtain ⟨w', run, l'', rfl, -, -, -⟩ := Event.of_invoked? hq
      have hfirst := mem_invocations (List.mem_append_right early (hlater hw rfl))
        (hinvoked hl' hopen)
      have hsecond := mem_invocations (List.mem_append_right early (hlater he rfl)) hq
      have honce : (invocations lease (early ++ late)).length ≤ 1 := by
        rw [hlength]
        exact Bool.toNat_le _
      obtain ⟨i, hi, hfirst⟩ := List.getElem_of_mem hfirst
      obtain ⟨j, hj, hsecond⟩ := List.getElem_of_mem hsecond
      obtain rfl : i = j := by omega
      rw [← hsecond, hfirst]
  · rcases hstage.settled hc with ⟨source, ho⟩ | ⟨w, hw, -⟩
    · exact absurd ho (hne source)
    · rw [hlength, Run.isReleased_of_looks hearly hlate hl (hlater hw rfl)]
      rfl
  · refine ⟨?_, fun o hc => ?_⟩
    · rcases hstage.harmless_or_invokes with hall | ⟨w, l', hw, hl', hopen⟩
      · exact fun e he => (hall e he).2
      · cases (hnone _ hw).symm.trans (hinvoked hl' hopen)
    · rcases hstage.settled hc with hstopped | ⟨w, hw, hdone | ⟨l', hl', hopen⟩⟩
      · exact Or.inr hstopped
      · exact Or.inl hdone
      · cases (hnone _ hw).symm.trans (hinvoked hl' hopen)

/-- **A lease is released once**, by however many fibers, in whichever order they get to it, and
whoever is asked to stop meanwhile: whatever an allocation hands out is a lease of which that is
known, and so is what becomes of every evaluation that releases it.  No fiber ends in the midst of
such an evaluation. -/
theorem Run.spends_lease_once {m : Resource ε} {g : FiberId} {base₀ : RunState}
    {during : List Event} {u : Value} (hearly : Run budget (init minted) early s₁)
    (hdone : Evaluated s₁ early g base₀ m.allocate during (.done u))
    (hlate : Run budget s₁ late s) :
    ∃ lease v, u = .lease lease v ∧ s.Spent (early ++ late) lease ∧
      ∀ (x : Exit Value Value) (base : RunState) (fiber : FiberId) (before after : List Event)
        (a : Standing), History s₁ early fiber before (lease.start ε x base) →
        History s (early ++ late) fiber (before ++ after) a →
        Life fiber (lease.start ε x base) after a →
          ∃ es rest c, after = es ++ rest ∧ Life fiber c rest a ∧
            Releases ε (early ++ late) lease x base fiber es c ∧
            ((rest = [] ∧ c = a) ∨ ∃ o, c = .handed base o) ∧
            ((∃ o, a = .ended o) → ∃ o, c = .handed base o) := by
  obtain ⟨lease, v, l, rfl, hl⟩ := hearly.allocated hdone
  obtain ⟨l', hl', -⟩ := ((hlate.stir (hearly.stir (kempt_init minted)).1).2).release hl
  refine ⟨lease, v, rfl, (hearly.append hlate).spent hl', ?_⟩
  intro x base fiber before after a hbefore hhistory hlife
  obtain ⟨es, rest, c, rfl, hstage, hrest, hend⟩ := LeaseId.exists_stage hlife
  refine ⟨es, rest, c, rfl, hrest, hearly.releases hlate hl hbefore hhistory hstage,
    hend.imp_left fun ⟨hnone, hc, _⟩ => ⟨hnone, hc⟩, ?_⟩
  rintro ⟨o, rfl⟩
  exact hend.resolve_left fun ⟨_, _, hinside⟩ => hinside

/-- How a lease is released when its owner has been stopped. -/
def returnStopped : Effect ⟨"E"⟩ := (⟨0⟩ : LeaseId).releaseExit (.halt (.of (.interrupt ⟨1⟩)))

/-- Two fibers are started that release what a fiber has left with, for different exits, and some
moves. -/
def returned (n : Nat) : Machine :=
  let m := (begun plain.allocate 40).startRoot
    ((⟨0⟩ : LeaseId).release : Effect ⟨"E"⟩) .unit none
  let m := m.2.startRoot returnStopped .unit none
  m.2.moves none n

/-- Whether an allocation hands out the first lease that is made. -/
def handsOutFirst : Outcome → Bool
  | .done (.lease lease _) => lease = ⟨0⟩
  | _ => false

/-- The first one of them invokes the release, the other one finds that this has been done. -/
theorem Run.spends_lease_once_returned :
    ∃ late s lease es c, Run 16 (returned 0).workshop late s ∧
      s.Spent (recordBegun plain.allocate 40 ++ late) lease ∧
      (invocations lease (recordBegun plain.allocate 40 ++ late)).length = 1 ∧
      Releases ⟨"E"⟩ (recordBegun plain.allocate 40 ++ late) lease (.halt (.of (.interrupt ⟨1⟩)))
        (.start .unit true) ⟨3⟩ es c ∧ ∃ o, c = .handed (.start .unit true) o := by
  have hearly : Run 16 (init 0) (recordBegun plain.allocate 40) (returned 0).workshop := by
    have hstarts : Run 16 (afterBegun plain.allocate 40) [] (returned 0).workshop :=
      .idle (.start _ .unit none) (.idle (.start _ .unit none) .rest)
    have hwhole := (run_begun plain.allocate 40).append hstarts
    rwa [List.append_nil] at hwhole
  have hlate : Run 16 (returned 0).workshop ((returned 0).record none 40) (returned 40).workshop :=
    Machine.moves_run none 40 (returned 0)
  -- the allocation has handed out a lease
  obtain ⟨during, o, hdone, hleased⟩ : ∃ during o, Evaluated (returned 0).workshop
      (recordBegun plain.allocate 40) ⟨1⟩ (.start .unit true) plain.allocate during o ∧
        handsOutFirst o = true := by
    obtain ⟨during, o, hdone, hleased, -⟩ := hearly.evaluated_of_isFinished handsOutFirst
      ⟨_, rfl⟩ rfl (by decide +kernel) (by decide +kernel)
      (by decide +kernel : (recordBegun plain.allocate 40).any (endsSo ⟨1⟩ handsOutFirst) = true)
    exact ⟨during, o, hdone, hleased⟩
  cases o with
  | halt h => cases hleased
  | done u =>
    obtain ⟨lease, v, rfl, hspent, hreleases⟩ := Run.spends_lease_once hearly hdone hlate
    obtain rfl : lease = ⟨0⟩ := of_decide_eq_true hleased
    -- the other fiber stands before its release
    have hstart : History (returned 0).workshop (recordBegun plain.allocate 40) ⟨3⟩
        [.started .unit true returnStopped]
        ((⟨0⟩ : LeaseId).start ⟨"E"⟩ (.halt (.of (.interrupt ⟨1⟩))) (.start .unit true)) :=
      ⟨.one trivial (.started _ _ _), ⟨rfl, rfl⟩, rfl⟩
    obtain ⟨after, a, ha, hlife, hdoings⟩ := hlate.extends_history
      (hearly.valid (valid_init 0)) hstart.stands
    have hhistory := History.mk (hstart.life.append hlife) ha
      (by rw [List.filter_append, hstart.doings, hdoings, ← eventsOf_append])
    obtain ⟨es, rest, c, rfl, -, hreleased, -, hends⟩ :=
      hreleases _ _ ⟨3⟩ _ after a hstart hhistory hlife
    refine ⟨_, _, ⟨0⟩, es, c, hlate, hspent, ?_, hreleased, hends ?_⟩
    · decide +kernel
    · exact ha.ended_of_isFinished (by decide +kernel)

end Workshop

end Fibers
