import Fibers.Proofs.Telling

/-!
# The rest of a fiber is held once

The rest of a fiber is what is left to do of it.  It is moved about a great deal: to the queue of
the ready fibers, to whoever is running the fiber, to a place at which the fiber waits.  Waits are
completed late, early or many times, they are interrupted, and their registration may panic.
Whatever happens, the rest of an unfinished fiber is held in exactly one place, and of all attempts
to end one wait at most one takes effect.

That a wait ends once is seen by counting: a deed that ends it finds it going on, and leaves it
over for good.

## Main definitions

* `Holder`, `Workshop.holders` — who holds the rest of a fiber.
* `Deed.ends`, `Deed.interrupts`, `Deed.cancels`, `Deed.finishes` — what deeds do.
* `Workshop.Linear` — the rest of every fiber is held once, and nothing happens twice.

## Main results

* `Chronicle.countP_ends_le` — a wait ends at most once.
* `Chronicle.countP_finishes_le` — a fiber finishes at most once.
* `Workshop.Run.linear` — **every run is linear.**
-/

namespace Fibers

/-! ### Holders -/

/-- Who holds the rest of a fiber. -/
inductive Holder where
  /-- The fiber is running. -/
  | running (slice : Slice)
  /-- The fiber is ready to run. -/
  | ready (task : Task)
  /-- The fiber is parked at a place. -/
  | parked (s : SuspensionId) (run : RunState)

namespace Holder

/-- How a fiber stands that is held like this. -/
def standing : Holder → Standing
  | .running slice => .active slice.run slice.step
  | .ready task => .active task.run task.step
  | .parked _ run => .waiting run

/-- A place that holds a fiber is the one that is known of the fiber. -/
def Known (w : World) (fiber : FiberId) : Holder → Prop
  | .running _ => True
  | .ready _ => True
  | .parked s _ => ∃ r, w.store.fiber? fiber = some r ∧ r.suspension = some s

end Holder

/-- The place as a holder of a fiber. -/
def Suspension.holder? (fiber : FiberId) (s : SuspensionId) (p : Suspension) : Option Holder :=
  if p.fiber = fiber then p.state.run?.map (.parked s) else none

/-- All who hold the rest of a fiber. -/
def Workshop.holders (s : Workshop) (fiber : FiberId) : List Holder :=
  (s.running.filter (·.fiber = fiber)).map .running ++
    (s.world.tasks.toList.filter (·.fiber = fiber)).map .ready ++
    s.world.suspensions.toList.filterMap fun e => e.2.holder? fiber ⟨e.1⟩

theorem Numbered.mem_toList {α : Type} {t : Numbered α} {n : Nat} {a : α} :
    (n, a) ∈ t.toList ↔ t.get? n = some a := by
  unfold toList get?
  rw [List.mem_map]
  constructor
  · rintro ⟨⟨b, i⟩, hmem, heq⟩
    obtain ⟨rfl, rfl⟩ := Prod.mk.inj heq
    have hget := List.mem_zipIdx_iff_getElem?.mp hmem
    rw [if_pos (Nat.le_add_right _ _), Nat.add_sub_cancel_left]
    rwa [Array.getElem?_toList] at hget
  · intro h
    split at h
    · next hle =>
      refine ⟨(a, n - t.first), ?_, ?_⟩
      · rw [List.mem_zipIdx_iff_getElem?, Array.getElem?_toList]
        exact h
      · rw [Nat.add_sub_cancel' hle]
    · cases h

/-- The holders are what the workshop holds of a fiber. -/
theorem Workshop.map_standing_holders (s : Workshop) (fiber : FiberId) :
    (s.holders fiber).map Holder.standing = inHand s.running fiber ++ s.world.held fiber := by
  have hplace : ∀ e : Nat × Suspension,
      ((e.2.holder? fiber ⟨e.1⟩).map Holder.standing).toList = e.2.held fiber := by
    intro e
    unfold Suspension.holder? Suspension.held
    split
    · rw [Option.map_map]
      rfl
    · rfl
  have hplaces : (s.world.suspensions.toList.filterMap fun e => e.2.holder? fiber ⟨e.1⟩).map
      Holder.standing = s.world.parked fiber := by
    have hentries : s.world.suspensions.toList.map Prod.snd =
        s.world.suspensions.entries.toList := by
      rw [Numbered.toList, List.map_map]
      exact List.zipIdx_map_fst 0 _
    rw [World.parked, ← hentries, List.flatMap_map, List.map_filterMap,
      List.filterMap_eq_flatMap_toList]
    exact List.flatMap_congr fun e _ => hplace e
  rw [holders, List.map_append, List.map_append, hplaces, List.map_map, List.map_map, World.held,
    World.ready, inHand, List.append_assoc]
  simp only [Function.comp_def, Holder.standing]

/-- A place holds a fiber if the fiber is parked there. -/
theorem Workshop.place_of_mem_holders {s : Workshop} {fiber : FiberId} {t : SuspensionId}
    {run : RunState} (h : .parked t run ∈ s.holders fiber) :
    ∃ p, s.world.suspension? t = some p ∧ p.fiber = fiber ∧ p.state.run? = some run := by
  rcases List.mem_append.mp h with h | h
  · rcases List.mem_append.mp h with h | h
    · obtain ⟨slice, -, heq⟩ := List.mem_map.mp h
      cases heq
    · obtain ⟨task, -, heq⟩ := List.mem_map.mp h
      cases heq
  · obtain ⟨⟨n, p⟩, hmem, hholder⟩ := List.mem_filterMap.mp h
    simp only [Suspension.holder?] at hholder
    split at hholder
    · next hfiber =>
      obtain ⟨run', hrun, heq⟩ := Option.map_eq_some_iff.mp hholder
      obtain ⟨rfl, rfl⟩ := Holder.parked.inj heq
      exact ⟨p, Numbered.mem_toList.mp hmem, hfiber, hrun⟩
    · cases hholder

/-! ### What deeds do -/

namespace Deed

/-- Whether the wait at a place is ended. -/
def ends (s : SuspensionId) : Deed → Bool
  | .completed t _ => t = s
  | .interrupted t _ => t = s
  | .answered _ t _ => t = s
  | .cancelled _ => false
  | .made _ => false
  | .asked _ _ => false
  | .finished _ _ => false

@[simp] theorem ends_interrupted (s t : SuspensionId) (source : FiberId) :
    (interrupted t source).ends s = decide (t = s) := rfl

@[simp] theorem ends_cancelled (s t : SuspensionId) : (cancelled t).ends s = false := rfl

/-- Whether the wait at a place is ended by an interruption. -/
def interrupts (s : SuspensionId) : Deed → Bool
  | .interrupted t _ => t = s
  | _ => false

@[simp] theorem interrupts_interrupted (s t : SuspensionId) (source : FiberId) :
    (interrupted t source).interrupts s = decide (t = s) := rfl

@[simp] theorem interrupts_cancelled (s t : SuspensionId) :
    (cancelled t).interrupts s = false := rfl

/-- Whether what is to be done on interruption of the wait at a place is done. -/
def cancels (s : SuspensionId) : Deed → Bool
  | .cancelled t => t = s
  | _ => false

@[simp] theorem cancels_interrupted (s t : SuspensionId) (source : FiberId) :
    (interrupted t source).cancels s = false := rfl

@[simp] theorem cancels_cancelled (s t : SuspensionId) :
    (cancelled t).cancels s = decide (t = s) := rfl

/-- Whether a fiber finishes. -/
def finishes (fiber : FiberId) : Deed → Bool
  | .finished f _ => f = fiber
  | _ => false

@[simp] theorem finishes_interrupted (fiber : FiberId) (s : SuspensionId) (source : FiberId) :
    (interrupted s source).finishes fiber = false := rfl

@[simp] theorem finishes_cancelled (fiber : FiberId) (s : SuspensionId) :
    (cancelled s).finishes fiber = false := rfl

end Deed

namespace World

/-- Whether an outcome for a place comes too late. -/
def isOver (w : World) (s : SuspensionId) : Bool := (w.suspension? s).any fun p => p.state.isOver

variable {w w' : World}

theorem isOver_of_suspensions (h : w'.suspensions = w.suspensions) (s : SuspensionId) :
    w'.isOver s = w.isOver s := by
  rw [isOver, isOver, suspension?, suspension?, h]

theorem suspensions_schedule (w : World) (fiber : FiberId) (run : RunState) (step : Step) :
    (w.schedule fiber run step).suspensions = w.suspensions := rfl

theorem isOver_setSuspension {s : SuspensionId} {place : Suspension}
    (hplace : w.suspension? s = some place) (state : SuspensionState) (t : SuspensionId) :
    (w.setSuspension s state).isOver t = if t = s then state.isOver else w.isOver t := by
  rw [isOver, suspension?_setSuspension, hplace]
  split <;> rfl

theorem isOver_resume {s : SuspensionId} {place : Suspension}
    (hplace : w.suspension? s = some place) (outcome : Outcome) (t : SuspensionId) :
    (w.resume s outcome).2.isOver t = if t = s then true else w.isOver t := by
  rw [isOver, suspension?_resume, hplace]
  split
  · exact SuspensionState.isOver_completed outcome place.state
  · rfl

theorem isLive_of_isOver {s : SuspensionId} (h : w.isOver s = true) : w.isLive s = false := by
  rw [isOver] at h
  rw [isLive]
  cases hs : w.suspension? s with
  | none => rfl
  | some p =>
    rw [hs, Option.any_some] at h
    rw [Option.map_some]
    cases hstate : p.state with
    | registering | waiting _ _ =>
      rw [hstate] at h
      cases h
    | _ => rfl

theorem isOver_of_isLive {s : SuspensionId} (h : w.isLive s = true) : w.isOver s = false := by
  cases hover : w.isOver s with
  | false => rfl
  | true =>
    rw [isLive_of_isOver hover] at h
    cases h

/-- A wait that is over cannot be interrupted. -/
theorem interruptAt_of_isOver {s : SuspensionId} (h : w.isOver s = true) (fiber source : FiberId) :
    w.interruptAt fiber s source = w := by
  unfold interruptAt
  unfold isOver at h
  cases hs : w.suspension? s with
  | none => rfl
  | some p =>
    rw [hs, Option.any_some] at h
    rw [Option.map_some]
    cases hstate : p.state with
    | waiting _ _ =>
      rw [hstate] at h
      cases h
    | _ => rfl

end World

namespace Chronicle

variable {w w' : World} {deeds : List Deed}

/-- What is told at a place is told once. -/
theorem countP_answered (c : ChannelId) (told : List (SuspensionId × Answer Value))
    (s : SuspensionId) :
    (told.map fun t => Deed.answered c t.1 t.2).countP (·.ends s) =
      (told.map Prod.fst).count s := by
  rw [List.countP_map, List.count, List.countP_map]
  refine List.countP_congr fun t _ => ?_
  simp [Deed.ends]

/-- **A wait ends at most once**: a deed that ends it finds it going on. -/
theorem countP_ends_le (h : Chronicle w deeds w') (hw : w.Orderly) (s : SuspensionId) :
    deeds.countP (·.ends s) + (w.isOver s).toNat ≤ (w'.isOver s).toNat := by
  have hbool : ∀ b : Bool, b.toNat ≤ 1 := Bool.toNat_le
  induction h with
  | idle hidle =>
    rw [World.isOver_of_suspensions hidle.suspensions]
    exact Nat.le_of_eq (Nat.zero_add _)
  | @opened w fiber allowed registration _ =>
    have hsame : (w.newSuspension fiber allowed registration).2.isOver s = w.isOver s := by
      rw [World.isOver, World.suspension?_newSuspension]
      split
      · next heq => rw [World.isOver, heq, World.suspension?_next]; rfl
      · rfl
    rw [hsame]
    exact Nat.le_of_eq (Nat.zero_add _)
  | @parked w t place r run onInterrupt hplace hstate _ _ _ =>
    rw [World.isOver_setSuspension hplace]
    split
    · next heq =>
      have hbefore : w.isOver s = false := by
        rw [World.isOver, heq, hplace, Option.any_some, hstate]
        rfl
      rw [hbefore]
      exact Nat.le_refl _
    · exact Nat.le_of_eq (Nat.zero_add _)
  | @vacated w t place hplace _ _ =>
    rw [World.isOver_setSuspension hplace, List.countP_nil, Nat.zero_add]
    split
    · exact hbool _
    · exact Nat.le_refl _
  | @completed w t outcome hplain hlive =>
    obtain ⟨p, hp, -⟩ := hplain
    rw [World.isOver_resume hp]
    by_cases heq : s = t
    · subst heq
      rw [World.isOver_of_isLive hlive, if_pos rfl]
      simp [Deed.ends]
    · simp [Deed.ends, heq, Ne.symm heq]
  | @interrupted w t place run onInterrupt deeds source hplace hstate hstays _ ih =>
    have hrest := ih (hw.vacate hplace rfl (hw.out_of_waiting hplace hstate hstays))
    rw [World.isOver_setSuspension hplace] at hrest
    rw [World.isOver_of_suspensions (World.suspensions_schedule _ _ _ _)]
    by_cases heq : s = t
    · subst heq
      have hbefore : w.isOver s = false := by
        rw [World.isOver, hplace, Option.any_some, hstate]
        rfl
      rw [if_pos rfl, SuspensionState.isOver, Bool.toNat_true] at hrest
      rw [hbefore]
      simpa using hrest
    · rw [if_neg heq] at hrest
      simpa [Ne.symm heq] using hrest
  | @left w t place run c ch line ticket source hplace hstate hch =>
    have hover : (((w.setSuspension t .over).setChannel c (ch.leave line ticket)).schedule
        place.fiber run (.interrupt source)).isOver s =
          if s = t then true else w.isOver s :=
      World.isOver_setSuspension hplace .over s
    rw [hover]
    by_cases heq : s = t
    · subst heq
      have hbefore : w.isOver s = false := by
        rw [World.isOver, hplace, Option.any_some, hstate]
        rfl
      simp [hbefore, Deed.ends]
    · simp [Deed.ends, heq, Ne.symm heq]
  | @made w capacity _ =>
    exact Nat.le_of_eq (Nat.zero_add _)
  | @asked w c ch request hch hasks =>
    have hdisjoint := hasks.served.told (hw.channels hch) fun t ht => hasks.fresh ht
    have hnodup := (List.nodup_append.mp hdisjoint).1
    rw [List.countP_cons, countP_answered, Deed.ends, if_neg Bool.false_ne_true, Nat.add_zero]
    by_cases hmem : s ∈ (ch.serve request).1.map Prod.fst
    · -- who is told something has not been told anything before
      obtain ⟨p, -, hp, -, hlive⟩ := hw.of_told hch hasks hmem
      obtain ⟨state, hp', -, hover⟩ := World.suspension?_tell
        (w := w.setChannel c (ch.serve request).2) (ch.serve request).1 hp
      have hafter : (w.ask c ch request).isOver s = true := by
        rw [World.isOver, World.ask, hp']
        exact hover hmem
      rw [World.isOver_of_isLive hlive, hafter]
      exact List.nodup_iff_count_le_one.mp hnodup s
    · have hsame : (w.ask c ch request).isOver s = w.isOver s := by
        rw [World.isOver, World.ask, World.suspension?_tell_other hmem]
        rfl
      rw [hsame, List.count_eq_zero.mpr hmem]
      exact Nat.le_of_eq (Nat.zero_add _)
  | finished outcome _ _ => exact Nat.le_of_eq (Nat.zero_add _)
  | trans h _ ih ih' =>
    have hfirst := ih hw
    have hsecond := ih' (h.orderly hw)
    rw [List.countP_append]
    omega

/-- What is to be done on interruption is done once for every interruption. -/
theorem countP_cancels (h : Chronicle w deeds w') (s : SuspensionId) :
    deeds.countP (·.cancels s) = deeds.countP (·.interrupts s) := by
  induction h with
  | idle _ | opened _ _ _ _ | parked _ _ _ _ _ _ | vacated _ _ _ | made _ => rfl
  | completed outcome _ _ | finished outcome _ _ => rfl
  | interrupted source _ _ _ _ ih =>
    simp [List.countP_cons, ih]
  | left source _ _ _ =>
    simp [List.countP_cons, Deed.cancels, Deed.interrupts]
  | asked _ _ => simp [List.countP_map, Function.comp_def, Deed.cancels, Deed.interrupts]
  | trans _ _ ih ih' => rw [List.countP_append, List.countP_append, ih, ih']

theorem interrupts_le_ends (deeds : List Deed) (s : SuspensionId) :
    deeds.countP (·.interrupts s) ≤ deeds.countP (·.ends s) := by
  refine List.countP_mono_left fun d _ hd => ?_
  cases d with
  | interrupted t source => exact hd
  | _ => cases hd

/-- **A fiber finishes at most once.** -/
theorem countP_finishes_le (h : Chronicle w deeds w') (fiber : FiberId) :
    deeds.countP (·.finishes fiber) + (w.store.isFinished fiber).toNat ≤
      (w'.store.isFinished fiber).toNat := by
  have hsame : ∀ {w w' : World}, w'.store.fibers = w.store.fibers →
      w'.store.isFinished fiber = w.store.isFinished fiber := by
    intro w w' hf
    rw [Store.isFinished, Store.isFinished, Store.fiber?, Store.fiber?, hf]
  induction h with
  | @idle w w' hidle =>
    have heq : w'.store.isFinished fiber = w.store.isFinished fiber := by
      unfold Store.isFinished
      cases hr : w.store.fiber? fiber with
      | some r =>
        obtain ⟨r', hr', hfinished, -⟩ := hidle.old hr
        rw [hr', Option.any_some, Option.any_some, hfinished]
      | none =>
        cases hr' : w'.store.fiber? fiber with
        | none => rfl
        | some r' => exact (hidle.new hr hr').1
    rw [heq]
    exact Nat.le_of_eq (Nat.zero_add _)
  | @opened w f allowed registration _ =>
    have heq : (w.newSuspension f allowed registration).2.store.isFinished fiber =
        w.store.isFinished fiber := by
      simp only [Store.isFinished, World.newSuspension, World.modifyFiber, Store.fiber?_modifyFiber]
      split
      · next heq => rw [heq]; cases w.store.fiber? f <;> rfl
      · rfl
    rw [heq]
    exact Nat.le_of_eq (Nat.zero_add _)
  | parked _ _ _ _ _ _ | vacated _ _ _ | made _ => exact Nat.le_of_eq (Nat.zero_add _)
  | completed outcome _ _ =>
    rw [World.store_resume]
    exact Nat.le_of_eq (Nat.zero_add _)
  | @interrupted w t place run onInterrupt deeds source _ _ _ _ ih =>
    have hbefore : (w.setSuspension t .over).store.isFinished fiber = w.store.isFinished fiber :=
      hsame rfl
    rw [hbefore] at ih
    simpa using ih
  | left source _ _ _ => exact Nat.le_of_eq (Nat.zero_add _)
  | @asked w c ch request _ _ =>
    have hnone : (.asked c request :: (ch.serve request).1.map fun t =>
        Deed.answered c t.1 t.2).countP (·.finishes fiber) = 0 := by
      simp [List.countP_map, Function.comp_def, Deed.finishes]
    have hbefore : (w.ask c ch request).store.isFinished fiber = w.store.isFinished fiber := by
      rw [World.ask, World.store_tell]
      exact hsame rfl
    exact Nat.le_of_eq (by rw [hnone, hbefore, Nat.zero_add])
  | @finished w f outcome hphase _ =>
    have hafter : (w.finish f outcome).store.isFinished fiber =
        if fiber = f then true else w.store.isFinished fiber := by
      simp only [Store.isFinished, World.finish, World.modifyFiber, Store.fiber?_modifyFiber]
      split
      · next heq =>
        cases hr : w.store.fiber? f with
        | none => simp [World.phase, hr] at hphase
        | some r => rfl
      · rfl
    rw [hafter]
    by_cases heq : fiber = f
    · subst heq
      have hbefore : w.store.isFinished fiber = false := by
        unfold Store.isFinished
        cases hr : w.store.fiber? fiber with
        | none => rfl
        | some r =>
          rw [World.phase, hr] at hphase
          exact Option.some.inj hphase
      simp [hbefore, Deed.finishes]
    · simp [Deed.finishes, heq, Ne.symm heq]
  | trans _ _ ih ih' =>
    rw [List.countP_append]
    omega

end Chronicle

/-! ### Linear workshops -/

namespace Workshop

/-- The rest of every unfinished fiber is held once, and of what has happened so far nothing has
happened twice. -/
structure Linear (s : Workshop) (deeds : List Deed) : Prop where
  /-- An unfinished fiber has one holder; if it is a place, it is the one known of the fiber. -/
  unfinished : ∀ fiber, s.world.phase fiber = some false →
    ∃ holder, s.holders fiber = [holder] ∧ holder.Known s.world fiber
  /-- Nobody holds anything of the others. -/
  finished : ∀ fiber, s.world.phase fiber ≠ some false → s.holders fiber = []
  /-- A wait has ended at most once. -/
  once : ∀ t, deeds.countP (·.ends t) ≤ 1
  /-- What is to be done on interruption has been done if the wait was ended by one. -/
  cancels : ∀ t, deeds.countP (·.cancels t) = deeds.countP (·.interrupts t) ∧
    deeds.countP (·.interrupts t) ≤ deeds.countP (·.ends t)
  /-- Nothing ends a wait that has ended. -/
  late : ∀ t, 0 < deeds.countP (·.ends t) →
    (∀ outcome, s.world.resume t outcome = (false, s.world)) ∧
      ∀ fiber source, s.world.interruptAt fiber t source = s.world
  /-- A fiber has finished at most once. -/
  finishes : ∀ fiber, deeds.countP (·.finishes fiber) ≤ 1

theorem holders_of_stands {s : Workshop} {fiber : FiberId} {a : Standing}
    (h : s.Stands fiber a) : (s.holders fiber).map Holder.standing = a.tokens :=
  (s.map_standing_holders fiber).trans h.tokens

/-- A place that holds a fiber is known of it. -/
theorem known_of_mem_holders {s : Workshop} (hw : s.world.Orderly) {fiber : FiberId}
    {holder : Holder} (h : holder ∈ s.holders fiber) : holder.Known s.world fiber := by
  cases holder with
  | running _ | ready _ => trivial
  | parked t run =>
    obtain ⟨p, hp, rfl, hrun⟩ := place_of_mem_holders h
    cases hstate : p.state with
    | waiting run' onInterrupt => exact hw.recorded hp hstate
    | _ =>
      rw [hstate] at hrun
      cases hrun

/-- **Every run is linear**, under every schedule and whatever programs do: there is a chronicle of
it, and in every chronicle of it nothing happens twice. -/
theorem Run.linear {budget minted : Nat} {s : Workshop} {record : List (FiberId × Event)}
    (h : Run budget (init minted) record s) :
    (∃ deeds, Chronicle (.init minted) deeds s.world) ∧
      ∀ deeds, Chronicle (.init minted) deeds s.world → s.Linear deeds := by
  have hinit := World.orderly_init minted
  refine ⟨h.exists_chronicle (valid_init minted) hinit, fun deeds hdeeds => ?_⟩
  have hw := hdeeds.orderly hinit
  have hstands := (h.valid (valid_init minted)).stands
  have hends := fun t => hdeeds.countP_ends_le hinit t
  have hover : ∀ t, (World.isOver s.world t).toNat ≤ 1 := fun t => Bool.toNat_le _
  refine ⟨fun fiber hphase => ?_, fun fiber hphase => ?_, fun t => ?_, fun t => ?_, fun t ht => ?_,
    fun fiber => ?_⟩
  · obtain ⟨a, ha⟩ := hstands fiber
    have hmap := holders_of_stands ha
    have hone : ∃ b, a.tokens = [b] := by
      have haphase := ha.phase.symm.trans hphase
      cases a with
      | active run step => exact ⟨_, rfl⟩
      | waiting run => exact ⟨_, rfl⟩
      | unborn | ended _ => cases haphase
    obtain ⟨b, hb⟩ := hone
    rw [hb, List.map_eq_singleton_iff] at hmap
    obtain ⟨holder, hholder, -⟩ := hmap
    exact ⟨holder, hholder, known_of_mem_holders hw (hholder ▸ List.mem_singleton_self _)⟩
  · obtain ⟨a, ha⟩ := hstands fiber
    have hmap := holders_of_stands ha
    cases a with
    | unborn | ended _ => exact List.map_eq_nil_iff.mp hmap
    | active run step | waiting run => exact absurd ha.phase hphase
  · have hone := hends t
    have hmost := hover t
    omega
  · exact ⟨hdeeds.countP_cancels t, Chronicle.interrupts_le_ends deeds t⟩
  · have htrue : s.world.isOver t = true := by
      have hone := hends t
      cases hflag : s.world.isOver t with
      | true => rfl
      | false =>
        rw [hflag, Bool.toNat_false] at hone
        omega
    exact ⟨World.resume_of_not_live (World.isLive_of_isOver htrue),
      World.interruptAt_of_isOver htrue⟩
  · have hone := hdeeds.countP_finishes_le fiber
    have hmost : (s.world.store.isFinished fiber).toNat ≤ 1 := Bool.toNat_le _
    omega

/-- A wait that somebody else has to end. -/
def patientWait : Instruction := .wait (.callback fun _ => pure (pure ()))

/-- A wait is completed twice and interrupted after that: the fiber is ready with what came
first. -/
theorem Run.linear_patientWait :
    ∃ s record, Run 8 (init 0) record s ∧
      s.holders ⟨1⟩ = [.ready ⟨⟨1⟩, .start .unit true, .value .unit⟩] ∧
      (∃ deeds, Chronicle (.init 0) deeds s.world) ∧
      ∀ deeds, Chronicle (.init 0) deeds s.world → s.Linear deeds := by
  have hrun : Run 8 (init 0) _ _ :=
    .move (.start patientWait .unit none) <|
    .move (.pick_first rfl) <|
    .move (.advance_one _ _ _) <|
    .move (.act (Action.complete ⟨0⟩ (.done .unit))) <|
    .move (.act (Action.complete ⟨0⟩ (.done (.bool true)))) <|
    .move (.interrupt ⟨1⟩ ⟨0⟩) .rest
  exact ⟨_, _, hrun, rfl, Run.linear hrun⟩

end Workshop

end Fibers
