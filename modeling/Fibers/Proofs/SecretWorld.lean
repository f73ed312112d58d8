import Fibers.Machine.Releasing
import Fibers.Machine.Waiting
import Fibers.Proofs.Influence
import Fibers.Proofs.SecretEffects

/-!
# Worlds in which a fiber is kept secret

In a world that keeps a fiber secret nothing that is kept as data tells of it, and no code that is
left to be run has been told of it, except where a fiber is in the midst of something that it keeps
to itself.  There it may wait for the secret fiber; what it still had to do before that, its floor,
has not been told either, and is handed nothing that tells.  A fiber may also be watched step by
step for some time; of that nothing is asked but that the exits that it is handed do not tell.

Whatever the runtime does for a fiber or for a program leaves such a world.

## Main definitions

* `Takes`, `RunState.Takes` — the rest of a fiber, which keeps a fiber secret from its floor.
* `Step.Guards`, `Runs.Guards` — what a fiber goes on with.
* `Watch` — how a fiber is watched.
* `World.Guards` — a world in which a fiber is kept secret.

## Main results

* `World.Guards.run` — an action leaves such a world.
* `World.Guards.buildRelease`, `World.Guards.interrupt` — so do building a release and a request for
  interruption.
-/

namespace Fibers

variable {c : FiberId} {t : Bool} {w : World}

/-! ### Tables -/

namespace Numbered

variable {α : Type} {P : α → Prop} {table : Numbered α} {n m : Nat} {a b : α} {f : α → α}

/-- What holds of all entries of a table and of a new one holds of all entries. -/
theorem forall_push (h : ∀ {n a}, table.get? n = some a → P a) (ha : P a)
    (hb : (table.push a).get? n = some b) : P b := by
  rw [get?_push] at hb
  split at hb
  · exact Option.some.inj hb ▸ ha
  · exact h hb

/-- What holds of all entries of a table and of what one of them becomes holds of all entries. -/
theorem forall_modify (h : ∀ {n a}, table.get? n = some a → P a)
    (hf : ∀ a, table.get? m = some a → P (f a)) (hb : (table.modify m f).get? n = some b) :
    P b := by
  rw [get?_modify] at hb
  split at hb
  · next heq =>
    subst heq
    obtain ⟨a, ha, rfl⟩ := Option.map_eq_some_iff.mp hb
    exact hf a ha
  · exact h hb

end Numbered

/-! ### The rest of a fiber -/

/-- `Takes c floor k stack` says that a continuation stack may be handed whatever is handed on with
the clearance `k`.  Above the floor it may wait for the fiber `c`. -/
inductive Takes (c : FiberId) (floor : Option (List Frame)) : Clearance → List Frame → Prop where
  | bottom : Takes c floor ⟨false, false⟩ []
  /-- Where the floor is reached the clearance to wait is lost. -/
  | floor {t : Bool} {stack : List Frame} : floor = some stack → Takes c floor ⟨false, t⟩ stack →
      Takes c floor ⟨true, t⟩ stack
  | chain {waits t t' : Bool} {next : Value → Action Instruction} {stack : List Frame} :
      (∀ v, v.Cleared c t → Action.Guards c (Instruction.Guards c) (next v) ⟨waits, t'⟩) →
      Takes c floor ⟨waits, t'⟩ stack → Takes c floor ⟨waits, t⟩ (.chain next :: stack)
  | fold {waits t t' : Bool} {onHalt : Halt Failure → Action Instruction}
      {onDone : Value → Action Instruction} {sameError : Bool} {stack : List Frame} :
      (∀ h : Halt Failure, h.Omits c →
        Action.Guards c (Instruction.Guards c) (onHalt h) ⟨waits, t'⟩) →
      (∀ v, v.Cleared c t → Action.Guards c (Instruction.Guards c) (onDone v) ⟨waits, t'⟩) →
      Takes c floor ⟨waits, t'⟩ stack →
      Takes c floor ⟨waits, t⟩ (.fold onHalt onDone sameError :: stack)
  | mapError {k : Clearance} {source target : ErrorType} {f : Value → Action Value}
      {stack : List Frame} : (∀ v, v.Omits c → (f v).Omits c) → Takes c floor k stack →
      Takes c floor k (.mapError source target f :: stack)
  | popEnvironment {k : Clearance} {stack : List Frame} : Takes c floor k stack →
      Takes c floor k (.popEnvironment :: stack)
  | popStatus {k : Clearance} {stack : List Frame} : Takes c floor k stack →
      Takes c floor k (.popStatus :: stack)

namespace Takes

variable {floor floor' : Option (List Frame)} {k : Clearance} {stack : List Frame}

/-- What may be handed the handle may be handed anything else. -/
theorem discreet (h : Takes c floor k stack) : Takes c floor ⟨k.waits, false⟩ stack := by
  induction h with
  | bottom => exact .bottom
  | floor hfloor _ ih => exact .floor hfloor ih
  | chain hnext hrest _ => exact .chain (fun v hv => hnext v hv.omits.cleared) hrest
  | fold hhalt hdone hrest _ =>
    exact .fold hhalt (fun v hv => hdone v hv.omits.cleared) hrest
  | mapError hf _ ih => exact .mapError hf ih
  | popEnvironment _ ih => exact .popEnvironment ih
  | popStatus _ ih => exact .popStatus ih

/-- Where there is no clearance to wait, it does not matter which floor there is. -/
theorem changeFloor (h : Takes c floor k stack) (hk : k.waits = false) :
    Takes c floor' k stack := by
  induction h with
  | bottom => exact .bottom
  | floor _ _ _ => cases hk
  | chain hnext _ ih => exact .chain hnext (ih hk)
  | fold hhalt hdone _ ih => exact .fold hhalt hdone (ih hk)
  | mapError hf _ ih => exact .mapError hf (ih hk)
  | popEnvironment _ ih => exact .popEnvironment (ih hk)
  | popStatus _ ih => exact .popStatus (ih hk)

/-- Whoever may wait is above the floor. -/
theorem suffix (h : Takes c floor k stack) (hk : k.waits = true) :
    ∃ base, floor = some base ∧ base <:+ stack := by
  induction h with
  | bottom => cases hk
  | @floor _ stack hfloor _ _ => exact ⟨stack, hfloor, List.suffix_refl _⟩
  | chain _ _ ih | fold _ _ _ ih | mapError _ _ ih | popEnvironment _ ih | popStatus _ ih =>
    obtain ⟨base, hbase, hsuffix⟩ := ih hk
    exact ⟨base, hbase, hsuffix.trans (List.suffix_cons _ _)⟩

/-- On the floor itself the clearance to wait is lost. -/
theorem of_floor {base : List Frame} (h : Takes c (some base) ⟨true, t⟩ base) :
    Takes c floor ⟨false, t⟩ base := by
  have hlower : ∀ {frame : Frame} {rest : List Frame} {k : Clearance}, k.waits = true →
      ¬ Takes c (some (frame :: rest)) k rest := by
    intro frame rest k hk hrest
    obtain ⟨_, hbase, hsuffix⟩ := hrest.suffix hk
    obtain rfl := Option.some.inj hbase
    exact absurd hsuffix.length_le (by simp)
  cases h with
  | floor _ hrest => exact hrest.changeFloor rfl
  | chain _ hrest | fold _ _ hrest | mapError _ hrest | popEnvironment hrest | popStatus hrest =>
    exact absurd hrest (hlower rfl)

end Takes

/-- The clearance of a fiber: it may wait above its floor. -/
abbrev clearance (floor : Option (List Frame)) (t : Bool) : Clearance := ⟨floor.isSome, t⟩

/-- The rest of a fiber may be handed whatever is handed on with its clearance, and no environment
of it tells of the fiber `c`. -/
structure RunState.Takes (c : FiberId) (floor : Option (List Frame)) (t : Bool) (run : RunState) :
    Prop where
  stack : Fibers.Takes c floor (clearance floor t) run.stack
  environments : ∀ v ∈ run.environments, v.Omits c

/-- What a fiber does next keeps to a clearance. -/
def Step.Guards (c : FiberId) (k : Clearance) : Step → Prop
  | .eval i => i.Guards c k
  | .value v => v.Cleared c k.tells
  | .halt h => h.Omits c
  | .attempt _ f => ∀ v, v.Omits c → (f v).Guards c (fun (_ : Unit) u => u.Omits c) ()

/-- What a fiber goes on with keeps to its clearance. -/
def Runs.Guards (c : FiberId) (floor : Option (List Frame)) (run : RunState) (step : Step) : Prop :=
  ∃ t, run.Takes c floor t ∧ step.Guards c (clearance floor t)

section Rest

variable {floor : Option (List Frame)} {run : RunState} {k : Clearance}

theorem RunState.Takes.discreet (h : run.Takes c floor t) : run.Takes c floor false :=
  ⟨h.stack.discreet, h.environments⟩

theorem RunState.omits_environment (h : ∀ v ∈ run.environments, v.Omits c) :
    run.environment.Omits c := by
  unfold RunState.environment
  cases heq : run.environments with
  | nil => exact .unit
  | cons v rest => exact h v (heq ▸ List.mem_cons_self)

theorem RunState.Takes.environment (h : run.Takes c floor t) : run.environment.Omits c :=
  RunState.omits_environment h.environments

theorem RunState.takes_start {environment : Value} (h : environment.Omits c) (allowed : Bool) :
    (RunState.start environment allowed).Takes c none false :=
  ⟨.bottom, List.forall_mem_singleton.mpr h⟩

theorem Step.guards_ofOutcome {o : Outcome} (h : Outcome.Cleared c k o) :
    (Step.ofOutcome o).Guards c k := by
  cases o with
  | done v => exact h
  | halt failure => exact h

theorem Step.guards_die (d : Defect) : (Step.die d).Guards c k :=
  Halt.holds_of (Cause.holds_die trivial)

theorem Step.guards_interrupt (source : FiberId) : (Step.interrupt source).Guards c k :=
  Halt.holds_of (Cause.holds_interrupt source)

/-- Whoever is told something that does not tell of the fiber goes on with it. -/
theorem RunState.Takes.told (h : run.Takes c floor t) {o : Outcome} (ho : Outcome.Omits c o) :
    Runs.Guards c floor run (.ofOutcome o) :=
  ⟨false, h.discreet, Step.guards_ofOutcome ho.cleared⟩

end Rest

/-! ### What a runtime keeps -/

/-- What is to be done when a wait is interrupted tells nobody of the fiber. -/
def Canceler.Guards (c : FiberId) : Canceler → Prop
  | .action a => a.Discreet c
  | _ => True

/-- A step that hands a fiber no exit that tells of the fiber `c`. -/
def Step.Told (c : FiberId) (step : Step) : Prop :=
  ∀ x, step = .value (.exit x) → x.Omits c

theorem Step.told_eval (c : FiberId) (i : Instruction) : (Step.eval i).Told c := nofun

theorem Step.told_bool (c : FiberId) (b : Bool) : (Step.value (.bool b)).Told c := nofun

/-- How a fiber is watched that may have been told of another one. -/
inductive Watch where
  /-- It keeps to its clearance, with this floor. -/
  | keeps (floor : Option (List Frame))
  /-- It is watched step by step. -/
  | followed

namespace Watch

/-- What a fiber goes on with. -/
def Runs (c : FiberId) : Watch → RunState → Step → Prop
  | .keeps floor, run, step => Runs.Guards c floor run step
  | .followed, run, step => (∀ v ∈ run.environments, v.Omits c) ∧ step.Told c

/-- What is left of a fiber that waits. -/
def Parks (c : FiberId) : Watch → RunState → Prop
  | .keeps floor, run => run.Takes c floor false
  | .followed, run => ∀ v ∈ run.environments, v.Omits c

variable {watch : Watch} {run : RunState}

/-- Whoever is told something that does not tell of the fiber goes on with it. -/
theorem Parks.told (h : watch.Parks c run) {o : Outcome} (ho : Outcome.Omits c o) :
    watch.Runs c run (.ofOutcome o) := by
  cases watch with
  | keeps floor => exact RunState.Takes.told h ho
  | followed =>
    refine ⟨h, fun x heq => ?_⟩
    cases o with
    | done v =>
      obtain rfl := Step.value.inj heq
      exact Exit.Omits.of_value ho
    | halt failure => cases heq

end Watch

/-- A wait of a fiber keeps to the clearance of that. -/
def Suspension.Guards (c : FiberId) (watch : Watch) (p : Suspension) : Prop :=
  match p.state with
  | .waiting run onInterrupt => onInterrupt.Guards c ∧ watch.Parks c run
  | .early outcome => Outcome.Omits c outcome
  | _ => True

/-- A world that keeps a fiber secret: no data tells of it, and all code that is left to be run keeps
to the clearance of its fiber. -/
structure World.Guards (c : FiberId) (watch : FiberId → Watch) (w : World) : Prop where
  store : w.store.Omits c
  places : ∀ {n p}, w.suspensions.get? n = some p → p.Guards c (watch p.fiber)
  tasks : ∀ t ∈ w.tasks.toList, (watch t.fiber).Runs c t.run t.step
  releases : ∀ {n r}, w.releases.get? n = some r → r.Guards c
  /-- The place known of a fiber is its own. -/
  owner : ∀ {fiber r s}, w.store.fiber? fiber = some r → r.suspension = some s →
    ∃ p, w.suspension? s = some p ∧ p.fiber = fiber

/-! ### Channels -/

namespace Channel.Omits

variable {ch : Channel Value SuspensionId} (live : SuspensionId → Bool)

theorem new (capacity : Option Nat) : ({ capacity } : Channel Value SuspensionId).Omits c :=
  ⟨nofun, nofun⟩

theorem push {v : Value} (h : ch.Omits c) (hv : v.Omits c) :
    ({ ch with buffer := ch.buffer.push v } : Channel Value SuspensionId).Omits c := by
  refine ⟨fun v' hv' => ?_, h.offerers⟩
  rw [Fifo.toList_push, List.mem_append, List.mem_singleton] at hv'
  rcases hv' with hmem | rfl
  · exact h.buffer v' hmem
  · exact hv

theorem nextTaker (h : ch.Omits c) : (ch.nextTaker live).2.Omits c := by
  unfold Channel.nextTaker
  split
  · exact ⟨h.buffer, h.offerers⟩
  · exact ⟨h.buffer, h.offerers⟩

theorem offer? {v : Value} (h : ch.Omits c) (hv : v.Omits c) : (ch.offer? live v).2.Omits c := by
  have hnext := h.nextTaker live
  unfold Channel.offer?
  split
  · exact h
  · split
    · next s ch' heq =>
      rw [heq] at hnext
      exact hnext
    · next ch' heq =>
      rw [heq] at hnext
      split
      · exact hnext.push hv
      · exact hnext

theorem moveUp (h : ch.Omits c) : (ch.moveUp live).2.Omits c := by
  have hsublist := List.dropWhile_sublist (l := ch.offerers) fun offerer => !live offerer.2.2
  unfold Channel.moveUp
  split
  · exact ⟨h.buffer, nofun⟩
  · next ticket v place rest heq =>
    rw [heq] at hsublist
    have hrest : ({ ch with offerers := rest } : Channel Value SuspensionId).Omits c :=
      ⟨h.buffer, fun e he => h.offerers e (hsublist.subset (List.mem_cons_of_mem _ he))⟩
    exact hrest.push (h.offerers _ (hsublist.subset List.mem_cons_self))

theorem take? (h : ch.Omits c) : (ch.take? live).2.Omits c ∧
    ∀ v admitted, (ch.take? live).1 = .element v admitted → v.Omits c := by
  unfold Channel.take?
  split
  · exact ⟨h, nofun⟩
  · split
    · exact ⟨h, nofun⟩
    · next a buffer hpop =>
      have hlist := Fifo.toList_of_pop? hpop
      have hrest : ({ ch with buffer } : Channel Value SuspensionId).Omits c :=
        ⟨fun v hv => h.buffer v (hlist ▸ List.mem_cons_of_mem _ hv), h.offerers⟩
      refine ⟨hrest.moveUp live, fun v admitted heq => ?_⟩
      obtain ⟨rfl, -⟩ := Taken.element.inj heq
      exact h.buffer a (hlist ▸ List.mem_cons_self)

theorem enqueueOfferer {v : Value} {s : SuspensionId} (h : ch.Omits c) (hv : v.Omits c) :
    (ch.enqueueOfferer v s).2.Omits c where
  buffer := h.buffer
  offerers := List.forall_mem_append.mpr ⟨h.offerers, List.forall_mem_singleton.mpr hv⟩

theorem leave (h : ch.Omits c) (line : Line) (ticket : Nat) : (ch.leave line ticket).Omits c := by
  cases line with
  | takers | watchers => exact ⟨h.buffer, h.offerers⟩
  | offerers => exact ⟨h.buffer, fun e he => h.offerers e (List.mem_filter.mp he).1⟩

end Channel.Omits

/-- What is known of a fiber changes, and how it has ended does not tell of the secret one. -/
theorem Store.Omits.modifyFiber {store : Store} {id : FiberId} {f : FiberRecord → FiberRecord}
    (h : store.Omits c)
    (hf : ∀ r o, store.fiber? id = some r → (f r).exit = some o → Outcome.Omits c o) :
    (store.modifyFiber id f).Omits c where
  exits hr ho := Numbered.forall_modify (P := fun r => ∀ o, r.exit = some o → Outcome.Omits c o)
    (fun hr _ ho => h.exits hr ho) (fun r hr o ho => hf r o hr ho) hr _ ho
  cells := h.cells
  channels := h.channels
  reports := h.reports

namespace World.Guards

variable {watch : FiberId → Watch}

/-! ### Small changes -/

/-- A fiber that runs is made ready. -/
theorem schedule {fiber : FiberId} {run : RunState} {step : Step} (h : w.Guards c watch)
    (hruns : (watch fiber).Runs c run step) :
    (w.schedule fiber run step).Guards c watch where
  store := h.store
  places := h.places
  tasks task htask := by
    rw [World.schedule, Fifo.toList_push, List.mem_append, List.mem_singleton] at htask
    rcases htask with hmem | rfl
    · exact h.tasks task hmem
    · exact hruns
  releases := h.releases
  owner := h.owner

/-- A wait comes further. -/
theorem setSuspension {s : SuspensionId} {state : SuspensionState} (h : w.Guards c watch)
    (hstate : ∀ p, w.suspension? s = some p →
      ({ p with state } : Suspension).Guards c (watch p.fiber)) :
    (w.setSuspension s state).Guards c watch where
  store := h.store
  places := Numbered.forall_modify (P := fun p : Suspension => p.Guards c (watch p.fiber))
    h.places hstate
  tasks := h.tasks
  releases := h.releases
  owner {fiber r s'} hr hs' := by
    obtain ⟨p, hp, hfiber⟩ := h.owner hr hs'
    rw [World.suspension?_setSuspension]
    split
    · next heq =>
      subst heq
      exact ⟨{ p with state }, by rw [hp]; rfl, hfiber⟩
    · exact ⟨p, hp, hfiber⟩

/-- A wait is over. -/
theorem setOver (h : w.Guards c watch) (s : SuspensionId) :
    (w.setSuspension s .over).Guards c watch :=
  h.setSuspension fun _ _ => trivial

/-- Data other than that of fibers changes. -/
theorem withStore {store : Store} (h : w.Guards c watch) (hstore : store.Omits c)
    (hfibers : store.fibers = w.store.fibers) : ({ w with store } : World).Guards c watch where
  store := hstore
  places := h.places
  tasks := h.tasks
  releases := h.releases
  owner {fiber r s} hr hs := by
    rw [Store.fiber?, hfibers] at hr
    exact h.owner hr hs

/-- What is known of a fiber changes; at most its place is forgotten. -/
theorem modifyFiber {id : FiberId} {f : FiberRecord → FiberRecord} (h : w.Guards c watch)
    (hf : ∀ r o, w.store.fiber? id = some r → (f r).exit = some o → Outcome.Omits c o)
    (hplace : ∀ r, (f r).suspension = r.suspension ∨ (f r).suspension = none) :
    (w.modifyFiber id f).Guards c watch where
  store := h.store.modifyFiber hf
  places := h.places
  tasks := h.tasks
  releases := h.releases
  owner {fiber r s} hr hs := by
    simp only [World.modifyFiber, Store.fiber?_modifyFiber] at hr
    split at hr
    · next heq =>
      subst heq
      obtain ⟨r', hr', rfl⟩ := Option.map_eq_some_iff.mp hr
      rcases hplace r' with heq | hnone
      · exact h.owner hr' (heq ▸ hs)
      · rw [hnone] at hs
        cases hs
    · exact h.owner hr hs

/-- What is known of a fiber changes, but not how it has ended. -/
theorem modifyFiber_of_exit {id : FiberId} {f : FiberRecord → FiberRecord} (h : w.Guards c watch)
    (hf : ∀ r, (f r).exit = r.exit) (hplace : ∀ r, (f r).suspension = r.suspension) :
    (w.modifyFiber id f).Guards c watch :=
  h.modifyFiber (fun r _ hr ho => h.store.exits hr (hf r ▸ ho)) fun r => Or.inl (hplace r)

theorem setChannel {id : ChannelId} {ch : Channel Value SuspensionId} (h : w.Guards c watch)
    (hch : ch.Omits c) : ({ w with store := w.store.setChannel id ch } : World).Guards c watch :=
  h.withStore { h.store with
    channels := Numbered.forall_modify h.store.channels fun _ _ => hch } rfl

/-! ### Completing a wait -/

theorem resume {o : Outcome} (h : w.Guards c watch) (s : SuspensionId) (ho : Outcome.Omits c o) :
    (w.resume s o).2.Guards c watch := by
  unfold World.resume
  cases hs : w.suspension? s with
  | none => exact h
  | some place =>
    have hplace := h.places hs
    unfold Suspension.Guards at hplace
    cases hstate : place.state with
    | registering =>
      simp only [hstate]
      exact h.setSuspension fun _ _ => ho
    | waiting run onInterrupt =>
      simp only [hstate] at hplace ⊢
      exact (h.setOver s).schedule (hplace.2.told ho)
    | _ =>
      simp only [hstate]
      exact h

/-- Who waits is told a value. -/
theorem tell {v : Value} (h : w.Guards c watch) (s : SuspensionId) (hv : v.Omits c) :
    (w.resume s (.done v)).2.Guards c watch := h.resume s hv

/-- Who waits is told that the wait is over for an interruption. -/
theorem refuse (h : w.Guards c watch) (s : SuspensionId) (source : FiberId) :
    (w.resume s (.interrupt source)).2.Guards c watch :=
  h.resume s (Outcome.omits_interrupt c source)

theorem resumeAll {o : Outcome} (h : w.Guards c watch) (places : List SuspensionId)
    (ho : Outcome.Omits c o) : (w.resumeAll places o).Guards c watch := by
  unfold World.resumeAll
  induction places generalizing w with
  | nil => exact h
  | cons s places ih => exact ih (h.resume s ho)

theorem answer {o : Outcome} (h : w.Guards c watch) (s : SuspensionId) (ho : Outcome.Omits c o) :
    (w.answer s o).2.Guards c watch := by
  unfold World.answer
  split
  · exact h.resume s ho
  · exact h

/-! ### Channels -/

theorem takeElement {ch : Channel Value SuspensionId} (h : w.Guards c watch) (id : ChannelId)
    (hch : ch.Omits c) : (w.takeElement id ch).2.Guards c watch ∧
      ∀ v, (w.takeElement id ch).1 = some v → v.Omits c := by
  obtain ⟨htaken, helement⟩ := hch.take? w.isLive
  unfold World.takeElement
  split
  · next v admitted ch' heq =>
    rw [heq] at htaken helement
    exact ⟨(h.setChannel htaken).resumeAll _ .unit,
      fun v' hv' => Option.some.inj hv' ▸ helement v admitted rfl⟩
  · exact ⟨h, nofun⟩

theorem takeUpTo (h : w.Guards c watch) (id : ChannelId) (limit : Nat) :
    (w.takeUpTo id limit).2.Guards c watch ∧ ∀ v ∈ (w.takeUpTo id limit).1, v.Omits c := by
  induction limit generalizing w with
  | zero => exact ⟨h, nofun⟩
  | succ limit ih =>
    unfold World.takeUpTo
    split
    · exact ⟨h, nofun⟩
    · next ch hch =>
      obtain ⟨hnext, helement⟩ := h.takeElement id (h.store.channels hch)
      split
      · next w' heq =>
        rw [heq] at hnext
        exact ⟨hnext, nofun⟩
      · next v w' heq =>
        rw [heq] at hnext helement
        obtain ⟨hlast, hrest⟩ := ih hnext
        exact ⟨hlast, List.forall_mem_cons.mpr ⟨helement v rfl, hrest⟩⟩

theorem drain (h : w.Guards c watch) (id : ChannelId) (limit : Option Nat) :
    (w.drain id limit).2.Guards c watch ∧
      ∀ vs, (w.drain id limit).1 = .ok vs → ∀ v ∈ vs, v.Omits c := by
  unfold World.drain
  split
  · refine ⟨h, fun vs hvs => ?_⟩
    obtain rfl := Except.ok.inj hvs
    exact nofun
  · split
    · exact ⟨h, nofun⟩
    · next ch _ _ _ =>
      obtain ⟨hlast, hvs⟩ := h.takeUpTo id (min ch.size (limit.getD ch.size))
      exact ⟨hlast, fun vs heq => Except.ok.inj heq ▸ hvs⟩

theorem close (h : w.Guards c watch) (id : ChannelId) (source : FiberId) :
    (w.close id source).Guards c watch := by
  unfold World.close
  split
  · exact h
  · next closing ch heq =>
    obtain ⟨ch₀, hch₀, hclose⟩ := Option.bind_eq_some_iff.mp heq
    unfold Channel.close at hclose
    split at hclose
    · cases hclose
    · obtain ⟨rfl, rfl⟩ := Prod.mk.inj (Option.some.inj hclose)
      exact ((h.setChannel ⟨by simp, by simp⟩).resumeAll _
        (Outcome.omits_interrupt c source)).resumeAll _ .unit

/-! ### Actions -/

/-- **An operation leaves a world that keeps the secret, and so does its reply.** -/
theorem perform {op : Operation} {R : op.Reply → Prop} (h : w.Guards c watch)
    (hop : op.Guards c R) : (w.perform op).2.Guards c watch ∧ R (w.perform op).1 := by
  cases hop with
  | observe => exact ⟨h, h.store.shown⟩
  | log note => exact ⟨h.withStore { h.store with } rfl, trivial⟩
  | newCell hv =>
    exact ⟨h.withStore { h.store with cells := Numbered.forall_push h.store.cells hv } rfl, trivial⟩
  | writeCell hv =>
    exact ⟨h.withStore { h.store with
      cells := Numbered.forall_modify h.store.cells fun _ _ => hv } rfl, trivial⟩
  | newChannel capacity =>
    refine ⟨?_, trivial⟩
    simp only [World.perform, Channel.new]
    split
    · exact h
    · next ch heq =>
      split at heq
      · cases heq
      · obtain rfl := Except.ok.inj heq
        exact h.withStore { h.store with
          channels := Numbered.forall_push h.store.channels (.new capacity) } rfl
  | drain channel limit => exact h.drain channel limit
  | close channel source => exact ⟨h.close channel source, trivial⟩
  | complete ho => exact ⟨h.answer _ ho, trivial⟩
  | keep name waiter | newMark | useMark mark | newLease release =>
    exact ⟨h.withStore { h.store with } rfl, trivial⟩

/-- **An action leaves a world that keeps the secret, and ends as it should.** -/
theorem run {J α : Type} {Q : J → α → Prop} {j : J} {a : Action α} (ha : a.Guards c Q j)
    (h : w.Guards c watch) :
    (a.run w).2.Guards c watch ∧ ∀ x, (a.run w).1 = .ok x → Q j x := by
  induction ha generalizing w with
  | done ha => exact ⟨h, fun x hx => Except.ok.inj hx ▸ ha⟩
  | panic d => exact ⟨h, nofun⟩
  | perform hop _ ih =>
    obtain ⟨hperformed, hreply⟩ := h.perform hop
    exact ih _ hreply hperformed

/-! ### Updates -/

/-- An attempt to update a cell ends with something that does not tell of the fiber. -/
theorem attemptUpdate {cell : CellId} {f : Value → Action (Update Value)} (h : w.Guards c watch)
    (hf : ∀ v, v.Omits c → (f v).Guards c (fun (_ : Unit) u => u.Omits c) ()) :
    (w.attemptUpdate cell f).2.Guards c watch ∧
      ∀ v, (w.attemptUpdate cell f).1 = .finished v → v.Omits c := by
  unfold World.attemptUpdate
  split
  · refine ⟨h, fun v hv => ?_⟩
    obtain rfl := Attempt.finished.inj hv
    exact .unit
  · next cell' hcell =>
    obtain ⟨hran, hupdate⟩ := run (hf _ (h.store.cells hcell)) h
    split
    · next d w' heq =>
      rw [heq] at hran
      exact ⟨hran, nofun⟩
    · next u w' heq =>
      rw [heq] at hran hupdate
      have hu := hupdate u rfl
      unfold World.commitUpdate
      split
      · exact ⟨hran, fun v hv => Attempt.finished.inj hv ▸ hu.result⟩
      · next v hv =>
        split
        · exact ⟨hran, nofun⟩
        · next written heq =>
          obtain ⟨current, -, hcommit⟩ := Option.bind_eq_some_iff.mp heq
          have hwritten : written.value = v := by
            unfold Cell.commit at hcommit
            split at hcommit
            · rw [← Option.some.inj hcommit]
              rfl
            · cases hcommit
          exact ⟨hran.withStore { hran.store with
              cells := Numbered.forall_modify hran.store.cells fun _ _ => hwritten ▸ hu.next v hv }
              rfl, fun v hv => Attempt.finished.inj hv ▸ hu.result⟩

/-! ### Releases -/

/-- **What has been built for a release keeps the secret.** -/
theorem buildRelease {x : Exit Value Value} (h : w.Guards c watch) (release : ReleaseId)
    (hx : x.Omits c) : (w.buildRelease release x).2.Guards c watch ∧
      ∀ i, (w.buildRelease release x).1 = .ok i → i.Guards c .none := by
  -- a release is built of earlier ones
  induction hindex : release.index using Nat.strongRecOn generalizing release w with
  | _ index ih =>
    subst hindex
    have hnothing : ∀ i, (.ok (.value .unit) : Except Defect Instruction) = .ok i →
        i.Guards c .none := fun i hi => Except.ok.inj hi ▸ Instruction.guards_value .unit
    rw [World.buildRelease]
    cases hr : w.releases.get? release.index with
    | none => exact ⟨h, hnothing⟩
    | some r =>
      have hguards := h.releases hr
      cases hguards with
      | code hbuild => exact run (hbuild x hx) h
      | nested type inner outer =>
        simp only
        split
        · next hlt =>
          obtain ⟨hworld, hfirst⟩ := ih _ hlt h inner rfl
          refine ⟨hworld, fun i hi => ?_⟩
          obtain rfl := Except.ok.inj hi
          exact Release.guards_insideOut (Release.guards_part hfirst) outer hx
        · exact ⟨h, hnothing⟩
      | both type left right =>
        simp only
        split
        · next hlt =>
          obtain ⟨hworld₁, hfirst⟩ := ih _ hlt.1 h left rfl
          obtain ⟨hworld₂, hsecond⟩ := ih _ hlt.2 hworld₁ right rfl
          refine ⟨hworld₂, fun i hi => ?_⟩
          obtain rfl := Except.ok.inj hi
          exact Release.guards_atOnce (Release.guards_part hfirst) (Release.guards_part hsecond)
        · exact ⟨h, hnothing⟩
      | @within environment inner henvironment =>
        simp only
        split
        · next hlt =>
          obtain ⟨hworld, hbuilt⟩ := ih _ hlt h inner rfl
          generalize w.buildRelease inner x = result at hworld hbuilt ⊢
          obtain ⟨built, w'⟩ := result
          cases built with
          | ok body =>
            refine ⟨hworld, fun i hi => ?_⟩
            obtain rfl := Except.ok.inj hi
            exact .access fun outer houter => (henvironment outer houter).bind fun v hv =>
              .done (.provide hv (hbuilt body rfl))
          | error d => exact ⟨hworld, nofun⟩
        · exact ⟨h, hnothing⟩

/-! ### Interruption -/

theorem cancel {onInterrupt : Canceler} (h : w.Guards c watch) (hcancel : onInterrupt.Guards c) :
    (w.cancel onInterrupt).Guards c watch := by
  cases onInterrupt with
  | nothing => exact h
  | alarm key => exact h.withStore { h.store with } rfl
  | leave id line ticket =>
    simp only [World.cancel]
    split
    · exact h
    · next ch hch => exact h.setChannel ((h.store.channels hch).leave line ticket)
  | action a => exact (run hcancel h).1

theorem interruptAt {fiber : FiberId} {s : SuspensionId} (h : w.Guards c watch)
    (hfiber : ∀ p, w.suspension? s = some p → p.fiber = fiber) (source : FiberId) :
    (w.interruptAt fiber s source).Guards c watch := by
  unfold World.interruptAt
  split
  · next run onInterrupt heq =>
    obtain ⟨p, hp, hstate⟩ := Option.map_eq_some_iff.mp heq
    have hplace := h.places hp
    rw [Suspension.Guards, hstate, hfiber p hp] at hplace
    exact ((h.setOver s).cancel hplace.1).schedule
      (hplace.2.told (Outcome.omits_interrupt c source))
  · exact h

theorem recordInterruptor (h : w.Guards c watch) (target source : FiberId) :
    (w.recordInterruptor target source).Guards c watch := by
  refine h.modifyFiber_of_exit (fun r => ?_) fun r => ?_ <;> split <;> rfl

/-- **A request for interruption leaves a world that keeps the secret.** -/
theorem interrupt (h : w.Guards c watch) (target source : FiberId) :
    (w.interrupt target source).Guards c watch := by
  have hrecorded := h.recordInterruptor target source
  unfold World.interrupt
  simp only
  split
  · exact hrecorded
  · next s hs =>
    split
    · obtain ⟨r, hr, hplace⟩ := Option.bind_eq_some_iff.mp hs
      refine hrecorded.interruptAt (fun p hp => ?_) _
      obtain ⟨p', hp', hfiber⟩ := hrecorded.owner hr hplace
      exact Option.some.inj (hp'.symm.trans hp) ▸ hfiber
    · exact hrecorded

theorem interruptUnfinished (h : w.Guards c watch) (fibers : List FiberId) (source : FiberId) :
    (w.interruptUnfinished fibers source).Guards c watch := by
  unfold World.interruptUnfinished
  induction fibers generalizing w with
  | nil => exact h
  | cons f fibers ih =>
    rw [List.foldl_cons]
    split
    · exact ih h
    · exact ih (h.interrupt f source)

end World.Guards

end Fibers
