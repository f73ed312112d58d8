import Mathlib.Data.List.Nodup
import Mathlib.Data.List.Perm.Basic
import Fibers.Failure.Defect
import Fibers.Pool
import Fibers.Proofs.Logs

/-!
# Shifts

The workers of a pool all look for tasks at the same time, and tasks are given to the pool
while they do so.  Each look at one of the lines is one step of its own, so anything may
happen between a worker finding its own line empty and its look at the shared one, or
between someone being told that the pool is open and the task being put into the line.  A
look at a line may also fail for no reason; the worker then looks again later.

## Main definitions

* `Ticket`, `Phase`, `Shift` — a task with its number, where a worker is in its search, and
  the pool with its workers.
* `Shift.Does` — what may happen during a shift.
* `Shift.Layout` — the workers and their lines.

## Main results

* `Pool.takeOwn_perm`, `Pool.takeShared_perm`, `Pool.takePeer_perm` — whatever a worker
  takes, nothing is lost.
* `Shift.Does.layout` — whatever happens keeps the workers and their lines in order.
* `Shift.log_of_find?` — what a worker finds in one go is found step by step.
-/

namespace Fibers

variable {τ : Type}

/-! ### Taking from a pool -/

/-- A line in place of another one: nothing else changes. -/
theorem count_flatten_set [DecidableEq τ] {lines : List (List τ)} {i : Nat} {old : List τ}
    (h : lines[i]? = some old) (new : List τ) (a : τ) :
    (lines.set i new).flatten.count a + old.count a = lines.flatten.count a + new.count a := by
  induction lines generalizing i with
  | nil => simp at h
  | cons line rest ih =>
    cases i with
    | zero =>
      obtain rfl : line = old := by simpa using h
      simp only [List.set_cons_zero, List.flatten_cons, List.count_append]
      omega
    | succ i =>
      have ih := ih (by simpa using h)
      simp only [List.set_cons_succ, List.flatten_cons, List.count_append]
      omega

namespace Pool

variable {p p' : Pool τ} {t : τ} {worker batch peer : Nat}

/-- A worker who has something for itself is one of the workers. -/
theorem getElem?_of_ownOf (h : worker < p.workers) : p.own[worker]? = some (p.ownOf worker) := by
  simp [ownOf, List.getD, List.getElem?_eq_getElem (show worker < p.own.length from h)]

theorem lt_workers_of_ownOf {rest : List τ} (h : p.ownOf worker = t :: rest) :
    worker < p.workers := by
  by_contra hge
  have hnone : p.own[worker]? = none := List.getElem?_eq_none (Nat.le_of_not_lt hge)
  simp [ownOf, List.getD, hnone] at h

@[simp] theorem workers_setOwn (line : List τ) : (p.setOwn worker line).workers = p.workers := by
  simp [workers, setOwn]

theorem ownOf_setOwn_of_ne {other : Nat} (h : worker ≠ other) (line : List τ) :
    (p.setOwn worker line).ownOf other = p.ownOf other := by
  simp [ownOf, setOwn, List.getD, List.getElem?_set_ne h]

theorem mem_peers {start : Nat} (h : peer ∈ p.peers worker start) :
    peer ≠ worker ∧ peer < p.workers := by
  unfold peers at h
  split at h
  · simp at h
  · obtain ⟨hmem, hne⟩ := List.mem_filter.mp h
    obtain ⟨offset, -, rfl⟩ := List.mem_map.mp hmem
    exact ⟨by simpa using hne, Nat.mod_lt _ (by omega)⟩

theorem ne_of_ownOf {other : Nat} {rest : List τ} (h : p.ownOf worker = t :: rest)
    (hnone : p.ownOf other = []) : worker ≠ other := by
  rintro rfl
  rw [h] at hnone
  exact List.cons_ne_nil _ _ hnone

theorem takeOwn_eq_some : p.takeOwn worker = some (t, p') ↔
    ∃ rest, p.ownOf worker = t :: rest ∧ p' = p.setOwn worker rest := by
  cases hown : p.ownOf worker <;> simp [takeOwn, split, hown, eq_comm]

theorem takeOwn_eq_none : p.takeOwn worker = none ↔ p.ownOf worker = [] := by
  cases hown : p.ownOf worker <;> simp [takeOwn, split, hown]

theorem takeShared_eq_some : p.takeShared worker batch = some (t, p') ↔
    ∃ tail, p.shared = t :: tail ∧
      p' = { p with shared := tail.drop batch }.setOwn worker
        (p.ownOf worker ++ tail.take batch) := by
  cases hshared : p.shared <;> simp [takeShared, split, hshared, eq_comm]

theorem takeShared_eq_none : p.takeShared worker batch = none ↔ p.shared = [] := by
  cases hshared : p.shared <;> simp [takeShared, split, hshared]

theorem takePeer_eq_none : p.takePeer worker batch peer = none ↔ p.ownOf peer = [] := by
  cases hown : p.ownOf peer <;> simp [takePeer, split, hown]

theorem takePeer_eq_some : p.takePeer worker batch peer = some (t, p') ↔
    ∃ tail, p.ownOf peer = t :: tail ∧
      p' = (p.setOwn peer (tail.drop batch)).setOwn worker
        (p.ownOf worker ++ tail.take batch) := by
  cases hown : p.ownOf peer <;> simp [takePeer, split, hown, eq_comm]

theorem takeLeft_eq_some : p.takeLeft = some (t, p') ↔
    ∃ tail, p.shared = t :: tail ∧ p' = { p with shared := tail } := by
  cases hshared : p.shared <;> simp [takeLeft, split, hshared, eq_comm]

theorem takeLeft_eq_none : p.takeLeft = none ↔ p.shared = [] := by
  cases hshared : p.shared <;> simp [takeLeft, split, hshared]

/-- A worker's line in place of the one it has. -/
theorem count_waiting_setOwn [DecidableEq τ] (h : worker < p.workers) (line : List τ) (a : τ) :
    (p.setOwn worker line).waiting.count a + (p.ownOf worker).count a =
      p.waiting.count a + line.count a := by
  have hflat := count_flatten_set (getElem?_of_ownOf h) line a
  simp only [waiting, setOwn, List.count_append]
  omega

/-- A worker who takes a task of its own leaves the others. -/
theorem takeOwn_perm (h : p.takeOwn worker = some (t, p')) : p.waiting.Perm (t :: p'.waiting) := by
  classical
  obtain ⟨rest, hown, rfl⟩ := takeOwn_eq_some.mp h
  refine List.perm_iff_count.mpr fun a => ?_
  have hcount := count_waiting_setOwn (lt_workers_of_ownOf hown) rest a
  rw [hown, List.count_cons] at hcount
  rw [List.count_cons]
  omega

/-- A worker who takes tasks of the shared line keeps those that it does not begin. -/
theorem takeShared_perm (hworker : worker < p.workers)
    (h : p.takeShared worker batch = some (t, p')) : p.waiting.Perm (t :: p'.waiting) := by
  classical
  obtain ⟨tail, hshared, rfl⟩ := takeShared_eq_some.mp h
  refine List.perm_iff_count.mpr fun a => ?_
  have hcount := count_waiting_setOwn (p := { p with shared := tail.drop batch }) hworker
    (p.ownOf worker ++ tail.take batch) a
  have hsame : ({ p with shared := tail.drop batch } : Pool τ).ownOf worker = p.ownOf worker := rfl
  have htail : tail.count a = (tail.take batch).count a + (tail.drop batch).count a := by
    rw [← List.count_append, List.take_append_drop]
  simp only [hsame, waiting, hshared, List.count_append, List.count_cons] at hcount ⊢
  omega

/-- A worker who takes tasks of another one keeps those that it does not begin. -/
theorem takePeer_perm (hworker : worker < p.workers) (hpeer : peer ≠ worker)
    (h : p.takePeer worker batch peer = some (t, p')) : p.waiting.Perm (t :: p'.waiting) := by
  classical
  obtain ⟨tail, hown, rfl⟩ := takePeer_eq_some.mp h
  refine List.perm_iff_count.mpr fun a => ?_
  have hleft := count_waiting_setOwn (lt_workers_of_ownOf hown) (tail.drop batch) a
  have hsame := ownOf_setOwn_of_ne (p := p) hpeer (tail.drop batch)
  have hstill : worker < (p.setOwn peer (tail.drop batch)).workers := by
    simpa using hworker
  have htaken := count_waiting_setOwn hstill (p.ownOf worker ++ tail.take batch) a
  have htail : tail.count a = (tail.take batch).count a + (tail.drop batch).count a := by
    rw [← List.count_append, List.take_append_drop]
  rw [hown, List.count_cons] at hleft
  rw [hsame, List.count_append] at htaken
  rw [List.count_cons]
  omega

/-- Whoever takes a task of the shared line for nobody leaves the others. -/
theorem takeLeft_perm (h : p.takeLeft = some (t, p')) : p.waiting.Perm (t :: p'.waiting) := by
  obtain ⟨tail, hshared, rfl⟩ := takeLeft_eq_some.mp h
  simp only [waiting, hshared]
  exact List.perm_middle

end Pool

/-! ### Workers -/

/-- A task with its number. -/
structure Ticket (τ : Type) where
  /-- How many tasks had been accepted before. -/
  number : Nat
  /-- The task. -/
  task : τ

/-- Where a worker is in its work. -/
inductive Phase (τ : Type) where
  /-- It is about to look whether the pool has been closed. -/
  | start
  /-- It is about to look into its own line. -/
  | own
  /-- Its own line was empty; it is about to look into the shared one. -/
  | shared
  /-- It is about to turn to the others one after the other; `again` says whether a look
  at one of the lines has failed for no reason. -/
  | others (rest : List Nat) (again : Bool)
  /-- It is doing a task. -/
  | busy (t : Ticket τ)
  /-- It is giving up the tasks that it has for itself. -/
  | leaving
  /-- It has gone. -/
  | gone

namespace Phase

/-- The task that the worker is doing. -/
def doing : Phase τ → List (Ticket τ)
  | .busy t => [t]
  | _ => []

/-- Whether the worker has found its own line empty. -/
def HasNone : Phase τ → Prop
  | .shared => True
  | .others _ _ => True
  | _ => False

end Phase

/-- A pool with its workers and those who give tasks to it. -/
structure Shift (τ : Type) where
  /-- The pool. -/
  pool : Pool (Ticket τ)
  /-- Where each worker is. -/
  phases : List (Phase τ)
  /-- The tasks of those who were told that the pool is open and have not yet put them
  into the line. -/
  offered : List τ := []
  /-- The number of the next task. -/
  next : Nat := 0
  /-- What went wrong in tasks, oldest first. -/
  reports : List Defect := []
  /-- How many tasks have been taken out for nobody, by someone who is doing so. -/
  draining : Option Nat := none

namespace Shift

/-- The beginning of a shift. -/
def new (workers : Nat) : Shift τ :=
  { pool := .start workers, phases := List.replicate workers .start }

/-- The tasks that are being done. -/
def doing (s : Shift τ) : List (Ticket τ) := (s.phases.map Phase.doing).flatten

/-- A worker goes on to another phase. -/
def goTo (s : Shift τ) (worker : Nat) (phase : Phase τ) : Shift τ :=
  { s with phases := s.phases.set worker phase }

/-- A worker begins a task that it has found. -/
def takeUp (s : Shift τ) (worker : Nat) (t : Ticket τ) (pool : Pool (Ticket τ)) : Shift τ :=
  { s with pool }.goTo worker (.busy t)

/-- A worker is done with a task, whatever became of it. -/
def finish (s : Shift τ) (worker : Nat) (outcome : Except Defect Unit) : Shift τ :=
  { s.goTo worker .start with
    reports :=
      match outcome with
      | .ok () => s.reports
      | .error defect => s.reports ++ [defect] }

/-- What may happen during a shift. -/
inductive Event (τ : Type) where
  /-- Someone who has a task to give looks whether the pool is open. -/
  | asked (task : τ) (isOpen : Bool)
  /-- A task is put into the line. -/
  | accepted (t : Ticket τ)
  /-- The pool is closed. -/
  | closed
  /-- A worker goes on without a task. -/
  | moved (worker : Nat)
  /-- A worker begins a task. -/
  | begun (worker : Nat) (t : Ticket τ)
  /-- A worker is done with a task; something may have gone wrong in it. -/
  | ended (worker : Nat) (t : Ticket τ) (outcome : Except Defect Unit)
  /-- A worker gives up a task. -/
  | abandoned (worker : Nat) (t : Ticket τ)
  /-- Someone begins to empty the shared line. -/
  | drainBegun
  /-- A task is taken out for nobody. -/
  | drained (t : Ticket τ)
  /-- The shared line was empty, and that many tasks have been taken out. -/
  | drainEnded (n : Nat)

namespace Event

/-- The task that is put into the line. -/
def accepted? : Event τ → Option (Ticket τ)
  | .accepted t => some t
  | _ => none

/-- The task of someone who is told that the pool is open. -/
def offered? : Event τ → Option τ
  | .asked task true => some task
  | _ => none

/-- The task that is begun. -/
def begun? : Event τ → Option (Ticket τ)
  | .begun _ t => some t
  | _ => none

/-- The task that is done. -/
def ended? : Event τ → Option (Ticket τ)
  | .ended _ t _ => some t
  | _ => none

/-- The task that is given up. -/
def abandoned? : Event τ → Option (Ticket τ)
  | .abandoned _ t => some t
  | _ => none

/-- The task that is taken out for nobody. -/
def drained? : Event τ → Option (Ticket τ)
  | .drained t => some t
  | _ => none

/-- What is reported. -/
def report? : Event τ → Option Defect
  | .ended _ _ (.error defect) => some defect
  | _ => none

end Event

/-- One thing that happens during a shift. -/
inductive Does : Shift τ → Event τ → Shift τ → Prop
  /-- Someone is told that the pool is closed. -/
  | refuse {s : Shift τ} (task : τ) (h : s.pool.stopped = true) : Does s (.asked task false) s
  /-- Someone is told that the pool is open. -/
  | invite {s : Shift τ} (task : τ) (h : s.pool.stopped = false) :
    Does s (.asked task true) { s with offered := s.offered ++ [task] }
  /-- Someone who was told so puts the task into the line. -/
  | accept {s : Shift τ} {before after : List τ} {task : τ}
    (h : s.offered = before ++ task :: after) : Does s (.accepted ⟨s.next, task⟩)
      { s with
        offered := before ++ after
        pool := s.pool.push ⟨s.next, task⟩
        next := s.next + 1 }
  /-- The pool is closed. -/
  | close (s : Shift τ) : Does s .closed { s with pool := s.pool.close }
  /-- A worker looks whether the pool has been closed. -/
  | start {s : Shift τ} {i : Nat} (h : s.phases[i]? = some .start) :
    Does s (.moved i) (s.goTo i (if s.pool.stopped then .leaving else .own))
  /-- A worker finds a task in its own line. -/
  | own {s : Shift τ} {i : Nat} {t : Ticket τ} {p : Pool (Ticket τ)}
    (h : s.phases[i]? = some .own) (ht : s.pool.takeOwn i = some (t, p)) :
    Does s (.begun i t) (s.takeUp i t p)
  /-- A worker finds its own line empty. -/
  | noneOwn {s : Shift τ} {i : Nat} (h : s.phases[i]? = some .own)
    (ht : s.pool.takeOwn i = none) : Does s (.moved i) (s.goTo i .shared)
  /-- A worker finds a task in the shared line. -/
  | shared {s : Shift τ} {i : Nat} {t : Ticket τ} {p : Pool (Ticket τ)} (batch : Nat)
    (h : s.phases[i]? = some .shared) (ht : s.pool.takeShared i batch = some (t, p)) :
    Does s (.begun i t) (s.takeUp i t p)
  /-- A worker finds the shared line empty, or fails to look into it. -/
  | noneShared {s : Shift τ} {i : Nat} (start : Nat) {again : Bool}
    (h : s.phases[i]? = some .shared) (ht : s.pool.shared = [] ∨ again = true) :
    Does s (.moved i) (s.goTo i (.others (s.pool.peers i start) again))
  /-- A worker finds a task in another one's line. -/
  | peer {s : Shift τ} {i peer : Nat} {rest : List Nat} {again : Bool} {t : Ticket τ}
    {p : Pool (Ticket τ)} (batch : Nat) (h : s.phases[i]? = some (.others (peer :: rest) again))
    (ht : s.pool.takePeer i batch peer = some (t, p)) : Does s (.begun i t) (s.takeUp i t p)
  /-- A worker finds another one's line empty, or fails to look into it. -/
  | nonePeer {s : Shift τ} {i peer : Nat} {rest : List Nat} {again failed : Bool}
    (h : s.phases[i]? = some (.others (peer :: rest) again))
    (ht : s.pool.ownOf peer = [] ∨ failed = true) :
    Does s (.moved i) (s.goTo i (.others rest (again || failed)))
  /-- A worker who has not found anything begins again, at once if a look has failed. -/
  | nothing {s : Shift τ} {i : Nat} {again : Bool} (h : s.phases[i]? = some (.others [] again)) :
    Does s (.moved i) (s.goTo i (if again then .shared else .start))
  /-- A worker is done with its task, whatever became of it. -/
  | finish {s : Shift τ} {i : Nat} {t : Ticket τ} (h : s.phases[i]? = some (.busy t))
    (outcome : Except Defect Unit) :
    Does s (.ended i t outcome) (s.finish i outcome)
  /-- A worker who leaves gives up a task. -/
  | giveUp {s : Shift τ} {i : Nat} {t : Ticket τ} {p : Pool (Ticket τ)}
    (h : s.phases[i]? = some .leaving) (ht : s.pool.takeOwn i = some (t, p)) :
    Does s (.abandoned i t) { s with pool := p }
  /-- A worker leaves. -/
  | leave {s : Shift τ} {i : Nat} (h : s.phases[i]? = some .leaving)
    (ht : s.pool.takeOwn i = none) : Does s (.moved i) (s.goTo i .gone)
  /-- Once the pool has been closed someone begins to empty the shared line. -/
  | drainBegin {s : Shift τ} (h : s.pool.stopped = true) (hnone : s.draining = none) :
    Does s .drainBegun { s with draining := some 0 }
  /-- A task is taken out for nobody. -/
  | drain {s : Shift τ} {n : Nat} {t : Ticket τ} {p : Pool (Ticket τ)}
    (h : s.draining = some n) (ht : s.pool.takeLeft = some (t, p)) :
    Does s (.drained t) { s with pool := p, draining := some (n + 1) }
  /-- The shared line is empty. -/
  | drainEnd {s : Shift τ} {n : Nat} (h : s.draining = some n) (ht : s.pool.takeLeft = none) :
    Does s (.drainEnded n) { s with draining := none }

variable {s s' : Shift τ} {e : Event τ} {es : List (Event τ)} {i : Nat}

@[simp] theorem pool_goTo (phase : Phase τ) : (s.goTo i phase).pool = s.pool := rfl

@[simp] theorem pool_takeUp (t : Ticket τ) (p : Pool (Ticket τ)) : (s.takeUp i t p).pool = p := rfl

theorem filterMap_one {β : Type} (f : Event τ → Option β) (e : Event τ) :
    [e].filterMap f = (f e).toList := by
  cases he : f e <;> simp [he]

/-- What the workers are doing when one of them has gone on to another phase. -/
theorem count_doing_goTo [DecidableEq (Ticket τ)] {old : Phase τ} (h : s.phases[i]? = some old)
    (phase : Phase τ) (a : Ticket τ) :
    (s.goTo i phase).doing.count a + old.doing.count a =
      s.doing.count a + phase.doing.count a := by
  have hold : (s.phases.map Phase.doing)[i]? = some old.doing := by simp [h]
  have hset := count_flatten_set hold phase.doing a
  rwa [← List.map_set] at hset

theorem phase_goTo {phase : Phase τ} {old : Phase τ} (h : s.phases[i]? = some old) :
    (s.goTo i phase).phases[i]? = some phase := by
  have hlt : i < s.phases.length := (List.getElem?_eq_some_iff.mp h).1
  simp [goTo, hlt]

theorem phases_goTo_cases {phase : Phase τ} {j : Nat} {old : Phase τ}
    (h : (s.goTo i phase).phases[j]? = some old) :
    i = j ∧ old = phase ∨ s.phases[j]? = some old := by
  by_cases hij : i = j
  · subst hij
    by_cases hlt : i < s.phases.length
    · left
      simpa [goTo, hlt, eq_comm] using h
    · simp [goTo, hlt] at h
  · right
    simpa [goTo, List.getElem?_set_ne hij] using h

/-! ### Where the workers are -/

/-- What holds of the workers and their lines. -/
structure Layout (s : Shift τ) : Prop where
  /-- Every worker has a line of its own. -/
  workers : s.phases.length = s.pool.workers
  /-- A worker that turns to other lines has nothing in its own. -/
  hasNone : ∀ i phase, s.phases[i]? = some phase → phase.HasNone → s.pool.ownOf i = []
  /-- A worker turns to the others, not to itself. -/
  others : ∀ i rest again, s.phases[i]? = some (.others rest again) → ∀ peer ∈ rest,
    peer ≠ i ∧ peer < s.pool.workers

theorem layout_new (workers : Nat) : (new workers : Shift τ).Layout where
  workers := by simp [new, Pool.start, Pool.workers]
  hasNone := by
    intro i phase hphase hnone
    obtain rfl := List.eq_of_mem_replicate (List.mem_of_getElem? hphase)
    exact hnone.elim
  others := by
    intro i rest again hphase
    exact absurd (List.eq_of_mem_replicate (List.mem_of_getElem? hphase)) (by simp)

namespace Layout

theorem lt_workers (h : s.Layout) {phase : Phase τ} (hi : s.phases[i]? = some phase) :
    i < s.pool.workers := by
  rw [← h.workers]
  exact (List.getElem?_eq_some_iff.mp hi).1

/-- A worker goes on to another phase. -/
theorem goTo (h : s.Layout) {phase : Phase τ} (hnone : phase.HasNone → s.pool.ownOf i = [])
    (hothers : ∀ rest again, phase = .others rest again → ∀ peer ∈ rest,
      peer ≠ i ∧ peer < s.pool.workers) : (s.goTo i phase).Layout where
  workers := by
    rw [pool_goTo, ← h.workers]
    simp [Shift.goTo]
  hasNone := by
    intro j old hold hj
    rcases phases_goTo_cases hold with ⟨rfl, rfl⟩ | hold
    · exact hnone hj
    · exact h.hasNone j old hold hj
  others := by
    intro j rest again hold
    rcases phases_goTo_cases hold with ⟨rfl, heq⟩ | hold
    · exact hothers rest again heq.symm
    · exact h.others j rest again hold

/-- The lines change, those of workers that have nothing remaining empty. -/
theorem withPool (h : s.Layout) {p : Pool (Ticket τ)} (hworkers : p.workers = s.pool.workers)
    (hempty : ∀ j phase, s.phases[j]? = some phase → phase.HasNone → s.pool.ownOf j = [] →
      p.ownOf j = []) : ({ s with pool := p } : Shift τ).Layout where
  workers := h.workers.trans hworkers.symm
  hasNone := fun j phase hphase hj => hempty j phase hphase hj (h.hasNone j phase hphase hj)
  others := fun j rest again hphase peer hpeer =>
    ⟨(h.others j rest again hphase peer hpeer).1,
      hworkers ▸ (h.others j rest again hphase peer hpeer).2⟩

/-- A worker begins a task, having put nothing into the other lines. -/
theorem takeUp (h : s.Layout) {old : Phase τ} (hold : s.phases[i]? = some old)
    {p : Pool (Ticket τ)} (t : Ticket τ) (hworkers : p.workers = s.pool.workers)
    (hempty : ∀ j, j ≠ i → s.pool.ownOf j = [] → p.ownOf j = []) : (s.takeUp i t p).Layout := by
  have hbusy : (s.goTo i (.busy t)).Layout := h.goTo (fun hnone => hnone.elim) (by simp)
  refine hbusy.withPool hworkers fun j phase hphase hnone hj => ?_
  by_cases hij : j = i
  · rw [hij, phase_goTo hold] at hphase
    obtain rfl := Option.some.inj hphase
    exact hnone.elim
  · exact hempty j hij hj

end Layout

/-- Whatever happens keeps the workers and their lines in order. -/
theorem Does.layout (h' : s.Does e s') (h : s.Layout) : s'.Layout := by
  cases h' with
  | refuse task hs => exact h
  | invite task hs => exact ⟨h.workers, h.hasNone, h.others⟩
  | accept hoff => exact ⟨h.workers, h.hasNone, h.others⟩
  | close => exact ⟨h.workers, h.hasNone, h.others⟩
  | start hi =>
    refine h.goTo ?_ ?_
    · split <;> exact fun hnone => hnone.elim
    · split <;> simp
  | own hi ht =>
    obtain ⟨rest, hown, rfl⟩ := Pool.takeOwn_eq_some.mp ht
    exact h.takeUp hi _ (Pool.workers_setOwn ..) fun j hj hnone =>
      (Pool.ownOf_setOwn_of_ne (Ne.symm hj) _).trans hnone
  | noneOwn hi ht => exact h.goTo (fun _ => Pool.takeOwn_eq_none.mp ht) (by simp)
  | shared batch hi ht =>
    obtain ⟨tail, hshared, rfl⟩ := Pool.takeShared_eq_some.mp ht
    exact h.takeUp hi _ (Pool.workers_setOwn ..) fun j hj hnone =>
      (Pool.ownOf_setOwn_of_ne (Ne.symm hj) _).trans hnone
  | noneShared start hi ht =>
    refine h.goTo (fun _ => h.hasNone _ _ hi trivial) fun rest again heq peer hpeer => ?_
    obtain ⟨rfl, -⟩ := Phase.others.inj heq
    exact Pool.mem_peers hpeer
  | peer batch hi ht =>
    obtain ⟨tail, hown, rfl⟩ := Pool.takePeer_eq_some.mp ht
    refine h.takeUp hi _ (by simp) fun j hj hnone => ?_
    rw [Pool.ownOf_setOwn_of_ne (Ne.symm hj)]
    exact (Pool.ownOf_setOwn_of_ne (Pool.ne_of_ownOf hown hnone) _).trans hnone
  | nonePeer hi ht =>
    refine h.goTo (fun _ => h.hasNone _ _ hi trivial) fun rest again heq peer hpeer => ?_
    obtain ⟨rfl, -⟩ := Phase.others.inj heq
    exact h.others _ _ _ hi peer (List.mem_cons_of_mem _ hpeer)
  | nothing hi =>
    refine h.goTo ?_ ?_
    · split
      · exact fun _ => h.hasNone _ _ hi trivial
      · exact fun hnone => hnone.elim
    · split <;> simp
  | @finish i t hi outcome =>
    have hstart : (s.goTo i .start).Layout := h.goTo (fun hnone => hnone.elim) (by simp)
    exact ⟨hstart.workers, hstart.hasNone, hstart.others⟩
  | giveUp hi ht =>
    obtain ⟨rest, hown, rfl⟩ := Pool.takeOwn_eq_some.mp ht
    refine h.withPool (Pool.workers_setOwn ..) fun j phase hphase hnone hj => ?_
    exact (Pool.ownOf_setOwn_of_ne (Pool.ne_of_ownOf hown hj) _).trans hj
  | leave hi ht => exact h.goTo (fun hnone => hnone.elim) (by simp)
  | drainBegin hs hnone => exact ⟨h.workers, h.hasNone, h.others⟩
  | drain hd ht =>
    obtain ⟨tail, hshared, rfl⟩ := Pool.takeLeft_eq_some.mp ht
    exact ⟨h.workers, h.hasNone, h.others⟩
  | drainEnd hd ht => exact ⟨h.workers, h.hasNone, h.others⟩

theorem layout_of_log (h : Log Does s es s') (hs : s.Layout) : s'.Layout := by
  induction h with
  | rest => exact hs
  | add _ hlast ih => exact hlast.layout ih

/-! ### Looking for a task in one go -/

theorem goTo_goTo (phase phase' : Phase τ) :
    (s.goTo i phase).goTo i phase' = s.goTo i phase' := by
  simp [goTo, List.set_set]

theorem takeUp_goTo (phase : Phase τ) (t : Ticket τ) (p : Pool (Ticket τ)) :
    (s.goTo i phase).takeUp i t p = s.takeUp i t p := by
  simp [takeUp, goTo, List.set_set]

/-- How a worker ends its search: it has begun the task that it has found, or it is about to
begin again. -/
def searched (s : Shift τ) (i : Nat) : Option (Ticket τ × Pool (Ticket τ)) → Shift τ
  | some (t, p) => s.takeUp i t p
  | none => s.goTo i .start

/-- The last thing that happens in a search. -/
def found (i : Nat) : Option (Ticket τ × Pool (Ticket τ)) → Event τ
  | some (t, _) => .begun i t
  | none => .moved i

theorem searched_goTo (phase : Phase τ) (result : Option (Ticket τ × Pool (Ticket τ))) :
    (s.goTo i phase).searched i result = s.searched i result := by
  cases result with
  | none => exact goTo_goTo phase .start
  | some found => exact takeUp_goTo phase found.1 found.2

/-- A worker that turns to the others finds what it finds there in one go. -/
theorem log_of_others {rest : List Nat} (hi : s.phases[i]? = some (.others rest false))
    (batch : Nat) : ∃ n, Log Does s
      (List.replicate n (.moved i) ++
        [found i (rest.findSome? fun peer => s.pool.takePeer i batch peer)])
      (s.searched i (rest.findSome? fun peer => s.pool.takePeer i batch peer)) := by
  induction rest generalizing s with
  | nil => exact ⟨0, Log.one (.nothing hi)⟩
  | cons peer rest ih =>
    cases ht : s.pool.takePeer i batch peer with
    | some result =>
      rw [List.findSome?_cons, ht]
      exact ⟨0, Log.one (.peer batch hi ht)⟩
    | none =>
      have hnone : s.pool.ownOf peer = [] := Pool.takePeer_eq_none.mp ht
      have hmove : s.Does (.moved i) (s.goTo i (.others rest (false || false))) :=
        .nonePeer hi (Or.inl hnone)
      obtain ⟨n, hn⟩ := ih (phase_goTo hi)
      rw [searched_goTo] at hn
      rw [List.findSome?_cons, ht]
      exact ⟨n + 1, (Log.one hmove).append hn⟩

/-- What a worker finds when it looks for a task in one go is what it begins after looking
into one line after the other, with nothing else happening in between. -/
theorem log_of_find? (hi : s.phases[i]? = some .own) (batch start : Nat) :
    ∃ n, Log Does s
      (List.replicate n (.moved i) ++ [found i (s.pool.find? i batch start)])
      (s.searched i (s.pool.find? i batch start)) := by
  cases hown : s.pool.takeOwn i with
  | some result =>
    have hfind : s.pool.find? i batch start = some result := by simp [Pool.find?, hown]
    rw [hfind]
    exact ⟨0, Log.one (.own hi hown)⟩
  | none =>
    have hfirst : Log Does s [.moved i] (s.goTo i .shared) := Log.one (.noneOwn hi hown)
    have hi' : (s.goTo i .shared).phases[i]? = some .shared := phase_goTo hi
    cases hshared : s.pool.takeShared i batch with
    | some result =>
      have hfind : s.pool.find? i batch start = some result := by
        simp [Pool.find?, hown, hshared]
      rw [hfind, ← searched_goTo .shared]
      exact ⟨1, hfirst.append (Log.one (.shared batch hi' hshared))⟩
    | none =>
      have hfind : s.pool.find? i batch start =
          (s.pool.peers i start).findSome? fun peer => s.pool.takePeer i batch peer := by
        simp [Pool.find?, hown, hshared]
      have hnone : s.pool.shared = [] := Pool.takeShared_eq_none.mp hshared
      have hsecond : Log Does (s.goTo i .shared) [.moved i]
          ((s.goTo i .shared).goTo i (.others (s.pool.peers i start) false)) :=
        Log.one (.noneShared start hi' (Or.inl hnone))
      obtain ⟨n, hn⟩ := log_of_others (phase_goTo hi') batch
      rw [searched_goTo, searched_goTo] at hn
      rw [hfind]
      exact ⟨n + 2, (hfirst.append hsecond).append hn⟩

end Shift

end Fibers
