import Fibers.Proofs.Lasting

/-!
# Stories

What a program does with its resources is done by code of the program and by what puts that code
together.  A story tells it in order: which code has been evaluated and with which outcome, what has
been paired with a release, whose release has been called for which exit, and which fibers have been
started; what a fiber does that has been started is part of the story of the one who started it.

`Tells` says what can be told of an evaluation when it has settled.  There is a rule for each way in
which an evaluation goes on where interruption is not allowed.  Since the fibers that are started
have lives of their own, what can be told of them is told in the state that is reached in the end.

## Main definitions

* `Episode`, `Story` — what is told.
* `World.outset`, `Event.episodes` — what an event adds to a story.
* `Workshop.Told` — a story is that of some events of a fiber.
* `Workshop.Tells` — what can be told of an evaluation that has settled.

## Main results

* `Workshop.Run.history_child`, `Workshop.Run.history_root` — the life of a fiber that has been
  started.
* `Workshop.Tells.seq`, `Workshop.Tells.chain`, `Workshop.Tells.fold` — one evaluation after another.
* `Workshop.Tells.wait`, `Workshop.Tells.reserve`, `Workshop.Tells.release` — what an instruction
  adds.
* `Workshop.Tells.fork` — **what can be told of a fiber is told by the one who has started it.**
-/

namespace Fibers

/-- What follows code of which only the result is used. -/
theorem Action.run_bind_pure {α β : Type} (code : Action α) (f : α → β) (w : World) :
    ((code >>= fun a => (pure (f a) : Action β)).run w).1 = (code.run w).1.map f := by
  rw [run_bind]
  obtain ⟨result, w', hrun⟩ : ∃ result w', code.run w = (result, w') := ⟨_, _, rfl⟩
  rw [hrun]
  cases result <;> rfl

/-! ### Episodes -/

/-- A part of a story. -/
inductive Episode where
  /-- Code of the program has been evaluated. -/
  | ran (i : Instruction) (o : Outcome)
  /-- What has been acquired has been paired with code that releases it. -/
  | reserved (v : Value) (id : ReleaseId) (release : Exit Value Value → Action Instruction)
  /-- The code of a release has been called for an exit. -/
  | called (id : ReleaseId) (x : Exit Value Value)
  /-- Another fiber has been started. -/
  | started (child : FiberId)

/-- What has been done by whom. -/
abbrev Story := List (FiberId × Episode)

/-- The releases whose code is called at once when a release is built. -/
def World.outset (w : World) (release : ReleaseId) : List ReleaseId :=
  match w.releases.get? release.index with
  | none => []
  | some (.code _) => [release]
  | some (.nested _ inner _) => if inner.index < release.index then w.outset inner else []
  | some (.both _ left right) =>
    if left.index < release.index ∧ right.index < release.index then
      w.outset left ++ w.outset right
    else []
  | some (.within _ inner) => if inner.index < release.index then w.outset inner else []
termination_by release.index

/-- The code of a release is called, as far as that is done at once. -/
def World.calls (w : World) (release : ReleaseId) (x : Exit Value Value) : List Episode :=
  (w.outset release).map (.called · x)

/-- What an event adds to a story. -/
def Event.episodes : Event → List Episode
  | .iterated w _ (.eval (.reserve v (.code release))) => [.reserved v ⟨w.releases.next⟩ release]
  | .iterated w _ (.eval (.release id x)) => w.calls id x
  | .iterated w _ (.eval (.releaseLease lease x)) =>
    match w.store.lease? lease with
    | some l => if l.released then [] else w.calls l.release x
    | none => []
  | _ => []

/-- What an event of a fiber adds to a story. -/
def Event.told (fiber : FiberId) (e : Event) : Story := e.episodes.map (fiber, ·)

/-- How many things a fiber has done. -/
def doingsIn (es : List Event) : Nat := (es.filter Event.isDoing).length

theorem doingsIn_append (es es' : List Event) :
    doingsIn (es ++ es') = doingsIn es + doingsIn es' := by
  simp [doingsIn]

namespace Workshop

variable {budget minted : Nat} {s : Workshop} {record : List (FiberId × Event)}

/-! ### The life of a child -/

/-- A fiber that has not been created has had no life. -/
theorem History.of_phase {fiber : FiberId} {es : List Event} {a : Standing}
    (h : History s record fiber es a) (hphase : s.world.phase fiber = none) :
    es = [] ∧ a = .unborn := by
  have ha := h.stands.phase
  rw [hphase] at ha
  rcases Life.of_unborn h.life with hnone | ⟨_, _, _, _, -, -, htop⟩
  · exact hnone
  · cases a with
    | unborn => exact htop.elim
    | active _ _ | waiting _ | ended _ => cases ha

/-- What the world holds of a fiber tells how it stands. -/
theorem Stands.eq_of_mem_ready {fiber : FiberId} {a b : Standing} (h : s.Stands fiber a)
    (hb : b ∈ s.world.ready fiber) : a = b := by
  have hmem : b ∈ a.tokens := by
    rw [← h.tokens]
    exact List.mem_append_right _ (List.mem_append_left _ hb)
  cases a with
  | unborn | ended _ => cases hmem
  | active _ _ | waiting _ => exact (List.mem_singleton.mp hmem).symm

/-- **A fiber that comes about in a move begins with what it is ready to do then**, if it has not done
anything in that move. -/
theorem Run.history_of_born {s₁ s₂ : Workshop} {pre events after : List (FiberId × Event)}
    {child : FiberId} {environment : Value} {allowed : Bool} {i : Instruction}
    (hpre : Run budget (init minted) pre s₁) (hmove : Move budget s₁ events s₂)
    (hlater : Run budget s₂ after s) (hunborn : s₁.world.phase child = none)
    (hready : .active (.start environment allowed) (.eval i) ∈ s₂.world.ready child)
    (hidle : eventsOf child events = []) :
    ∃ life a, History s (pre ++ (events ++ after)) child (.started environment allowed i :: life)
      a := by
  have hvalid := hpre.valid (valid_init minted)
  -- before the move there is nothing of the child
  obtain ⟨es, a, hearly⟩ := hpre.history child
  obtain ⟨rfl, rfl⟩ := hearly.of_phase hunborn
  obtain ⟨es, b, hb, hborn, hdoings⟩ := (hmove.effect hvalid).stands hearly.stands
  -- after it the child is ready, and so far it has done nothing
  obtain rfl := hb.eq_of_mem_ready hready
  rw [hidle] at hdoings
  have hes : es = [.started environment allowed i] := by
    rcases Life.of_unborn hborn with ⟨-, hnone⟩ | ⟨_, _, _, es', rfl, hcourse, -⟩
    · cases hnone
    · cases hcourse with
      | rest => rfl
      | go _ hgoes _ => cases hgoes <;> cases hdoings
  subst hes
  obtain ⟨life, a, ha, hlife, hdoings'⟩ := hlater.extends_history (hmove.valid hvalid) hb
  refine ⟨life, a, hborn.append hlife, ha, ?_⟩
  rw [← List.singleton_append, List.filter_append, hdoings, hdoings', eventsOf_append,
    eventsOf_append, hidle, ← hearly.doings]
  rfl

/-- **A fiber that has been started begins with the instruction that it has been started with.** -/
theorem Run.history_child (h : Run budget (init minted) record s) {f : FiberId} {w : World}
    {run : RunState} {i : Instruction} {daemon : Bool}
    (he : (f, .iterated w run (.eval (.fork i daemon))) ∈ record) :
    ∃ life a, History s record w.store.nextFiber
      (.started run.environment run.interruptible i :: life) a := by
  obtain ⟨before, after, rfl⟩ := List.append_of_mem he
  obtain ⟨s₁, s₂, pre, stops, rfl, hpre, hmove, hlater⟩ := h.at_iteration
  have hvalid := hpre.valid (valid_init minted)
  obtain ⟨rfl, hphase, hworld, hstops⟩ := hmove.world_of_iterated hvalid
  have hnone : s₁.world.store.fiber? s₁.world.store.nextFiber = none := Numbered.get?_next _
  have hunborn : s₁.world.phase s₁.world.store.nextFiber = none := by
    simp [World.phase, hnone]
  have hready : Standing.active (.start run.environment run.interruptible) (.eval i) ∈
      s₂.world.ready s₁.world.store.nextFiber := by
    rw [hworld]
    change _ ∈ (s₁.world.fork f run i daemon).2.ready s₁.world.store.nextFiber
    simp only [World.fork, World.ready_schedule, if_true]
    exact List.mem_append_right _ (List.mem_singleton_self _)
  have hne : f ≠ s₁.world.store.nextFiber := by
    rintro rfl
    rw [hunborn] at hphase
    cases hphase
  have hidle : eventsOf s₁.world.store.nextFiber
      (stops ++ [(f, .iterated s₁.world run (.eval (.fork i daemon)))]) = [] := by
    refine List.filterMap_eq_nil_iff.mpr fun p hp => if_neg fun heq => hne ?_
    rcases List.mem_append.mp hp with hstop | hlast
    · exact (hstops hstop).1.symm.trans heq
    · rw [List.mem_singleton.mp hlast] at heq
      exact heq
  have hborn := Run.history_of_born hpre hmove hlater hunborn hready hidle
  simpa using hborn

/-- So does a fiber that has been started from outside. -/
theorem Run.history_root {before after : List (FiberId × Event)} {w : World}
    {running : List Slice} {i : Instruction} {environment : Value} {report : Option ErrorType}
    (hbefore : Run budget (init minted) before ⟨w, running⟩)
    (hafter : Run budget
      ⟨(Machine.startRoot { budget, world := w } i environment report).2.world, running⟩ after s) :
    ∃ life a, History s (before ++ after) w.store.nextFiber (.started environment true i :: life)
      a := by
  have hnone : w.store.fiber? w.store.nextFiber = none := Numbered.get?_next _
  have hready : Standing.active (.start environment true) (.eval i) ∈
      (Machine.startRoot { budget, world := w } i environment report).2.world.ready
        w.store.nextFiber := by
    simp only [Machine.startRoot, World.ready_schedule, if_true]
    exact List.mem_append_right _ (List.mem_singleton_self _)
  exact Run.history_of_born hbefore (.start i environment report) hafter
    (by simp [World.phase, hnone]) hready rfl

/-! ### What a fiber learns when it waits -/

/-- What is known of a fiber that may be asked to stop, and alone waits for others. -/
def heard (s : Workshop) (record : List (FiberId × Event)) (fiber : FiberId) : Prospect :=
  { confided s record fiber with asked := True }

theorem Run.foresees_heard (h : Run budget (init minted) record s) (fiber : FiberId) :
    Foresees s record fiber (heard s record fiber) :=
  ⟨rfl, fun hwait hhears => h.confided_of_hears hwait hhears, fun _ => trivial⟩

/-- **Who goes on from a wait finds what it has been told of others**, where interruption is not
allowed. -/
theorem Run.finds_told (h : Run budget (init minted) record s) {fiber c : FiberId} {k : Nat}
    {w : World} {run : RunState} {registration : Registration}
    (hwait : (eventsOf fiber record)[k]? = some (.iterated w run (.eval (.wait registration))))
    (hfalse : run.interruptible = false)
    (hunstopped : ∀ w', (eventsOf fiber record)[k + 1]? ≠ some (.stopped w'))
    (hanswer : ∀ {store : Store} {o}, registration.Answered store o → store.isFinished c = true) :
    Finds record fiber (k + 1) fun w => w.store.isFinished c = true := by
  cases hnext : (eventsOf fiber record)[k + 1]? with
  | none =>
    -- it has done nothing since
    intro j w' run' step hj hget
    have := (List.getElem?_eq_some_iff.mp hget).1
    have := List.getElem?_eq_none_iff.mp hnext
    omega
  | some e =>
    obtain ⟨l, -, hbooks⟩ := h.books c
    cases hbooks.after_wait hwait rfl hnext with
    | stopped _ => exact absurd hnext (hunstopped _)
    | iterated hgo =>
      refine h.finds_from (lasting_isFinished c) hnext ?_
      cases hgo with
      | told htold => exact hanswer htold.answered
      | interrupted _ hallowed _ =>
        rw [hfalse] at hallowed
        cases hallowed

/-! ### What is told of some events -/

/-- A story is that of some events of a fiber. -/
inductive Told (s : Workshop) (record : List (FiberId × Event)) :
    FiberId → List Event → Story → Prop where
  /-- Nothing has happened. -/
  | rest {f : FiberId} : Told s record f [] []
  /-- Something has happened that starts no fiber. -/
  | event {f : FiberId} {e : Event} {es : List Event} {st : Story} :
      e.starts? = none → Told s record f es st → Told s record f (e :: es) (e.told f ++ st)
  /-- Code of the program has been evaluated. -/
  | code {f : FiberId} {base : RunState} {i : Instruction} {during es : List Event} {o : Outcome}
      {st : Story} : base.interruptible = false → Evaluated s record f base i during o →
      Told s record f es st → Told s record f (during ++ es) ((f, .ran i o) :: st)
  /-- A fiber has been started that goes on. -/
  | going {f c : FiberId} {e : Event} {es : List Event} {st : Story} :
      e.starts? = some (c, false) → s.world.store.isFinished c = false →
      Told s record f es st → Told s record f (e :: es) ((f, .started c) :: st)
  /-- A fiber has been started, and it has ended. -/
  | child {f c : FiberId} {e first : Event} {es life : List Event} {o : Outcome}
      {st later : Story} :
      e.starts? = some (c, false) → History s record c (first :: life) (.ended o) →
      Told s record c life st → Told s record f es later →
      Told s record f (e :: es) ((f, .started c) :: (st ++ later))

namespace Told

variable {f : FiberId} {es es' : List Event} {st st' : Story}

theorem append (h : Told s record f es st) (h' : Told s record f es' st') :
    Told s record f (es ++ es') (st ++ st') := by
  induction h with
  | rest => exact h'
  | event hstarts _ ih =>
    rw [List.append_assoc]
    exact .event hstarts (ih h')
  | code hfalse hran _ ih =>
    rw [List.append_assoc]
    exact .code hfalse hran (ih h')
  | going hstarts hgoing _ ih => exact .going hstarts hgoing (ih h')
  | child hstarts hhistory hlife _ _ ih =>
    rw [List.cons_append, List.cons_append, List.append_assoc]
    exact .child hstarts hhistory hlife (ih h')

theorem one {e : Event} (h : e.starts? = none) : Told s record f [e] (e.told f) := by
  have hone := @Told.event s record f _ _ _ h .rest
  rwa [List.append_nil] at hone

/-- Nothing is told of what a fiber does not do itself. -/
theorem of_idle (h : es.filter Event.isDoing = []) : Told s record f es [] := by
  induction es with
  | nil => exact .rest
  | cons e es ih =>
    cases e with
    | stopped _ | iterated _ _ _ => cases h
    | started _ _ _ | resumed _ | cancelled _ => exact .event rfl (ih h)

end Told

/-- What is known of a fiber that has been started, given what can be told of it: it goes on, or it
has ended so, and everybody finds then what it has found. -/
inductive Raised (s : Workshop) (record : List (FiberId × Event)) (c : FiberId)
    (R : Outcome → Story → Nat → Prop) : Story → Prop where
  | going : s.world.store.isFinished c = false → Raised s record c R []
  | ended {o : Outcome} {st : Story} {m : Nat} : Ended record c o → R o st m →
      (∀ {P : World → Prop}, Lasting P → Finds record c m P → Bequeaths record c P) →
      Raised s record c R st

/-! ### What can be told of an evaluation -/

/-- What can be told of an evaluation that has settled, if the fiber had done at least so many
things when it began: with which outcome, with which story, and how many things the fiber has done
at least by then. -/
def Tells (s : Workshop) (record : List (FiberId × Event)) (fiber : FiberId) (n : Nat)
    (run : RunState) (a : Standing) (Q : Outcome → Story → Nat → Prop) : Prop :=
  ∀ past es after c o, History s record fiber (past ++ (es ++ after)) c →
    Life fiber .unborn past a → n ≤ doingsIn past →
    Course fiber (Inside (fun _ => True) run) a es (.handed run o) →
    Life fiber (.handed run o) after c →
      ∃ st m, Told s record fiber es st ∧ n ≤ m ∧ m ≤ doingsIn (past ++ es) ∧ Q o st m

/-- A doing of a fiber stands in the record after those of its past. -/
theorem History.getElem?_doing {fiber : FiberId} {past es : List Event} {e : Event} {a : Standing}
    (h : History s record fiber (past ++ e :: es) a) (he : e.isDoing = true) :
    (eventsOf fiber record)[doingsIn past]? = some e := by
  rw [← h.doings, List.filter_append, List.filter_cons_of_pos he, doingsIn,
    List.getElem?_append_right (Nat.le_refl _), Nat.sub_self]
  rfl

namespace Tells

variable {fiber : FiberId} {n : Nat} {a : Standing} {run mid : RunState} {i : Instruction}
  {P Q Q' : Outcome → Story → Nat → Prop}

theorem mono (h : Tells s record fiber n run a Q)
    (hQ : ∀ o st m, n ≤ m → Q o st m → Q' o st m) : Tells s record fiber n run a Q' := by
  intro past es after c o hhistory hpast hn hcourse hlife
  obtain ⟨st, m, htold, hle, hm, hQ'⟩ := h past es after c o hhistory hpast hn hcourse hlife
  exact ⟨st, m, htold, hle, hm, hQ o st m hle hQ'⟩

/-- An evaluation that has settled adds nothing. -/
theorem handed {o : Outcome} (h : Q o [] n) : Tells s record fiber n run (.handed run o) Q := by
  intro past es after c o' hhistory _ hn hcourse _
  obtain ⟨rfl, rfl⟩ := hcourse.eq_of_handed
  exact ⟨[], n, .rest, Nat.le_refl _, by rwa [List.append_nil], h⟩

/-- What can be told of an evaluation is told of one that has settled. -/
theorem of_evaluated {during : List Event} {o : Outcome}
    (h : Tells s record fiber 0 run (.active run (.eval i)) Q)
    (hdone : Evaluated s record fiber run i during o) :
    ∃ st m, Told s record fiber during st ∧ Q o st m := by
  obtain ⟨hpast, hcourse, hlife, hhistory⟩ := hdone
  obtain ⟨st, m, htold, -, -, hQ⟩ := h _ _ _ _ _ hhistory hpast (Nat.zero_le _) hcourse hlife
  exact ⟨st, m, htold, hQ⟩

/-! ### Iterations -/

/-- An iteration that starts no fiber, and what follows on it from some time on. -/
theorem step_from {run' : RunState} {step : Step} (hfalse : run'.interruptible = false)
    (hne : run' = run → step.isOutcome = false)
    (hstarts : ∀ w, (Event.iterated w run' step).starts? = none)
    (h : ∀ (w : World) k, n ≤ k → (eventsOf fiber record)[k]? = some (.iterated w run' step) →
      ∃ n', n ≤ n' ∧ n' ≤ k + 1 ∧ Tells s record fiber n' run
        (w.after fiber (step.plan (w.pending fiber) fiber run'))
        fun o st m => Q o ((Event.iterated w run' step).told fiber ++ st) m) :
    Tells s record fiber n run (.active run' step) Q := by
  intro past es after c o hhistory hpast hn hcourse hlife
  generalize hend : Standing.handed run o = d at hcourse
  cases hcourse with
  | rest =>
    -- it has not settled yet
    obtain ⟨rfl, rfl⟩ := Standing.active.inj hend
    rw [Step.isOutcome_ofOutcome] at hne
    cases hne rfl
  | @go _ _ _ e es _ hgoes hrest =>
    subst hend
    have hgoes' := hgoes
    obtain ⟨w, rfl, rfl⟩ := hgoes.of_uninterruptible hfalse
    have hone : doingsIn (past ++ [.iterated w run' step]) = doingsIn past + 1 :=
      doingsIn_append past _
    have hhistory' : History s record fiber ((past ++ [.iterated w run' step]) ++ (es ++ after)) c := by
      simpa using hhistory
    obtain ⟨n', hfirst, hlast, htells⟩ := h w (doingsIn past) hn (hhistory.getElem?_doing rfl)
    obtain ⟨st, m, htold, hle, hm, hQ⟩ := htells _ es after c o hhistory'
      (hpast.append (.one trivial hgoes')) (by omega) hrest hlife
    refine ⟨_, m, .event (hstarts w) htold, by omega, ?_, hQ⟩
    rwa [List.append_assoc] at hm

/-- **An iteration that starts no fiber.** -/
theorem step {run' : RunState} {step : Step} (hfalse : run'.interruptible = false)
    (hne : run' = run → step.isOutcome = false)
    (hstarts : ∀ w, (Event.iterated w run' step).starts? = none)
    (h : ∀ (w : World) k, n ≤ k → (eventsOf fiber record)[k]? = some (.iterated w run' step) →
      Tells s record fiber (k + 1) run (w.after fiber (step.plan (w.pending fiber) fiber run'))
        fun o st m => Q o ((Event.iterated w run' step).told fiber ++ st) m) :
    Tells s record fiber n run (.active run' step) Q :=
  step_from hfalse hne hstarts fun w k hk hget =>
    ⟨k + 1, by omega, Nat.le_refl _, h w k hk hget⟩

/-- An iteration of which nothing is told. -/
theorem chore {run' : RunState} {step : Step} (hfalse : run'.interruptible = false)
    (hne : run' = run → step.isOutcome = false)
    (hstarts : ∀ w, (Event.iterated w run' step).starts? = none)
    (htold : ∀ w, (Event.iterated w run' step).told fiber = [])
    (h : ∀ w : World, Tells s record fiber n run
      (w.after fiber (step.plan (w.pending fiber) fiber run')) Q) :
    Tells s record fiber n run (.active run' step) Q :=
  step_from hfalse hne hstarts fun w k hk _ => by
    refine ⟨n, Nat.le_refl _, by omega, ?_⟩
    simp only [htold, List.nil_append]
    exact h w

/-- **One evaluation inside of another.** -/
theorem seq (hlt : run.stack.length < mid.stack.length) (ha : Inside (fun _ => True) mid a)
    (h₁ : Tells s record fiber n mid a P)
    (h₂ : ∀ o st m, n ≤ m → P o st m → Tells s record fiber m run (.handed mid o)
      fun o' st' m' => Q o' (st ++ st') m') :
    Tells s record fiber n run a Q := by
  intro past es after c o hhistory hpast hn hcourse hlife
  rcases hcourse.split ha with ⟨-, hinside⟩ | ⟨es₁, es₂, o₁, rfl, hfirst, hfirst', hsecond⟩
  · -- what is above is higher than what the outcome is handed to
    rcases hinside.1.eq_or_length_lt with heq | hlt'
    · rw [heq] at hlt
      omega
    · omega
  · rw [List.append_assoc] at hhistory
    obtain ⟨st, m, htold, hle, hm, hP⟩ :=
      h₁ past es₁ (es₂ ++ after) c o₁ hhistory hpast hn hfirst (hsecond.life.append hlife)
    rw [← List.append_assoc past] at hhistory
    obtain ⟨st', m', htold', hle', hm', hQ⟩ := h₂ o₁ st m hle hP _ es₂ after c o hhistory
      (hpast.append hfirst'.life) hm hsecond hlife
    rw [List.append_assoc] at hm'
    exact ⟨_, m', htold.append htold', hle.trans hle', hm', hQ⟩

/-- Code of the program is evaluated. -/
theorem code (hfalse : run.interruptible = false) (h : ∀ o, Q o [(fiber, .ran i o)] n) :
    Tells s record fiber n run (.active run (.eval i)) Q := by
  intro past es after c o hhistory hpast hn hcourse hlife
  have htold : Told s record fiber es [(fiber, .ran i o)] := by
    have hran := Told.code hfalse (.intro hpast hcourse hlife hhistory) .rest
    rwa [List.append_nil] at hran
  refine ⟨_, n, htold, Nat.le_refl _, ?_, h o⟩
  rw [doingsIn_append]
  omega

/-! ### Continuations -/

theorem done {o : Outcome} (hfalse : run.interruptible = false) (h : Q o [] n) :
    Tells s record fiber n run (.active run (.eval (.done o))) Q :=
  chore hfalse (fun _ => rfl) (fun _ => rfl) (fun _ => rfl) fun _ => handed h

/-- What follows on an evaluation goes on with its value, in an iteration of the record, or with its
failure. -/
theorem chain_found {first : Instruction} {next : Value → Action Instruction}
    (hfalse : run.interruptible = false)
    (h₁ : Tells s record fiber n (run.push (.chain next))
      (.active (run.push (.chain next)) (.eval first)) P)
    (hdone : ∀ v st m, n ≤ m → P (.done v) st m → ∀ (w : World) (k : Nat),
      (eventsOf fiber record)[k]? = some (.iterated w (run.push (.chain next)) (.value v)) →
      Tells s record fiber m run (.active run (.ofBuilt ((next v).run w).1))
        fun o st' m' => Q o (st ++ st') m')
    (hhalt : ∀ h st m, n ≤ m → P (.halt h) st m → Q (.halt h) st m) :
    Tells s record fiber n run (.active run (.eval (.chain first next))) Q := by
  have hne : run.push (.chain next) ≠ run := fun heq =>
    absurd (congrArg (fun r => r.stack.length) heq) (Nat.succ_ne_self _)
  have hpush : (run.push (.chain next)).interruptible = false := hfalse
  refine chore hfalse (fun _ => rfl) (fun _ => rfl) (fun _ => rfl) fun w => ?_
  refine seq (Nat.lt_succ_self _) ⟨.base, fun _ => rfl⟩ h₁ fun o st m hm hP => ?_
  cases o with
  | done v =>
    exact step_from hpush (fun heq => absurd heq hne) (fun _ => rfl) fun w k hk hget =>
      ⟨m, Nat.le_refl _, by omega, hdone v st m hm hP w k hget⟩
  | halt failure =>
    refine chore hpush (fun heq => absurd heq hne) (fun _ => rfl) (fun _ => rfl) fun w => ?_
    refine @handed _ _ _ _ _ (fun o' st' m' => Q o' (st ++ st') m') (.halt failure) ?_
    rw [List.append_nil]
    exact hhalt failure st m hm hP

/-- What follows on an evaluation goes on with its value, or with its failure. -/
theorem chain {first : Instruction} {next : Value → Action Instruction}
    (hfalse : run.interruptible = false)
    (h₁ : Tells s record fiber n (run.push (.chain next))
      (.active (run.push (.chain next)) (.eval first)) P)
    (hdone : ∀ v st m, n ≤ m → P (.done v) st m → ∀ w : World, Tells s record fiber m run
      (.active run (.ofBuilt ((next v).run w).1)) fun o st' m' => Q o (st ++ st') m')
    (hhalt : ∀ h st m, n ≤ m → P (.halt h) st m → Q (.halt h) st m) :
    Tells s record fiber n run (.active run (.eval (.chain first next))) Q :=
  chain_found hfalse h₁ (fun v st m hm hP w _ _ => hdone v st m hm hP w) hhalt

/-- A handler goes on with a value or with a failure. -/
theorem fold {first : Instruction} {onHalt : Halt Failure → Action Instruction}
    {onDone : Value → Action Instruction} {sameError : Bool} (hfalse : run.interruptible = false)
    (h₁ : Tells s record fiber n (run.push (.fold onHalt onDone sameError))
      (.active (run.push (.fold onHalt onDone sameError)) (.eval first)) P)
    (hdone : ∀ v st m, n ≤ m → P (.done v) st m → ∀ w : World, Tells s record fiber m run
      (.active run (.ofBuilt ((onDone v).run w).1)) fun o st' m' => Q o (st ++ st') m')
    (hhalt : ∀ h st m, n ≤ m → P (.halt h) st m → ∀ w : World, Tells s record fiber m run
      (.active run (.ofBuilt ((onHalt h).run w).1)) fun o st' m' => Q o (st ++ st') m') :
    Tells s record fiber n run (.active run (.eval (.fold first onHalt onDone sameError))) Q := by
  have hne : run.push (.fold onHalt onDone sameError) ≠ run := fun heq =>
    absurd (congrArg (fun r => r.stack.length) heq) (Nat.succ_ne_self _)
  have hpush : (run.push (.fold onHalt onDone sameError)).interruptible = false := hfalse
  refine chore hfalse (fun _ => rfl) (fun _ => rfl) (fun _ => rfl) fun w => ?_
  refine seq (Nat.lt_succ_self _) ⟨.base, fun _ => rfl⟩ h₁ fun o st m hm hP => ?_
  cases o with
  | done v =>
    exact chore hpush (fun heq => absurd heq hne) (fun _ => rfl) (fun _ => rfl) (hdone v st m hm hP)
  | halt failure =>
    refine chore hpush (fun heq => absurd heq hne) (fun _ => rfl) (fun _ => rfl) fun w => ?_
    change Tells _ _ _ _ _ (w.after fiber ((run.push (.fold onHalt onDone sameError)).planHalt
      (w.pending fiber) failure)) _
    rw [RunState.planHalt_push_fold hfalse]
    exact hhalt failure st m hm hP w

/-- What code builds is evaluated, and a panic of it is a defect. -/
theorem built {code : Action Instruction} {w : World}
    (hok : ∀ i, (code.run w).1 = .ok i → Tells s record fiber n run (.active run (.eval i)) Q)
    (herror : ∀ d, (code.run w).1 = .error d → Q (.die d) [] n) :
    Tells s record fiber n run (.active run (.ofBuilt (code.run w).1)) Q := by
  cases hrun : (code.run w).1 with
  | ok i => exact hok i hrun
  | error d => exact @handed _ _ _ _ _ _ (.die d) (herror d hrun)

theorem of_built {code : Action Instruction} {w : World} (h : (code.run w).1 = .ok i)
    (htells : Tells s record fiber n run (.active run (.eval i)) Q) :
    Tells s record fiber n run (.active run (.ofBuilt (code.run w).1)) Q := by
  rw [h]
  exact htells

/-- What is made of the result of code is evaluated, and a panic of it is a defect. -/
theorem built_bind {α : Type} {code : Action α} {f : α → Instruction} {w : World}
    (hok : ∀ a, (code.run w).1 = .ok a → Tells s record fiber n run (.active run (.eval (f a))) Q)
    (herror : ∀ d, (code.run w).1 = .error d → Q (.die d) [] n) :
    Tells s record fiber n run
      (.active run (.ofBuilt ((code >>= fun a => (pure (f a) : Action Instruction)).run w).1)) Q := by
  rw [Action.run_bind_pure]
  cases hcode : (code.run w).1 with
  | ok a => exact hok a hcode
  | error d => exact @handed _ _ _ _ _ _ (.die d) (herror d hcode)

theorem suspend {code : Action Instruction} (hfalse : run.interruptible = false)
    (h : ∀ w : World, Tells s record fiber n run (.active run (.ofBuilt (code.run w).1)) Q) :
    Tells s record fiber n run (.active run (.eval (.suspend code))) Q :=
  chore hfalse (fun _ => rfl) (fun _ => rfl) (fun _ => rfl) h

theorem access {next : Value → Action Instruction} (hfalse : run.interruptible = false)
    (h : ∀ w : World, Tells s record fiber n run
      (.active run (.ofBuilt ((next run.environment).run w).1)) Q) :
    Tells s record fiber n run (.active run (.eval (.access next))) Q :=
  chore hfalse (fun _ => rfl) (fun _ => rfl) (fun _ => rfl) h

/-! ### Regions -/

/-- An evaluation begins with an instruction, unless the fiber is stopped before. -/
theorem enter {i : Instruction} (hstarts : ∀ w, (Event.iterated w run (.eval i)).starts? = none)
    (htold : ∀ w, (Event.iterated w run (.eval i)).told fiber = [])
    (hstop : run.interruptible = true → ∀ source, Q (.halt (.of (.interrupt source))) [] n)
    (h : ∀ w : World, Tells s record fiber n run (w.after fiber (run.planEval fiber i)) Q) :
    Tells s record fiber n run (.active run (.eval i)) Q := by
  cases hallowed : run.interruptible with
  | false => exact chore hallowed (fun _ => rfl) hstarts htold h
  | true =>
    intro past es after c o hhistory hpast hn hcourse hlife
    generalize hend : Standing.handed run o = d at hcourse
    cases hcourse with
    | rest => cases o <;> cases hend
    | @go _ b _ e es _ hgoes hrest =>
      subst hend
      have hgoes' := hgoes
      have hhistory' : History s record fiber ((past ++ [e]) ++ (es ++ after)) c := by
        simpa using hhistory
      have hlater : n ≤ doingsIn (past ++ [e]) := by
        rw [doingsIn_append]
        omega
      have hnext : Tells s record fiber n run b Q ∧ e.starts? = none ∧ e.told fiber = [] := by
        cases hgoes with
        | stopped _ _ => exact ⟨@handed _ _ _ _ _ _ (.halt _) (hstop hallowed _), rfl, rfl⟩
        | @iterated w _ _ _ => exact ⟨h w, hstarts w, htold w⟩
      obtain ⟨htells, hstarts, htold⟩ := hnext
      obtain ⟨st, m, hes, hle, hm, hQ⟩ := htells _ es after c o hhistory'
        (hpast.append (.one trivial hgoes')) hlater hrest hlife
      have hall := Told.event hstarts hes
      rw [htold, List.nil_append] at hall
      rw [List.append_assoc] at hm
      exact ⟨st, m, hall, hle, hm, hQ⟩

/-- A region in which interruption is not allowed. -/
theorem region (hstop : run.interruptible = true → ∀ source,
      Q (.halt (.of (.interrupt source))) [] n)
    (h : Tells s record fiber n (run.enterStatus false)
      (.active (run.enterStatus false) (.eval i)) Q) :
    Tells s record fiber n run (.active run (.eval (.setInterruptible false i))) Q := by
  have hne : run.enterStatus false ≠ run := fun heq =>
    absurd (congrArg (fun r => r.stack.length) heq) (Nat.succ_ne_self _)
  refine enter (fun _ => rfl) (fun _ => rfl) hstop fun w => ?_
  refine seq (Nat.lt_succ_self _) ⟨.base, fun _ => rfl⟩ h fun o st m _ hQ => ?_
  -- the outcome leaves the region
  have hleave : Tells s record fiber m run (.handed run o) fun o' st' m' => Q o' (st ++ st') m' := by
    refine handed ?_
    rwa [List.append_nil]
  cases o with
  | done v => exact chore rfl (fun heq => absurd heq hne) (fun _ => rfl) (fun _ => rfl) fun _ => hleave
  | halt failure =>
    exact chore rfl (fun heq => absurd heq hne) (fun _ => rfl) (fun _ => rfl) fun _ => hleave

/-- A region inside of one in which interruption is not allowed either. -/
theorem region_inner (hfalse : run.interruptible = false)
    (h : Tells s record fiber n (run.enterStatus false)
      (.active (run.enterStatus false) (.eval i)) Q) :
    Tells s record fiber n run (.active run (.eval (.setInterruptible false i))) Q :=
  region (fun htrue => absurd (hfalse.symm.trans htrue) Bool.false_ne_true) h

/-- A masked region. -/
theorem mask {ε : ErrorType} {body : Restore → Effect ε}
    (hstop : run.interruptible = true → ∀ source, Q (.halt (.of (.interrupt source))) [] n)
    (h : Tells s record fiber n (run.enterStatus false)
      (.active (run.enterStatus false) (.eval (body ⟨run.interruptible⟩))) Q) :
    Tells s record fiber n run
      (.active run (.eval (Effect.mask fun restore => pure (body restore)))) Q :=
  enter (fun _ => rfl) (fun _ => rfl) hstop fun _ => region hstop h

/-- Another environment. -/
theorem provide {environment : Value} (hfalse : run.interruptible = false)
    (h : Tells s record fiber n (run.enterEnvironment environment)
      (.active (run.enterEnvironment environment) (.eval i)) Q) :
    Tells s record fiber n run (.active run (.eval (.provide environment i))) Q := by
  have hne : run.enterEnvironment environment ≠ run := fun heq =>
    absurd (congrArg (fun r => r.stack.length) heq) (Nat.succ_ne_self _)
  refine chore hfalse (fun _ => rfl) (fun _ => rfl) (fun _ => rfl) fun w => ?_
  refine seq (Nat.lt_succ_self _) ⟨.base, fun _ => rfl⟩ h fun o st m _ hQ => ?_
  -- the outcome leaves the environment
  have hleave : Tells s record fiber m run (.handed run o) fun o' st' m' => Q o' (st ++ st') m' := by
    refine handed ?_
    rwa [List.append_nil]
  have hinner : (run.enterEnvironment environment).interruptible = false := hfalse
  cases o with
  | done v =>
    exact chore hinner (fun heq => absurd heq hne) (fun _ => rfl) (fun _ => rfl) fun _ => hleave
  | halt failure =>
    exact chore hinner (fun heq => absurd heq hne) (fun _ => rfl) (fun _ => rfl) fun _ => hleave

/-! ### Exits as values -/

section Exits

variable {ε ε' : ErrorType} {e : Effect ε}

/-- The exit of an evaluation as a value. -/
theorem result (hfalse : run.interruptible = false)
    (h : ∀ r : RunState, r.interruptible = false → Tells s record fiber n r (.active r (.eval e)) P) :
    Tells s record fiber n run (.active run (.eval (e.result : Effect ε'))) fun o st m =>
      ∃ o', P o' st m ∧ o = .done (.exit (o'.untag ε)) := by
  refine fold hfalse (h _ hfalse) (fun v st m _ hP w => ?_) fun failure st m _ hP w => ?_
  · refine done hfalse ⟨.done v, ?_, rfl⟩
    rwa [List.append_nil]
  · refine done hfalse ⟨.halt failure, ?_, rfl⟩
    rwa [List.append_nil]

/-- What follows on the exit of an evaluation. -/
theorem chain_result {next : Exit Value Value → Action (Effect ε')}
    (hfalse : run.interruptible = false)
    (h₁ : ∀ r : RunState, r.interruptible = false → Tells s record fiber n r (.active r (.eval e)) P)
    (h₂ : ∀ o st m, n ≤ m → P o st m → ∀ w : World, Tells s record fiber m run
      (.active run (.ofBuilt ((next (o.untag ε)).run w).1)) fun o' st' m' => Q o' (st ++ st') m') :
    Tells s record fiber n run
      (.active run (.eval ((e.result : Effect ε').chainAs next))) Q := by
  have hpush : (run.push (.chain (Effect.expecting next))).interruptible = false := hfalse
  refine chain hfalse (result hpush h₁) ?_ ?_
  · rintro v st m hm ⟨o, hP, heq⟩ w
    obtain rfl := Exit.done.inj heq
    exact h₂ o st m hm hP w
  · rintro failure st m - ⟨o, -, heq⟩
    cases heq

/-- The exit of a use is merged with that of its finalizer. -/
theorem finishWith {x : Exit Value Value} {finalizer : Effect ε} (hfalse : run.interruptible = false)
    (h : ∀ r : RunState, r.interruptible = false →
      Tells s record fiber n r (.active r (.eval finalizer)) P) :
    Tells s record fiber n run (.active run (.eval (Effect.finishWith x finalizer))) fun o st m =>
      ∃ o', P o' st m ∧ o = (x.withFinalizer (o'.untag ε)).tag ε := by
  refine chain_result hfalse h fun o st m _ hP w => ?_
  refine done hfalse ⟨o, ?_, rfl⟩
  rwa [List.append_nil]

end Exits

/-! ### Waits -/

/-- **A wait ends with what is so.** -/
theorem wait {registration : Registration} (hrun : Run budget (init minted) record s)
    (hfalse : run.interruptible = false)
    (h : ∀ o m, n ≤ m → registration.Answered s.world.store o →
      Confided s record fiber registration o →
      (∀ c, (∀ {store : Store} {o}, registration.Answered store o → store.isFinished c = true) →
        Finds record fiber m fun w => w.store.isFinished c = true) →
      Q o [] m) :
    Tells s record fiber n run (.active run (.eval (.wait registration))) Q := by
  intro past es after c o hhistory hpast hn hcourse hlife
  have hunstopped : ∀ {step w b}, ¬ Goes fiber (.active run step) (.stopped w) b := by
    intro step w b hgoes
    obtain ⟨w', heq, -⟩ := hgoes.of_uninterruptible hfalse
    cases heq
  rcases hcourse.of_wait with ⟨w, es', source, rfl, hgoes, -⟩ |
    ⟨w, idle, es', step, rfl, hidle, -, hrest, -⟩
  · exact (hunstopped hgoes).elim
  have hwait := hhistory.getElem?_doing rfl
  have htruthful := hrun.truthful (hrun.foresees_heard fiber) hhistory
  rw [List.cons_append, List.append_assoc] at htruthful
  rcases htruthful.replies hidle (hrest.life.append hlife) with
    ⟨w', more, d, -, hgoes⟩ | ⟨-, ⟨o', rfl, hanswered⟩ | ⟨-, hallowed, -⟩⟩
  · exact (hunstopped hgoes).elim
  · obtain ⟨rfl, rfl⟩ := hrest.eq_of_handed
    have hlength : doingsIn (past ++ .iterated w run (.eval (.wait registration)) :: (idle ++ [])) =
        doingsIn past + 1 := by
      have hone : doingsIn (.iterated w run (.eval (.wait registration)) :: idle) = 1 := by
        rw [doingsIn, List.filter_cons_of_pos (by rfl), hidle]
        rfl
      rw [List.append_nil, doingsIn_append, hone]
    refine ⟨[], doingsIn past + 1, ?_, by omega, Nat.le_of_eq hlength.symm,
      h _ _ (by omega) hanswered.1 hanswered.2 fun c hanswer =>
        hrun.finds_told hwait hfalse (fun w' hnext => ?_) hanswer⟩
    · rw [List.append_nil]
      exact .event rfl (.of_idle hidle)
    · -- what it does next is to go on
      cases hlife with
      | rest =>
        have := (List.getElem?_eq_some_iff.mp hnext).1
        rw [← hhistory.doings, List.append_nil] at this
        change _ < doingsIn _ at this
        omega
      | @go _ _ _ e after _ hgoes _ =>
        obtain ⟨w'', rfl, -⟩ := hgoes.of_uninterruptible hfalse
        rw [← List.append_assoc] at hhistory
        have hget := hhistory.getElem?_doing rfl
        rw [hlength, hnext] at hget
        cases hget
  · rw [hfalse] at hallowed
    cases hallowed

/-- **A fiber that is waited for has finished**, and its exit is that with which it has ended if
nobody else waits for it. -/
theorem awaitExit {ε ε' : ErrorType} {f : Fiber ε} (hrun : Run budget (init minted) record s)
    (hfalse : run.interruptible = false)
    (h : ∀ x m, n ≤ m → s.world.store.isFinished f.id = true →
      (Finds record fiber m fun w => w.store.isFinished f.id = true) →
      (∀ first type, Confides s record fiber f.id first type →
        ∃ o, Ended record f.id o ∧ x = o.untag ε) →
      Q (.done (.exit x)) [] m) :
    Tells s record fiber n run (.active run (.eval (f.awaitExit : Effect ε'))) Q := by
  refine wait hrun hfalse fun o m hm hanswered hconfided hfinds => ?_
  obtain ⟨hfinished, x, rfl⟩ := hanswered
  exact h x m hm hfinished (hfinds f.id fun hanswered => hanswered.1)
    fun first type hconfides => hconfided.exit rfl rfl hconfides

/-! ### Releases -/

/-- What is acquired is paired with a release, which is found from then on. -/
theorem reserve {v : Value} {release : Release} (hrun : Run budget (init minted) record s)
    (hfalse : run.interruptible = false)
    (h : ∀ (w : World) m, n ≤ m → (∀ {P : World → Prop}, Finds record fiber n P → P w) →
      (Finds record fiber m fun w' => w'.releases.get? w.releases.next = some release) →
      Q (.done (.reservation v ⟨w.releases.next⟩))
        ((Event.iterated w run (.eval (.reserve v release))).told fiber) m) :
    Tells s record fiber n run (.active run (.eval (.reserve v release))) Q := by
  refine step hfalse (fun _ => rfl) (fun _ => rfl) fun w k hk hget => ?_
  refine @handed _ _ _ _ _ (fun o st m => Q o (_ ++ st) m) (.done _) ?_
  rw [List.append_nil]
  refine h w (k + 1) (by omega) (fun hfinds => hfinds hk hget)
    (hrun.finds_after (lasting_release _ release) hget ?_)
  exact (Numbered.get?_push _ _ _).trans (if_pos rfl)

/-- A release is built, and what is built is evaluated. -/
theorem release {id : ReleaseId} {x : Exit Value Value} (hfalse : run.interruptible = false)
    (h : ∀ (w : World) k, n ≤ k →
      (eventsOf fiber record)[k]? = some (.iterated w run (.eval (.release id x))) →
      Tells s record fiber n run (.active run (.ofBuilt (w.buildRelease id x).1))
        fun o st m => Q o ((w.calls id x).map (fiber, ·) ++ st) m) :
    Tells s record fiber n run (.active run (.eval (.release id x))) Q :=
  step_from hfalse (fun _ => rfl) (fun _ => rfl) fun w k hk hget =>
    ⟨n, Nat.le_refl _, by omega, h w k hk hget⟩

/-! ### Children -/

/-- A fiber that has nothing left to do but to end, and is not stopped, ends. -/
theorem of_root {base : RunState} (hroot : base.stack = []) (hfalse : base.interruptible = false)
    {es : List Event} {o o' : Outcome} (h : Life fiber (.handed base o) es (.ended o')) :
    o' = o ∧ ∃ w, es = [.iterated w base (.ofOutcome o)] := by
  generalize hend : Standing.ended o' = c at h
  cases h with
  | rest => cases hend
  | go _ hgoes hrest =>
    subst hend
    obtain ⟨w, rfl, rfl⟩ := hgoes.of_uninterruptible hfalse
    rw [plan_of_root hroot] at hrest
    change Life fiber (.ended o) _ (.ended o') at hrest
    cases hrest with
    | rest => exact ⟨rfl, w, rfl⟩
    | go _ hgoes _ => cases hgoes

/-- **What is known of a fiber that has been started** where interruption is not allowed. -/
theorem raised {c : FiberId} {environment : Value} {life : List Event} {b : Standing}
    {R : Outcome → Story → Nat → Prop} (hrun : Run budget (init minted) record s)
    (hhistory : History s record c (.started environment false i :: life) b)
    (h : Tells s record c 0 (.start environment false)
      (.active (.start environment false) (.eval i)) R) :
    s.world.store.isFinished c = false ∧ Raised s record c R [] ∨
      ∃ o st, b = .ended o ∧ Told s record c life st ∧ Raised s record c R st := by
  cases hfinished : s.world.store.isFinished c with
  | false => exact Or.inl ⟨rfl, .going hfinished⟩
  | true =>
    refine Or.inr ?_
    obtain ⟨o, rfl⟩ : ∃ o, b = .ended o := by
      obtain ⟨r, hr, hdone⟩ := (Option.any_eq_true ..).mp hfinished
      have hphase := hhistory.stands.phase
      rw [World.phase, hr, Option.map_some, hdone] at hphase
      cases b with
      | ended o => exact ⟨o, rfl⟩
      | unborn | active _ _ | waiting _ => cases hphase
    have hborn := @Course.one c (fun _ => True) _ _ _ trivial (Goes.started environment false i)
    have hlife : Life c (.active (.start environment false) (.eval i)) life (.ended o) := by
      cases hhistory.life with
      | go _ hgoes hrest =>
        cases hgoes
        exact hrest
    rcases @Course.split (.start environment false) _ _ _ _ _ hlife ⟨.base, fun _ => rfl⟩ with
      ⟨-, hinside⟩ | ⟨during, after, o', rfl, hduring, -, hafter⟩
    · exact hinside.elim
    obtain ⟨st, m, htold, -, hm, hR⟩ := h [.started environment false i] during after _ o' hhistory
      hborn (Nat.zero_le _) hduring hafter
    obtain ⟨rfl, w, rfl⟩ := of_root rfl rfl hafter
    -- its last doing is its end
    have hlast := (show History s record c (([.started environment false i] ++ during) ++
      .iterated w (.start environment false) (.ofOutcome o) :: []) _ from hhistory).getElem?_doing rfl
    have hplan : (Step.ofOutcome o).plan (w.pending c) c (.start environment false) = .finish o :=
      plan_of_root rfl o _
    have hquiet : Told s record c
        [.iterated w (.start environment false) (.ofOutcome o)] [] := by
      cases o <;> exact .one rfl
    refine ⟨o, st ++ [], rfl, htold.append hquiet, ?_⟩
    rw [List.append_nil]
    exact .ended ⟨w, _, _, mem_eventsOf.mp (List.mem_of_getElem? hlast), hplan⟩ hR
      fun hP hfinds => hrun.bequeaths hP hlast hplan hfinds hm

/-- **What can be told of a fiber is told by the one who has started it.** -/
theorem fork {R : FiberId → Outcome → Story → Nat → Prop} (hrun : Run budget (init minted) record s)
    (hfalse : run.interruptible = false)
    (hchild : ∀ c environment,
      (∀ {P : World → Prop}, Lasting P → Finds record fiber n P → Finds record c 0 P) →
      Tells s record c 0 (.start environment false)
        (.active (.start environment false) (.eval i)) (R c))
    (h : ∀ (w : World) st, (fiber, .iterated w run (.eval (.fork i false))) ∈ record →
      Raised s record w.store.nextFiber (R w.store.nextFiber) st →
      Q (.done (.fiber w.store.nextFiber)) ((fiber, .started w.store.nextFiber) :: st) n) :
    Tells s record fiber n run (.active run (.eval (.fork i false))) Q := by
  intro past es after c o hhistory hpast hn hcourse hlife
  generalize hend : Standing.handed run o = d at hcourse
  cases hcourse with
  | rest => cases o <;> cases hend
  | @go _ _ _ e es _ hgoes hrest =>
    subst hend
    obtain ⟨w, rfl, rfl⟩ := hgoes.of_uninterruptible hfalse
    change Course fiber _ (.handed run (.done (.fiber w.store.nextFiber))) es _ at hrest
    obtain ⟨rfl, rfl⟩ := hrest.eq_of_handed
    have hget := hhistory.getElem?_doing rfl
    have hmem := mem_eventsOf.mp (List.mem_of_getElem? hget)
    have hfresh : w.store.fiber? w.store.nextFiber = none := Numbered.get?_next _
    obtain ⟨life, b, hborn⟩ := hrun.history_child hmem
    rw [hfalse] at hborn
    have htells := hchild w.store.nextFiber run.environment fun hP hfinds =>
      hrun.finds_child hP hmem (hfinds hn hget) hfresh
    have hm : n ≤ doingsIn (past ++ [.iterated w run (.eval (.fork i false))]) := by
      rw [doingsIn_append]
      omega
    rcases raised hrun hborn htells with ⟨hgoing, hraised⟩ | ⟨o, st, rfl, htold, hraised⟩
    · exact ⟨_, n, .going rfl hgoing .rest, Nat.le_refl _, hm, h w [] hmem hraised⟩
    · refine ⟨_, n, .child rfl hborn htold .rest, Nat.le_refl _, hm, ?_⟩
      rw [List.append_nil]
      exact h w st hmem hraised

end Tells

end Workshop

end Fibers
