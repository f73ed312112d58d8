import Fibers.Proofs.Finalization
import Fibers.Proofs.Stories

/-!
# What is told of brackets and races

The effects that are put together of others tell what those tell.  A bracket tells of its
acquisition, of the use and of the release, one after the other; a race tells of the two fibers that
it starts and of the handler of the one that finishes first.

## Main results

* `Workshop.Tells.bracketExit` — **an acquisition, a use and a release.**
* `Workshop.Tells.awaitOrInterrupt`, `Workshop.Tells.interrupt` — what ends with the end of another
  fiber.
* `Workshop.Tells.raceFold` — **two children, and what is made of their exits.**
* `Workshop.Tells.zipPar` — two children, both of which have ended.
-/

namespace Fibers

open Effect

/-! ### The children of a race -/

namespace Effect

variable {ε ε₁ ε₂ : ErrorType}

/-- How a race goes on where interruption is not allowed, when both of its children have been
started. -/
def raceBoth (onLeft : Exit Value Value → Fiber ε₁ → Action (Effect ε₂))
    (onRight : Exit Value Value → Fiber ε → Action (Effect ε₂)) (l : Fiber ε) (r : Fiber ε₁) :
    Effect ε₂ :=
  (Restore.apply ⟨false⟩ (firstDone l r : Effect ε₂)).foldHalt
    (fun h => pure (abandonRace l r h))
    (expecting fun leftFirst : Bool => pure (settleRace ⟨false⟩ l r onLeft onRight leftFirst))

/-- What takes the handle of the left child of a race. -/
def leftFrame (right : Effect ε₁) (onLeft : Exit Value Value → Fiber ε₁ → Action (Effect ε₂))
    (onRight : Exit Value Value → Fiber ε → Action (Effect ε₂)) : Frame :=
  .chain (expecting fun l : Fiber ε => pure
    (((Restore.apply ⟨false⟩ right).fork : Effect ε₂).chainAs fun r : Fiber ε₁ =>
      pure (raceBoth onLeft onRight l r)))

/-- What takes the handle of the right child of a race. -/
def rightFrame (onLeft : Exit Value Value → Fiber ε₁ → Action (Effect ε₂))
    (onRight : Exit Value Value → Fiber ε → Action (Effect ε₂)) (l : Fiber ε) : Frame :=
  .chain (expecting fun r : Fiber ε₁ => pure (raceBoth onLeft onRight l r))

end Effect

namespace Workshop.Tells

variable {budget minted : Nat} {s : Workshop} {record : List (FiberId × Event)}
  {fiber : FiberId} {n : Nat} {run : RunState} {Q : Outcome → Story → Nat → Prop}
  {ε ε₁ ε₂ : ErrorType}

/-! ### Brackets -/

/-- **A bracket** tells of its acquisition, of the use and of the release. -/
theorem bracketExit {acquire : Effect ε} {use : Value → Action (Effect ε)}
    {release : Value → Exit Value Value → Action (Effect ε)} {A : Outcome → Story → Nat → Prop}
    {U : Value → Story → Outcome → Story → Nat → Prop}
    (hstop : run.interruptible = true → ∀ source, Q (.halt (.of (.interrupt source))) [] n)
    (hacquire : ∀ r : RunState, r.interruptible = false →
      Tells s record fiber n r (.active r (.eval acquire)) A)
    (hfailed : ∀ h st m, n ≤ m → A (.halt h) st m → Q (.halt h) st m)
    (huse : ∀ v st m, n ≤ m → A (.done v) st m → ∀ (w : World) e,
      ((guarded (use v)).run w).1 = .ok e → ∀ r : RunState, r.interruptible = false →
        Tells s record fiber m r (.active r (.eval (Restore.apply ⟨run.interruptible⟩ e))) (U v st))
    (hrelease : ∀ v st o st' m, n ≤ m → U v st o st' m → ∀ (w : World) finalizer,
      ((guarded (release v (o.untag ε))).run w).1 = .ok finalizer →
        ∀ r : RunState, r.interruptible = false →
          Tells s record fiber m r (.active r (.eval finalizer)) fun o' st'' m' =>
            Q (((o.untag ε).withFinalizer (o'.untag ε)).tag ε) (st ++ (st' ++ st'')) m') :
    Tells s record fiber n run (.active run (.eval (bracketExit acquire use release))) Q := by
  refine mask hstop ?_
  have hmasked : (run.enterStatus false).interruptible = false := rfl
  generalize run.enterStatus false = masked at hmasked ⊢
  refine chain hmasked (hacquire _ hmasked) (fun v st m hm hA w => ?_) hfailed
  -- what is acquired is used as the surroundings allow
  obtain ⟨used, hused⟩ := run_guarded (use v) w
  refine of_built (run_guarded_bind hused fun used =>
    ((Restore.apply ⟨run.interruptible⟩ used).result : Effect ε).chainAs (settleUse v release)) ?_
  refine chain_result hmasked (huse v st m hm hA w used hused) fun o st' m' hm' hU w' => ?_
  -- and released for the exit of the use
  obtain ⟨finalizer, hfinalizer⟩ := run_guarded (release v (o.untag ε)) w'
  refine of_built (run_guarded_bind hfinalizer fun finalizer =>
    Effect.finishWith (o.untag ε) finalizer) ?_
  refine (finishWith hmasked
    (hrelease v st o st' m' (by omega) hU w' finalizer hfinalizer)).mono ?_
  rintro o' st'' m'' - ⟨o'', hQ, rfl⟩
  exact hQ

/-! ### Ends that are built -/

/-- What builds an end adds nothing to a story. -/
theorem yields {code : Action (Effect ε)} (hfalse : run.interruptible = false)
    (hcode : Settles.Yields code fun _ => True) (h : ∀ o, Q o [] n) (w : World) :
    Tells s record fiber n run (.active run (.ofBuilt (code.run w).1)) Q := by
  rcases hcode w with ⟨o, hbuilt, -⟩ | ⟨d, hbuilt, -⟩ <;> rw [hbuilt]
  · exact done hfalse (h o)
  · exact @handed _ _ _ _ _ _ (.die d) (h _)

/-! ### What ends with the end of another fiber -/

/-- A fiber that is stopped and waited for has finished. -/
theorem interrupt {f : Fiber ε} (hrun : Run budget (init minted) record s)
    (hfalse : run.interruptible = false)
    (h : ∀ x m, n ≤ m → s.world.store.isFinished f.id = true → Q (.done (.exit x)) [] m) :
    Tells s record fiber n run (.active run (.eval (f.interrupt : Effect ε₁))) Q := by
  refine chain (P := fun o st _ => o = .done .unit ∧ st = []) hfalse ?_ ?_ ?_
  · exact chore hfalse (fun _ => rfl) (fun _ => rfl) (fun _ => rfl) fun _ =>
      @handed _ _ _ _ _ _ (.done .unit) ⟨rfl, rfl⟩
  · rintro v st m hm ⟨heq, rfl⟩ w
    exact awaitExit hrun hfalse fun x m' hm' hfinished _ _ => h x m' (by omega) hfinished
  · rintro failure st m - ⟨heq, -⟩
    cases heq

/-- A wait that takes care of the fiber that it waits for ends with the exit of that, where
interruption is not allowed. -/
theorem awaitOrInterrupt {f : Fiber ε} (hrun : Run budget (init minted) record s)
    (hfalse : run.interruptible = false)
    (h : ∀ x m, n ≤ m → s.world.store.isFinished f.id = true → Q (.done (.exit x)) [] m) :
    Tells s record fiber n run (.active run (.eval (f.awaitOrInterrupt : Effect ε₁))) Q := by
  refine bracketExit (A := fun o st _ => o = .done .unit ∧ st = [])
    (U := fun _ st o st' _ => st = [] ∧ st' = [] ∧ s.world.store.isFinished f.id = true ∧
      ∃ x, o = .done (.exit x))
    (fun htrue => absurd (hfalse.symm.trans htrue) Bool.false_ne_true) (fun r hr => ?_) ?_ ?_ ?_
  · exact done hr ⟨rfl, rfl⟩
  · rintro failure st m - ⟨heq, -⟩
    cases heq
  · rintro v st m hm ⟨-, rfl⟩ w e he r hr
    obtain rfl := Except.ok.inj he
    rw [hfalse]
    exact region_inner hr (awaitExit hrun rfl fun x m' _ hfinished _ _ =>
      ⟨rfl, rfl, hfinished, x, rfl⟩)
  · -- there is nothing to clean up
    rintro v st o st' m hm ⟨rfl, rfl, hfinished, x, rfl⟩ w finalizer hfinalizer r hr
    obtain rfl := Except.ok.inj hfinalizer
    exact done hr (h x m hm hfinished)

/-! ### Two children -/

section Race

variable {left : Effect ε} {right : Effect ε₁} {L R : FiberId → Outcome → Story → Nat → Prop}

/-- What is known of a child whose exit has been waited for: it has ended as can be told, and the
exit is how it has ended if nobody else waits for it. -/
structure Awaited (s : Workshop) (record : List (FiberId × Event)) (fiber : FiberId) (type : ErrorType)
    (c : FiberId) (x : Exit Value Value) (m : Nat) : Prop where
  finished : s.world.store.isFinished c = true
  finds : Finds record fiber m fun w => w.store.isFinished c = true
  exit : ∀ first type', Confides s record fiber c first type' →
    ∃ o, Ended record c o ∧ x = o.untag type

/-- A child has been started with an instruction where interruption is not allowed, its handle has
been handed to a frame, and the rest of its story is told. -/
structure Child (s : Workshop) (record : List (FiberId × Event)) (fiber : FiberId) (frame : Frame)
    (i : Instruction) (R : FiberId → Outcome → Story → Nat → Prop) (c : FiberId) (st : Story) :
    Prop where
  started : ∃ w run, (fiber, .iterated w run (.eval (.fork i false))) ∈ record ∧
    run.interruptible = false ∧ run.stack.head? = some frame ∧ c = w.store.nextFiber
  raised : Raised s record c (R c) st

/-- A child that has finished has ended as can be told. -/
theorem Child.ended {frame : Frame} {i : Instruction} {R : FiberId → Outcome → Story → Nat → Prop}
    {c : FiberId} {st : Story} (h : Child s record fiber frame i R c st)
    (hfinished : s.world.store.isFinished c = true) :
    ∃ o m, Ended record c o ∧ R c o st m ∧
      ∀ {P : World → Prop}, Lasting P → Finds record c m P → Bequeaths record c P := by
  cases h.raised with
  | going hgoing =>
    rw [hfinished] at hgoing
    cases hgoing
  | ended hended hR hbequeaths => exact ⟨_, _, hended, hR, hbequeaths⟩

/-- What can be told of a fiber that is started with an instruction where interruption is not
allowed. -/
def Begins (s : Workshop) (record : List (FiberId × Event)) (fiber : FiberId) (n : Nat)
    (i : Instruction) (R : FiberId → Outcome → Story → Nat → Prop) : Prop :=
  ∀ c environment,
    (∀ {P : World → Prop}, Lasting P → Finds record fiber n P → Finds record c 0 P) →
      Tells s record c 0 (.start environment false)
        (.active (.start environment false) (.eval i)) (R c)

theorem Begins.mono {i : Instruction} {m : Nat} (h : Begins s record fiber n i R) (hle : n ≤ m) :
    Begins s record fiber m i R := fun c environment hfinds =>
  h c environment fun hP hn => hfinds hP (hn.mono hle)

/-- What follows on the start of a fiber. -/
theorem chain_fork {child : Effect ε} {next : Fiber ε → Effect ε₂}
    (hrun : Run budget (init minted) record s) (hfalse : run.interruptible = false)
    (hchild : Begins s record fiber n child R)
    (h : ∀ c st m, n ≤ m → Child s record fiber (.chain (expecting fun f : Fiber ε => pure (next f)))
      child R c st → Tells s record fiber m run
      (.active run (.eval (next ⟨c⟩))) fun o st' m' => Q o ((fiber, .started c) :: (st ++ st')) m') :
    Tells s record fiber n run (.active run (.eval
      ((child.fork : Effect ε₂).chainAs fun f : Fiber ε => pure (next f)))) Q := by
  refine chain (P := fun o st _ => ∃ c st', o = .done (.fiber c) ∧ st = (fiber, .started c) :: st' ∧
    Child s record fiber (.chain (expecting fun f : Fiber ε => pure (next f))) child R c st')
    hfalse ?_ ?_ ?_
  · exact Tells.fork hrun hfalse hchild fun w st hmem hraised =>
      ⟨_, st, rfl, rfl, ⟨w, _, hmem, hfalse, rfl, rfl⟩, hraised⟩
  · rintro v st m hm ⟨c, st', heq, rfl, hc⟩ w
    obtain rfl := Exit.done.inj heq
    exact h c st' m hm hc
  · rintro failure st m - ⟨c, st', heq, -⟩
    cases heq

/-- **A race** tells of its two children, and of the handler of the one that is waited for first. -/
theorem raceFold {onLeft : Exit Value Value → Fiber ε₁ → Action (Effect ε₂)}
    {onRight : Exit Value Value → Fiber ε → Action (Effect ε₂)}
    (hrun : Run budget (init minted) record s) (hfalse : run.interruptible = false)
    (hl : Begins s record fiber n (Restore.apply ⟨false⟩ left) L)
    (hr : Begins s record fiber n (Restore.apply ⟨false⟩ right) R)
    (hleft : ∀ l r st₁ st₂ x m, n ≤ m →
      Child s record fiber (leftFrame right onLeft onRight) (Restore.apply ⟨false⟩ left) L l st₁ →
      Child s record fiber (rightFrame onLeft onRight ⟨l⟩) (Restore.apply ⟨false⟩ right) R r st₂ →
      Awaited s record fiber ε l x m → ∀ (w : World) (run' : RunState), run'.interruptible = false →
        Tells s record fiber m run' (.active run' (.ofBuilt ((onLeft x ⟨r⟩).run w).1)) fun o st m' =>
          Q o ((fiber, .started l) :: (st₁ ++ (fiber, .started r) :: (st₂ ++ st))) m')
    (hright : ∀ l r st₁ st₂ x m, n ≤ m →
      Child s record fiber (leftFrame right onLeft onRight) (Restore.apply ⟨false⟩ left) L l st₁ →
      Child s record fiber (rightFrame onLeft onRight ⟨l⟩) (Restore.apply ⟨false⟩ right) R r st₂ →
      Awaited s record fiber ε₁ r x m → ∀ (w : World) (run' : RunState), run'.interruptible = false →
        Tells s record fiber m run' (.active run' (.ofBuilt ((onRight x ⟨l⟩).run w).1)) fun o st m' =>
          Q o ((fiber, .started l) :: (st₁ ++ (fiber, .started r) :: (st₂ ++ st))) m') :
    Tells s record fiber n run
      (.active run (.eval (raceFold left right onLeft onRight : Effect ε₂))) Q := by
  refine mask (fun htrue => absurd (hfalse.symm.trans htrue) Bool.false_ne_true) ?_
  rw [hfalse]
  have hmasked : (run.enterStatus false).interruptible = false := rfl
  generalize run.enterStatus false = masked at hmasked ⊢
  refine chain_fork hrun hmasked hl fun l st₁ m hm hchild₁ => ?_
  refine chain_fork hrun hmasked (hr.mono hm) fun r st₂ m' hm' hchild₂ => ?_
  -- what the handler of the winner tells
  have hhandle : ∀ {ε' : ErrorType} {winner : Fiber ε'} {code : Exit Value Value → Action (Effect ε₂)}
      {m : Nat}, (∀ x m', m ≤ m' → Awaited s record fiber ε' winner.id x m' →
        ∀ (w : World) (run' : RunState), run'.interruptible = false →
          Tells s record fiber m' run' (.active run' (.ofBuilt ((code x).run w).1)) fun o st m' =>
            Q o ((fiber, .started l) :: (st₁ ++ (fiber, .started r) :: (st₂ ++ st))) m') →
      Tells s record fiber m masked (.active masked (.eval
        ((winner.awaitExit : Effect ε₂).chainAs fun x : Exit Value Value => do
          let handled ← code x
          pure (Restore.apply ⟨false⟩ handled)))) fun o st m' =>
            Q o ((fiber, .started l) :: (st₁ ++ (fiber, .started r) :: (st₂ ++ st))) m' := by
    intro ε' winner code m hcode
    refine chain (P := fun o st m' => ∃ x, o = .done (.exit x) ∧ st = [] ∧
      Awaited s record fiber ε' winner.id x m') hmasked ?_ ?_ ?_
    · exact awaitExit hrun hmasked fun x m' _ hfinished hfinds hexit =>
        ⟨x, rfl, rfl, hfinished, hfinds, hexit⟩
    · rintro v st m' hm' ⟨x, heq, rfl, hx⟩ w
      obtain rfl := Exit.done.inj heq
      have hbuilt : ∀ {run' : RunState}, run'.interruptible = false → Tells s record fiber m' run'
          (.active run' (.ofBuilt ((code x).run w).1)) fun o st m' =>
            Q o ((fiber, .started l) :: (st₁ ++ (fiber, .started r) :: (st₂ ++ st))) m' :=
        hcode x m' hm' hx w _
      have hwhole : ((code x >>= fun handled =>
          (pure (Restore.apply ⟨false⟩ handled) : Action (Effect ε₂))).run w).1 =
          match ((code x).run w).1 with
          | .ok handled => .ok (Restore.apply ⟨false⟩ handled)
          | .error d => .error d := by
        rw [Action.run_bind]
        generalize (code x).run w = result
        obtain ⟨_ | _, _⟩ := result <;> rfl
      change Tells s record fiber m' masked (.active masked (.ofBuilt ((code x >>= fun handled =>
          (pure (Restore.apply ⟨false⟩ handled) : Action (Effect ε₂))).run w).1)) _
      rw [hwhole]
      cases hcoded : ((code x).run w).1 with
      | ok handled =>
        rw [hcoded] at hbuilt
        exact region_inner hmasked (hbuilt rfl)
      | error d =>
        rw [hcoded] at hbuilt
        exact hbuilt hmasked
    · rintro failure st m' - ⟨x, heq, -⟩
      cases heq
  -- one of them is done with first
  refine fold (P := fun o st _ => st = [] ∧ ∃ b : Bool, o = .done (.bool b)) hmasked
    (region_inner hmasked (wait hrun rfl fun o m _ hanswered _ _ => ?_)) ?_ ?_
  · obtain ⟨b, rfl, -⟩ := hanswered
    exact ⟨rfl, b, rfl⟩
  · rintro v st m'' hm'' ⟨rfl, b, heq⟩ w
    obtain rfl := Exit.done.inj heq
    cases b with
    | true =>
      exact @hhandle ε ⟨l⟩ (fun x => onLeft x ⟨r⟩) m'' fun x k hk hx =>
        hleft l r st₁ st₂ x k (by omega) hchild₁ hchild₂ hx
    | false =>
      exact @hhandle ε₁ ⟨r⟩ (fun x => onRight x ⟨l⟩) m'' fun x k hk hx =>
        hright l r st₁ st₂ x k (by omega) hchild₁ hchild₂ hx
  · rintro failure st m'' - ⟨-, b, heq⟩
    cases heq

/-- What ends once another fiber has ended. -/
theorem chain_exit {first : Effect ε₁} {next : Exit Value Value → Action (Effect ε₁)} {c : FiberId}
    (hfalse : run.interruptible = false)
    (hfirst : ∀ r : RunState, r.interruptible = false → Tells s record fiber n r
      (.active r (.eval first)) fun o st _ => st = [] ∧ s.world.store.isFinished c = true ∧
        ∃ x, o = .done (.exit x))
    (hnext : ∀ x, Settles.Yields (next x) fun _ => True)
    (h : ∀ o m, n ≤ m → s.world.store.isFinished c = true → Q o [] m) :
    Tells s record fiber n run (.active run (.eval (first.chainAs next))) Q := by
  refine chain hfalse (hfirst _ hfalse) ?_ ?_
  · rintro v st m hm ⟨rfl, hfinished, x, heq⟩ w
    obtain rfl := Exit.done.inj heq
    exact yields hfalse (hnext x) (fun o => h o m hm hfinished) w
  · rintro failure st m - ⟨-, -, x, heq⟩
    cases heq

/-- **Both at once** tell of two children that have ended. -/
theorem zipPar {right : Effect ε} (hrun : Run budget (init minted) record s)
    (hfalse : run.interruptible = false)
    (hl : Begins s record fiber n (Restore.apply ⟨false⟩ left) L)
    (hr : Begins s record fiber n (Restore.apply ⟨false⟩ right) R)
    (h : ∀ {frame frame'} o l r st₁ st₂ m, n ≤ m →
      Child s record fiber frame (Restore.apply ⟨false⟩ left) L l st₁ →
      Child s record fiber frame' (Restore.apply ⟨false⟩ right) R r st₂ →
      s.world.store.isFinished l = true → s.world.store.isFinished r = true →
        Q o ((fiber, .started l) :: (st₁ ++ (fiber, .started r) :: st₂)) m) :
    Tells s record fiber n run (.active run (.eval (left.zipPar right))) Q := by
  -- whichever is waited for first, the other one is waited for as well
  have hother : ∀ {frame frame' : Frame} {l r c : FiberId} {st₁ st₂ : Story} {m : Nat}, n ≤ m →
      Child s record fiber frame (Restore.apply ⟨false⟩ left) L l st₁ →
      Child s record fiber frame' (Restore.apply ⟨false⟩ right) R r st₂ →
      (s.world.store.isFinished c = true →
        s.world.store.isFinished l = true ∧ s.world.store.isFinished r = true) →
      ∀ {run : RunState}, run.interruptible = false →
        (∀ combine : Value → Action Value, Tells s record fiber m run
          (.active run (.eval (finishPair (⟨c⟩ : Fiber ε) combine : Effect ε))) fun o st m' =>
            Q o ((fiber, .started l) :: (st₁ ++ (fiber, .started r) :: (st₂ ++ st))) m') ∧
        ∀ next : Exit Value Value → Action (Effect ε), (∀ x, Settles.Yields (next x) fun _ => True) →
          Tells s record fiber m run
            (.active run (.eval (((⟨c⟩ : Fiber ε).interrupt : Effect ε).chainAs next))) fun o st m' =>
              Q o ((fiber, .started l) :: (st₁ ++ (fiber, .started r) :: (st₂ ++ st))) m' := by
    intro frame frame' l r c st₁ st₂ m hm hchild₁ hchild₂ hboth run hfalse
    have hend : ∀ o m', m ≤ m' → s.world.store.isFinished c = true →
        Q o ((fiber, .started l) :: (st₁ ++ (fiber, .started r) :: (st₂ ++ []))) m' := by
      intro o m' hm' hfinished
      rw [List.append_nil]
      exact h o l r st₁ st₂ m' (by omega) hchild₁ hchild₂ (hboth hfinished).1 (hboth hfinished).2
    refine ⟨fun combine => ?_, fun next hnext => ?_⟩
    · refine chain_exit hfalse (fun r hr => awaitOrInterrupt hrun hr fun x _ _ hfinished =>
        ⟨rfl, hfinished, x, rfl⟩) (fun x => ?_) hend
      cases x with
      | done v => exact Settles.yields_succeed _ fun _ _ => trivial
      | halt h => exact Settles.yields_pure trivial
    · exact chain_exit hfalse (fun r hr => interrupt hrun hr fun x _ _ hfinished =>
        ⟨rfl, hfinished, x, rfl⟩) hnext hend
  refine raceFold hrun hfalse hl hr (fun l r st₁ st₂ x m hm hchild₁ hchild₂ hx w run' hrun' => ?_)
    fun l r st₁ st₂ x m hm hchild₁ hchild₂ hx w run' hrun' => ?_
  · obtain ⟨hfinish, hstop⟩ := hother (c := r) hm hchild₁ hchild₂ (fun hr => ⟨hx.finished, hr⟩) hrun'
    cases x with
    | done a => exact hfinish fun b => pure (.pair a b)
    | halt h => exact hstop _ fun x => Settles.yields_pure trivial
  · obtain ⟨hfinish, hstop⟩ := hother (c := l) hm hchild₁ hchild₂ (fun hl => ⟨hl, hx.finished⟩) hrun'
    cases x with
    | done b => exact hfinish fun a => pure (.pair a b)
    | halt h =>
      refine hstop _ fun x => ?_
      cases x with
      | done _ | halt _ => exact Settles.yields_pure trivial

end Race

end Workshop.Tells

end Fibers
